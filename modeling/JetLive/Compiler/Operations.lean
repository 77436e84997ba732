import JetLive.Compiler.State
import Mathlib.Algebra.BigOperators.Group.Finset.Basic
import Mathlib.Algebra.Order.BigOperators.Group.Finset

/-!
# The operations of the compiler

`compile`, `remove`, `link` and `update`, each as the source computes it. The
four parts of `update` are named: it polls the running compilations, starts
pending ones, decides about a requested link and polls the running link.

`resolveUndefined` is the loop of `doLink` over the undefined symbols. It takes
an arbitrary element of the set in every round and may put symbols back, so it
is defined by recursion on a measure: the open symbols together with the objects
that are not yet part of the link.
-/

namespace JetLive

open Containers

namespace Compiler

/-- What `compile` does to the state: a running compilation of the same source is
killed, a pending one is dropped, and the new task goes to the end. -/
def enqueue (cu : CompilationUnit) (finishCallback : FinishCallback) (c : Compiler) :
    Compiler :=
  { c with
    compilerPath := if c.compilerPath = "" then cu.compilerPath else c.compilerPath
    runningCompilationTasks := c.runningCompilationTasks.erase cu.sourceFilePath
    pendingCompilationTasks :=
      c.pendingCompilationTasks.filter (fun task => task.cu.sourceFilePath ≠ cu.sourceFilePath)
        ++ [⟨cu, finishCallback⟩] }

def findReady (readyOrder : Iteration String) (compilationUnitPath : String) (c : Compiler) :
    Option String :=
  (readyOrder.toList c.readyCompilationUnits.keys).find? fun key =>
    (c.readyCompilationUnits.lookup key).any fun cu => cu.sourceFilepath = compilationUnitPath

/-- What `remove` does to the state. -/
def dequeue (readyOrder : Iteration String) (compilationUnitPath : String) (c : Compiler) :
    Compiler :=
  { c with
    runningCompilationTasks := c.runningCompilationTasks.erase compilationUnitPath
    pendingCompilationTasks :=
      c.pendingCompilationTasks.filter fun task => task.cu.sourceFilePath ≠ compilationUnitPath
    readyCompilationUnits :=
      match c.findReady readyOrder compilationUnitPath with
      | some key => c.readyCompilationUnits.erase key
      | none => c.readyCompilationUnits }

def readyList (readyOrder : Iteration String) (c : Compiler) : List ShortCompilationUnit :=
  (readyOrder.toList c.readyCompilationUnits.keys).filterMap fun key =>
    c.readyCompilationUnits.lookup key

end Compiler

def compilationCommand (cu : CompilationUnit) : String :=
  cu.compilationCommandStr ++ " -fPIC " ++
    (if cu.depFilePath = "" then "" else " -MD -MF " ++ cu.depFilePath)

def compilationTask (cu : CompilationUnit) (finishCallback : FinishCallback) : Task where
  process := ⟨compilationCommand cu, cu.compilationDirStr⟩
  hasColorDiagnosticsFlag := cu.hasColorDiagnosticsFlag
  filename := TeenyPath.filenameOf cu.sourceFilePath
  cuOrLibFilepath := cu.sourceFilePath
  objFilepath := cu.objFilePath
  finishCallback := finishCallback

/-- The unit that has to be compiled and linked for an undefined symbol: the unit
that exports it, unless a loaded program does. -/
def ownerUnit (context : LiveContext) (undefSymName : String) : Option CompilationUnit :=
  if context.programs.any fun program => undefSymName ∈ program.symbols.exportedSymbolNames then
    none
  else
    (context.exportedSymbolNamesInSourceFiles.lookup undefSymName).bind fun sourceFilePath =>
      context.compilationUnits.lookup sourceFilePath

def unitObjects (context : LiveContext) : Finset String :=
  context.compilationUnits.keys.biUnion fun key =>
    ((context.compilationUnits.lookup key).map fun cu => cu.objFilePath).toFinset

theorem exists_lookup_of_ownerUnit {context : LiveContext} {undefSymName : String}
    {cu : CompilationUnit} (h : ownerUnit context undefSymName = some cu) :
    ∃ sourceFilePath, context.compilationUnits.lookup sourceFilePath = some cu := by
  unfold ownerUnit at h
  split at h
  · simp at h
  · obtain ⟨sourceFilePath, _, hcu⟩ := Option.bind_eq_some_iff.mp h
    exact ⟨sourceFilePath, hcu⟩

theorem objFilePath_mem_unitObjects {context : LiveContext} {undefSymName : String}
    {cu : CompilationUnit} (h : ownerUnit context undefSymName = some cu) :
    cu.objFilePath ∈ unitObjects context := by
  obtain ⟨key, hkey⟩ := exists_lookup_of_ownerUnit h
  refine Finset.mem_biUnion.mpr ⟨key, ?_, ?_⟩
  · exact Finmap.mem_keys.mpr (Finmap.mem_of_lookup_eq_some hkey)
  · simp [hkey]

/-- The measure of `resolveUndefined`: the open symbols, and for every object that
is not yet part of the link the symbols it may still add. -/
def openWork (context : LiveContext) (undefinedOf : String → Finset String)
    (undefinedSymbolNames uniqueObjectFilePaths : Finset String) : ℕ :=
  undefinedSymbolNames.card +
    ∑ o ∈ unitObjects context \ uniqueObjectFilePaths, ((undefinedOf o).card + 1)

theorem openWork_erase_lt (context : LiveContext) (undefinedOf : String → Finset String)
    {names : Finset String} (objects : Finset String) {name : String} (h : name ∈ names) :
    openWork context undefinedOf (names.erase name) objects <
      openWork context undefinedOf names objects := by
  have hcard := Finset.card_erase_lt_of_mem h
  unfold openWork
  omega

theorem openWork_insert_lt {context : LiveContext} (undefinedOf : String → Finset String)
    {names objects : Finset String} {name o : String} (h : name ∈ names)
    (ho : o ∈ unitObjects context) (hnew : o ∉ objects) :
    openWork context undefinedOf (names.erase name ∪ undefinedOf o) (insert o objects) <
      openWork context undefinedOf names objects := by
  have hcard := Finset.card_erase_lt_of_mem h
  have hunion := Finset.card_union_le (names.erase name) (undefinedOf o)
  have hmem : o ∈ unitObjects context \ objects := Finset.mem_sdiff.mpr ⟨ho, hnew⟩
  have hsdiff : unitObjects context \ insert o objects =
      (unitObjects context \ objects).erase o := by
    ext x
    simp only [Finset.mem_sdiff, Finset.mem_insert, Finset.mem_erase]
    tauto
  have hsum := Finset.add_sum_erase (unitObjects context \ objects)
    (fun o => (undefinedOf o).card + 1) hmem
  unfold openWork
  rw [hsdiff]
  omega

def reloadLibraryName (k : ℕ) : String := "lib_reload" ++ toString k ++ ".so"

namespace Session

variable {W : Type*}

def compile (cu : CompilationUnit) (finishCallback : FinishCallback) (s : Session W) :
    Session W :=
  (s.emit (.compile cu)).modify (Compiler.enqueue cu finishCallback)

def link (finishCallback : LinkFinishCallback) (s : Session W) : Session W :=
  (s.emit .link).modify fun c =>
    { c with shouldLink := true, pendingLinkingFinishCallback := finishCallback }

def remove (readyOrder : Iteration String) (compilationUnitPath : String) (s : Session W) :
    Session W :=
  (s.emit (.remove compilationUnitPath)).modify
    (Compiler.dequeue readyOrder compilationUnitPath)

def doCompile (cu : CompilationUnit) (finishCallback : FinishCallback) (s : Session W) :
    Session W :=
  let s := s.addLog .kInfo ("Compiling: " ++ TeenyPath.filenameOf cu.sourceFilePath)
  let task := compilationTask cu finishCallback
  (s.emit (.compileStarted cu.sourceFilePath task.process)).modify fun c =>
    { c with
      runningCompilationTasks := c.runningCompilationTasks.insert cu.sourceFilePath task }

def failureMessage (task : Task) (errMessage : String) : String :=
  "Failed: " ++ task.filename ++ (if task.hasColorDiagnosticsFlag then "\n\x1b[m" else "\n")
    ++ errMessage

/-- One element of the loop over the running compilations. -/
def pollTask (host : Host W) (env : Environment) (s : Session W) (key : String) : Session W :=
  match s.compiler.runningCompilationTasks.lookup key, env.exitStatus key with
  | some task, some (status, errMessage) =>
      let s :=
        if status = 0 then
          let s := s.modify fun c =>
            { c with
              readyCompilationUnits := c.readyCompilationUnits.insert task.cuOrLibFilepath
                ⟨task.cuOrLibFilepath, task.objFilepath⟩ }
          let s := s.addLog .kInfo ("Success: " ++ task.filename)
          s.modify fun c =>
            { c with failedCompilationUnits := setErase task.filename c.failedCompilationUnits }
        else
          let s := s.addLog .kWarning (failureMessage task errMessage)
          let s := s.modify fun c =>
            { c with
              readyCompilationUnits := c.readyCompilationUnits.erase task.cuOrLibFilepath }
          s.modify fun c =>
            { c with failedCompilationUnits := setInsert task.filename c.failedCompilationUnits }
      s.callback (.compileFinished task.finishCallback status task.cuOrLibFilepath errMessage)
        (host.compileFinished task.finishCallback status task.cuOrLibFilepath errMessage)
  | _, _ => s

/-- The first part of `update`: the loop over the running compilations, and then
the removal of those that have finished. -/
def pollCompilations (host : Host W) (env : Environment) (s : Session W) : Session W :=
  let keys := env.runningOrder.toList s.compiler.runningCompilationTasks.keys
  let tasksToRemove := keys.filter fun key => (env.exitStatus key).isSome
  (keys.foldl (pollTask host env) s).modify fun c =>
    { c with runningCompilationTasks := eraseAll c.runningCompilationTasks tasksToRemove }

/-- The second part of `update`: pending compilations, first come first served,
as long as there is a free worker. -/
def startPending (workerThreadsCount : ℕ) :
    List PendingCompilationTask → Session W → Session W
  | [], s => s
  | pendingTask :: rest, s =>
      if s.compiler.runningCompilationTasks.keys.card < workerThreadsCount then
        startPending workerThreadsCount rest
          ((s.doCompile pendingTask.cu pendingTask.finishCallback).modify fun c =>
            { c with pendingCompilationTasks := c.pendingCompilationTasks.tail })
      else s

structure LinkSearch (W : Type*) where
  session : Session W
  uniqueObjectFilePaths : Finset String
  pendingCompilation : Bool

/-- The loop of `doLink`: every undefined symbol that no loaded program exports
brings in the object of its unit, which is recompiled, with its own undefined
symbols. -/
def resolveUndefined (context : LiveContext) (env : Environment) (round : ℕ)
    (undefinedSymbolNames : Finset String) (search : LinkSearch W) : LinkSearch W :=
  match _hname : (env.symbolOrder round).first undefinedSymbolNames with
  | none => search
  | some undefSymName =>
      match hcu : ownerUnit context undefSymName with
      | none =>
          resolveUndefined context env (round + 1)
            (undefinedSymbolNames.erase undefSymName) search
      | some cu =>
          if hobj : cu.objFilePath ∈ search.uniqueObjectFilePaths then
            resolveUndefined context env (round + 1)
              (undefinedSymbolNames.erase undefSymName) search
          else
            resolveUndefined context env (round + 1)
              (undefinedSymbolNames.erase undefSymName ∪ env.undefinedSymbolNames cu.objFilePath)
              { session := search.session.compile cu .nothing
                uniqueObjectFilePaths := insert cu.objFilePath search.uniqueObjectFilePaths
                pendingCompilation := true }
termination_by openWork context env.undefinedSymbolNames undefinedSymbolNames
  search.uniqueObjectFilePaths
decreasing_by
  · exact openWork_erase_lt _ _ _ (Iteration.mem_of_first _ _hname)
  · exact openWork_erase_lt _ _ _ (Iteration.mem_of_first _ _hname)
  · exact openWork_insert_lt _ (Iteration.mem_of_first _ _hname)
      (objFilePath_mem_unitObjects hcu) hobj

def startLink (config : LiveConfig) (env : Environment) (finishCallback : LinkFinishCallback)
    (objectFilePaths : List String) (s : Session W) : Session W :=
  let s := s.addLog .kInfo "Linking..."
  let libName := reloadLibraryName s.compiler.currentLibIndex
  let linkCommand := createLinkCommand libName s.compiler.compilerPath
    (findPrefferedBaseAddressForLibrary env.tellg env.memoryRegions objectFilePaths)
    config.linkerType objectFilePaths
  let s := s.addLog .kDebug ("Link command:\n" ++ linkCommand)
  let process : Process := ⟨linkCommand, config.cmakeBuildDirectory⟩
  (s.emit (.linkStarted process)).modify fun c =>
    { c with
      currentLibIndex := c.currentLibIndex + 1
      pendingLinkingFinishCallback := none
      runningLinkTask := some
        { process
          cuOrLibFilepath := config.cmakeBuildDirectory ++ "/" ++ libName
          linkFinishCallback := finishCallback } }

def doLink (config : LiveConfig) (context : LiveContext) (env : Environment)
    (finishCallback : LinkFinishCallback) (s : Session W) : Session W :=
  if s.compiler.readyCompilationUnits.keys = ∅ then s.addLog .kInfo "Nothing to reload."
  else
    let ready := s.compiler.readyList env.readyOrder
    let undefinedSymbolNames := ready.foldl
      (fun names cu => names ∪ env.undefinedSymbolNames cu.objFilepath) ∅
    let oldShouldLink := s.compiler.shouldLink
    let search := resolveUndefined context env 0 undefinedSymbolNames
      { session := s.modify fun c => { c with shouldLink := false }
        uniqueObjectFilePaths := (ready.map fun cu => cu.objFilepath).toFinset
        pendingCompilation := false }
    if search.pendingCompilation then
      search.session.modify fun c =>
        { c with shouldLink := true, pendingLinkingFinishCallback := finishCallback }
    else
      (search.session.modify fun c => { c with shouldLink := oldShouldLink }).startLink config env
        finishCallback (env.objectOrder.toList search.uniqueObjectFilePaths)

def logFailed (s : Session W) : Session W :=
  let s := s.addLog .kWarning "There're files that failed to compile:"
  let s := s.compiler.failedCompilationUnits.foldl
    (fun s el => s.addLog .kWarning ("* " ++ el)) s
  s.addLog .kWarning "Please fix it and try again"

/-- The third part of `update`: a requested link is started, or refused with the
status `125` if there are files that failed to compile. -/
def decideLink (host : Host W) (config : LiveConfig) (env : Environment) (s : Session W) :
    Session W :=
  if s.compiler.runningCompilationTasks.keys = ∅ ∧ s.compiler.shouldLink then
    let s := s.modify fun c => { c with shouldLink := false }
    if s.compiler.failedCompilationUnits = [] then
      s.doLink config (host.context s.world) env s.compiler.pendingLinkingFinishCallback
    else
      let s := s.logFailed
      s.callback (.linkRefused s.compiler.pendingLinkingFinishCallback)
        (host.linkFinished s.compiler.pendingLinkingFinishCallback 125 "" [] "")
  else s

/-- The library is loaded here too, so that a load-time error keeps the ready
units; it is reported as the status `123`. -/
def loadLibrary (env : Environment) (libPath : String) (status : ℤ) (s : Session W) :
    Session W × ℤ :=
  if status = 0 then
    let s := s.addLog .kDebug ("Opening " ++ libPath ++ "...")
    match env.dlerror with
    | none => ((s.emit (.dlopen libPath true)).addLog .kDebug "Library opened successfully", 0)
    | some err =>
        ((s.emit (.dlopen libPath false)).addLog .kError
          ("Cannot open library " ++ libPath ++ "\n" ++ err), 123)
  else (s, status)

/-- The last part of `update`: the end of the running link. -/
def pollLink (host : Host W) (env : Environment) (s : Session W) : Session W :=
  match s.compiler.runningLinkTask, env.linkExitStatus with
  | some task, some (exitStatus, errMessage) =>
      let s :=
        if exitStatus ≠ 0 then
          s.addLog .kWarning ("Link failed: " ++ task.cuOrLibFilepath ++ "\n" ++ errMessage)
        else s.addLog .kInfo "Linked successfully"
      let loaded := s.loadLibrary env task.cuOrLibFilepath exitStatus
      let s := loaded.1
      let status := loaded.2
      let sourceFilePaths :=
        (s.compiler.readyList env.readyOrder).map fun cu => cu.sourceFilepath
      let s := s.callback
        (.linkFinished task.linkFinishCallback status task.cuOrLibFilepath sourceFilePaths
          errMessage)
        (host.linkFinished task.linkFinishCallback status task.cuOrLibFilepath sourceFilePaths
          errMessage)
      let s := s.modify fun c =>
        { c with
          runningLinkTask := none
          readyCompilationUnits := if status = 0 then ∅ else c.readyCompilationUnits }
      s.emit (.linkTaskReset status)
  | _, _ => s

def update (host : Host W) (config : LiveConfig) (env : Environment) (s : Session W) :
    Session W :=
  let s := s.pollCompilations host env
  let s := startPending config.workerThreadsCount s.compiler.pendingCompilationTasks s
  let s := s.decideLink host config env
  s.pollLink host env

end Session

end JetLive

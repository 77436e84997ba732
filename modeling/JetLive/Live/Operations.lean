import JetLive.Compiler.Run
import JetLive.Live.Units

/-!
# The operations of the library

`Live` is a session of the compiler in the world of the library. `Live.host` gives
the callbacks of the compiler their meaning: the end of a compilation updates the
dependencies of the unit, the end of a successful link loads the new code.

`update` is cut where the event queue comes in: `Live.poll` is the part up to it,
which ends in working on the queue unless a link process is running, and
`Live.dispatch` handles one event. So a call of `tryReload`, which may come from a
signal handler, can fall between any two events.
-/

namespace JetLive

open Containers TeenyPath

namespace LiveWorld

def updateDependenciesOf (p : String) (w : LiveWorld) : LiveWorld × List LogEntry :=
  match w.context.compilationUnits.lookup p with
  | none => (w, [])
  | some cu =>
      let updated := updateDependencies w.outside.fs w.outside.dependencyOrder
        w.fileWatcher.isSome cu w.context
      -- `addWatch` is called for the directories that are new to `dirsToMonitor`
      ({ w with
         context := updated.1
         watches := w.watches ∪ (updated.1.dirsToMonitor \ w.context.dirsToMonitor) },
       updated.2)

theorem updateDependenciesOf_context {w : LiveWorld} {p : String} {cu : CompilationUnit}
    (hcu : w.context.compilationUnits.lookup p = some cu) :
    (w.updateDependenciesOf p).1.context = (updateDependencies w.outside.fs
      w.outside.dependencyOrder w.fileWatcher.isSome cu w.context).1 := by
  rw [updateDependenciesOf, hcu]

theorem unitsOf_updateDependenciesOf {w : LiveWorld}
    (hkeyed : UnitsKeyed (unitsOf w.context.compilationUnits)) (p : String) :
    unitsOf (w.updateDependenciesOf p).1.context.compilationUnits =
      unitsOf w.context.compilationUnits := by
  unfold updateDependenciesOf
  split
  · rfl
  · rename_i cu hcu
    refine unitsOf_updateDependencies _ _ _ ?_
    rw [sourceFilePath_of_lookup hkeyed hcu]
    exact hcu

/-- Keep the start of `p` up to the first byte that differs from `q`. -/
def commonStart : Path → Path → Path
  | c :: p, d :: q => if c = d then c :: commonStart p q else []
  | p, _ => p

/-- One unit of the loop that looks for the directory of all sources. -/
def narrowDir (fs : FileSystem) (commonDir : Path) (sourceFilePath : String) : Path :=
  let commonDir :=
    if commonDir = [] then sourceFilePath.toList
    else commonStart commonDir sourceFilePath.toList
  if fs.isDirectory (String.ofList commonDir) then commonDir else parentPath commonDir

def unitList (w : LiveWorld) : List (String × CompilationUnit) :=
  (w.outside.unitOrder.toList w.context.compilationUnits.keys).filterMap fun p =>
    (w.context.compilationUnits.lookup p).map fun cu => (p, cu)

/-- Find the directory that all sources are in. -/
def updateDirectoryFilters (w : LiveWorld) : LiveWorld × List LogEntry :=
  let commonDir := String.ofList
    ((w.unitList.map fun unit => unit.2.sourceFilePath).foldl (narrowDir w.outside.fs) [])
  ({ w with context := { w.context with dirFilters := {commonDir} } },
   [.log .kDebug ("Root directory: " ++ commonDir)])

def getDirectoriesToMonitor (config : LiveConfig) (w : LiveWorld) : Finset String :=
  let filesToMonitor : Finset String :=
    if config.isXcodeProject then {w.compileCommandsPath, w.pbxProjPath}
    else {w.compileCommandsPath}
  (w.context.inverseDependencies.keys ∪ filesToMonitor).image parentOf

def setupFileWatcher (config : LiveConfig) (w : LiveWorld) : LiveWorld × List LogEntry :=
  ({ w with
     context := { w.context with dirsToMonitor := w.getDirectoriesToMonitor config }
     fileWatcher := some []
     watches := w.getDirectoriesToMonitor config },
   [.log .kInfo "Setup file watcher: done"])

def addExportedSymbols (out : Outside) (names : UnorderedMap String String)
    (unit : String × CompilationUnit) : UnorderedMap String String :=
  (out.exportedSymbolNames unit.2.objFilePath).foldl (fun names el => names.insert el unit.1) names

def exportedSummary (out : Outside) (units : List (String × CompilationUnit)) : String :=
  "Done, total exported symbols: "
    ++ toString ((units.map fun unit => (out.exportedSymbolNames unit.2.objFilePath).length).sum)
    ++ " in " ++ toString units.length ++ " files"

/-- What a reload reads and changes of the process. -/
def image (w : LiveWorld) : Image where
  programs := w.context.programs
  memory := w.memory
  hooks := w.hooks

def knownUnits (sourceFilePaths : List String) (w : LiveWorld) :
    List (String × CompilationUnit) :=
  sourceFilePaths.filterMap fun p =>
    (w.context.compilationUnits.lookup p).map fun cu => (p, cu)

def libProgram (libPath : String) (sourceFilePaths : List String) (w : LiveWorld) : Program where
  path := libPath
  symbols := w.outside.programSymbols libPath
  objFilePaths := (w.knownUnits sourceFilePaths).map fun unit => unit.2.objFilePath

def pipelineInput (newProgram : Program) (w : LiveWorld) : PipelineInput where
  arch := w.outside.arch
  newProgram := newProgram
  relocs := w.outside.linkTimeRelocations newProgram.objFilePaths
  status := w.outside.patchStatus
  hookStatus := w.outside.hookStatus

/-- The callback of a reload: the new code is loaded if the link was successful. -/
def loadCode (status : ℤ) (libPath : String) (sourceFilePaths : List String) (w : LiveWorld) :
    LiveWorld × List HostEvent :=
  if status ≠ 0 then (w, [.onCodePreLoad, .onCodePostLoad])
  else
    let units := w.knownUnits sourceFilePaths
    let newProgram := w.libProgram libPath sourceFilePaths
    let result := w.image.pipeline (w.pipelineInput newProgram)
    ({ w with
       context := { w.context with
         exportedSymbolNamesInSourceFiles := units.foldl (addExportedSymbols w.outside)
           w.context.exportedSymbolNamesInSourceFiles
         programs := w.context.programs ++ [result.2.1] }
       memory := result.1.memory
       hooks := result.1.hooks },
     [.onCodePreLoad, .log ⟨.kDebug, "Loading symbols from " ++ libPath ++ "..."⟩,
      .log ⟨.kDebug, "Symbols loaded"⟩, .log ⟨.kDebug, "Loading exported symbols list..."⟩,
      .log ⟨.kDebug, exportedSummary w.outside units⟩,
      .reload newProgram (units.map fun unit => unit.2.objFilePath)] ++ result.2.2.map .log ++
     [.log ⟨.kInfo, "Code reloaded"⟩, .onCodePostLoad])

/-! ### Initialization -/

/-- Generate the file with the units for a project of Xcode. -/
def generateDatabase (config : LiveConfig) (w : LiveWorld) : LiveWorld × List LogEntry :=
  if config.isXcodeProject then
    let created := createCompileCommandsJsonFromXcodeProject config w.outside true w.pbxProjPath
    ({ w with pbxProjPath := created.1 }, created.2)
  else (w, [])

/-- Read the units for the first time; `none` is an exception. -/
def parseCompilationUnits (filepath : String) (w : LiveWorld) :
    Option (UnorderedMap String CompilationUnit) × List LogEntry :=
  if pathExists w.outside.fs filepath.toList then
    parseCompilationUnitsInternal w.outside filepath
  else (some ∅, [.log .kError ("Cannot find 'compile_commands.json' path at " ++ filepath)])

theorem parseCompilationUnits_keyed {filepath : String} {w : LiveWorld}
    {units : UnorderedMap String CompilationUnit}
    (h : (w.parseCompilationUnits filepath).1 = some units) : UnitsKeyed (unitsOf units) := by
  unfold parseCompilationUnits at h
  split at h
  · exact parseCompilationUnitsInternal_keyed h
  · obtain rfl := Option.some.inj h
    exact collectUnits_keyed []

/-- Enter the units and the path of the file they come from, if it could be opened. -/
def enterUnits (filepath : String) (units : UnorderedMap String CompilationUnit)
    (w : LiveWorld) : LiveWorld × List LogEntry :=
  let isOpen := pathExists w.outside.fs filepath.toList ∧
    w.outside.database filepath ≠ .unreadable
  ({ w with
     context := { w.context with compilationUnits := units }
     compileCommandsPath := if isOpen then filepath else w.compileCommandsPath },
   if units.keys = ∅ then [.log .kError "There're no compilation units"]
   else
     [.log .kDebug ("Success parsing compilation commands, total " ++ toString units.keys.card
       ++ " compilation units"), .log .kInfo "Load CUs: done"])

/-- One program that is loaded at the start; programs without symbols are skipped. -/
def loadProgram (path : String) (w : LiveWorld) : LiveWorld × List LogEntry :=
  let symbols := w.outside.programSymbols path
  let loading := LogEntry.log .kDebug ("Loading symbols for " ++ path ++ " ...")
  if symbols.functions = [] ∧ symbols.vars = [] then
    (w, [loading, .log .kDebug (path ++ " has no symbols, skipping")])
  else
    let names (l : List Symbol) : ℕ := (l.map fun sym => sym.name).dedup.length
    ({ w with
       context := { w.context with programs := w.context.programs ++ [{ path, symbols }] } },
     [loading, .log .kDebug ("Symbols loaded: funcs " ++ toString (names symbols.functions)
       ++ ", vars " ++ toString (names symbols.vars) ++ ", "
       ++ if path = "" then "Self" else path)])

def loadExportedSymbols (w : LiveWorld) : LiveWorld × List LogEntry :=
  ({ w with
     context := { w.context with
       exportedSymbolNamesInSourceFiles := w.unitList.foldl (addExportedSymbols w.outside)
         w.context.exportedSymbolNamesInSourceFiles } },
   [.log .kDebug "Loading exported symbols list...",
    .log .kDebug (exportedSummary w.outside w.unitList),
    .log .kInfo "Load exported symbols: done"])

/-- The path of the unit that a reference to a unit refers to, which was taken when the map of the
units had been assigned `readings` times. -/
def referent (w : LiveWorld) (p : String) (readings : ℕ) : String :=
  if readings = w.readings then p else w.outside.referent p

end LiveWorld

/-- The library: the compiler in the world of the library. -/
abbrev Live := Session LiveWorld

namespace Live

/-- The callbacks given to the compiler by the library. -/
def host : Host LiveWorld where
  context w := w.context
  compileFinished
    | .updateDependencies p readings, _, _, _, w =>
        let updated := w.updateDependenciesOf (w.referent p readings)
        (updated.1, updated.2.map .log)
    | .nothing, _, _, _, w => (w, [])
  linkFinished
    | none, _, _, _, _, w => (w, [])
    | some _, status, libPath, sourceFilePaths, _, w => w.loadCode status libPath sourceFilePaths

def ask (out : Outside) (s : Live) : Live := s.modifyWorld fun w => { w with outside := out }

/-! ## File events -/

def compileUnit (complaint : String) (s : Live) (p : String) : Live :=
  match s.world.context.compilationUnits.lookup p with
  | some cu => s.compile cu (.updateDependencies p s.world.readings)
  | none => s.emitLogs [.log .kError (complaint ++ p)]

def removeUnit (s : Live) (p : String) : Live :=
  (s.remove s.world.outside.readyOrder p).modifyWorld fun w =>
    let oldDeps := w.outside.dependencyOrder.toList (lookupSet w.context.dependencies p)
    { w with
      context := { w.context with
        inverseDependencies := oldDeps.foldl (fun m dep => eraseAt m p dep)
          w.context.inverseDependencies
        dependencies := w.context.dependencies.erase p } }

def recreateFileWatcherMaxTicks : ℕ := 10

/-- Compile and remove units after a new reading of `compile_commands.json`. -/
def applyChanges (changes : UnitChanges) (s : Live) : Live :=
  let s : Live := (changes.added ++ changes.modified).foldl (compileUnit "Cannot find cu for ") s
  let s : Live := changes.removed.foldl removeUnit s
  s.modifyWorld fun w => { w with recreateFileWatcherAfterTicks := recreateFileWatcherMaxTicks }

/-- A file that no unit depends on has changed; the flag tells whether no exception was
thrown. -/
def onOtherFileChanged (config : LiveConfig) (filepath : String) (s : Live) : Live × Bool :=
  match updateCompilationUnits config filepath s.world with
  | (none, logs) => (s.emitLogs logs, false)
  | (some (w, changes), logs) =>
      let s : Live := (s.act fun _ => (w, logs)).act LiveWorld.updateDirectoryFilters
      (if changes.changed then s.applyChanges changes else s, true)

def onFileChanged (config : LiveConfig) (filepath : String) (s : Live) : Live × Bool :=
  match s.world.context.inverseDependencies.lookup filepath with
  | some deps =>
      ((s.world.outside.dependentsOrder.toList deps).foldl
        (compileUnit "Cannot find dependency cu for ") s, true)
  | none => s.onOtherFileChanged config filepath

/-! ## The runloop -/

/-- The filter of the file watcher: no object files, temporary files and depfiles. -/
def watched (filename : String) : Bool :=
  let f := filename.toList
  !(['.', 'o'].isSuffixOf f) && !(['.', 't', 'm', 'p'].isSuffixOf f) && !(['.', 'd'].isSuffixOf f)

def fileAction (directory filename : String) (s : Live) : Live :=
  s.modifyWorld fun w =>
    if watched filename then
      { w with fileWatcher := w.fileWatcher.map (· ++ [⟨directory, filename⟩]) }
    else w

def tryReload (s : Live) : Live :=
  (s.emitLogs [.log .kInfo "Trying to reload code..."]).modifyWorld fun w =>
    { w with events := w.events ++ [.tryReload] }

/-- The ticks after which the file watcher is set up again: it is dropped at the first of
them and made anew at the last. -/
def recreateFileWatcher (config : LiveConfig) (w : LiveWorld) : LiveWorld × List LogEntry :=
  let w :=
    { w with
      fileWatcher :=
        if w.recreateFileWatcherAfterTicks = recreateFileWatcherMaxTicks then none
        else w.fileWatcher
      watches :=
        if w.recreateFileWatcherAfterTicks = recreateFileWatcherMaxTicks then ∅ else w.watches
      recreateFileWatcherAfterTicks := w.recreateFileWatcherAfterTicks - 1 }
  if w.recreateFileWatcherAfterTicks = 1 then w.setupFileWatcher config else (w, [])

/-- The part of `update` about the file watcher, whose events go to the queue. -/
def tickFileWatcher (config : LiveConfig) (s : Live) : Live :=
  (s.act (recreateFileWatcher config)).modifyWorld fun w =>
    { w with
      events := w.events ++ (w.fileWatcher.getD []).map fun event =>
        .fileChanged (event.directory ++ event.filename)
      fileWatcher := w.fileWatcher.map fun _ => [] }

/-- `update` up to the event queue. -/
def poll (config : LiveConfig) (env : Environment) (s : Live) : Live :=
  let s : Live := (s.tickFileWatcher config).update host config env
  s.modifyWorld fun w => { w with draining := !s.compiler.isLinking }

/-- The library passes one callback to `link`. -/
def reloadCallback : LinkFinishCallback := some 0

/-- One event of the queue. An exception ends the call of `update` and leaves the event
in the queue. -/
def dispatch (config : LiveConfig) (event : LiveEvent) (s : Live) : Live :=
  match event with
  | .fileChanged filepath =>
      let result := s.onFileChanged config filepath
      if result.2 then
        result.1.modifyWorld fun w => { w with events := w.events.erase event }
      else result.1.modifyWorld fun w => { w with draining := false }
  | .tryReload =>
      (s.link reloadCallback).modifyWorld fun w => { w with events := w.events.erase event }

/-- The state after a new reading of the units, before they are compiled and removed. -/
def afterReading (w : LiveWorld) (logs : List LogEntry) (s : Live) : Live :=
  (s.act fun _ => (w, logs)).act LiveWorld.updateDirectoryFilters

/-- A file that no unit depends on: the reading of the units throws, or they are read, and
compiled and removed if there are changes. -/
theorem onOtherFileChanged_cases (config : LiveConfig) (filepath : String) (s : Live) :
    (∃ logs, s.onOtherFileChanged config filepath = (s.emitLogs logs, false)) ∨
    ∃ w changes logs, (updateCompilationUnits config filepath s.world).1 = some (w, changes) ∧
      ((changes.changed = true ∧ s.onOtherFileChanged config filepath =
        ((s.afterReading w logs).applyChanges changes, true)) ∨
      (changes.changed = false ∧ s.onOtherFileChanged config filepath =
        (s.afterReading w logs, true))) := by
  unfold onOtherFileChanged
  cases hupdate : updateCompilationUnits config filepath s.world with
  | mk read logs =>
      cases read with
      | none => exact Or.inl ⟨logs, rfl⟩
      | some read =>
          obtain ⟨w, changes⟩ := read
          refine Or.inr ⟨w, changes, logs, rfl, ?_⟩
          cases hchanged : changes.changed with
          | true => exact Or.inl ⟨rfl, by simp [afterReading, hchanged]⟩
          | false => exact Or.inr ⟨rfl, by simp [afterReading, hchanged]⟩

/-- A file event leaves the queue when it is handled, and an exception ends the work on the
queue. -/
theorem dispatch_fileChanged_cases (config : LiveConfig) (filepath : String) (s : Live) :
    ((s.onFileChanged config filepath).2 = true ∧
      s.dispatch config (.fileChanged filepath) = (s.onFileChanged config filepath).1.modifyWorld
        fun w => { w with events := w.events.erase (.fileChanged filepath) }) ∨
    ((s.onFileChanged config filepath).2 = false ∧
      s.dispatch config (.fileChanged filepath) = (s.onFileChanged config filepath).1.modifyWorld
        fun w => { w with draining := false }) := by
  cases hdone : (s.onFileChanged config filepath).2 with
  | true => exact Or.inl ⟨rfl, by simp [dispatch, hdone]⟩
  | false => exact Or.inr ⟨rfl, by simp [dispatch, hdone]⟩

/-! ## Initialization -/

/-- Read the units; an exception ends the process here. `filepath` is the path found for
`compile_commands.json`. -/
def loadCompilationUnits (config : LiveConfig) (filepath : String) (s : Live) : Option Live :=
  let s : Live := (s.emitLogs [.log .kDebug "Parsing compilation commands..."]).act
    (LiveWorld.generateDatabase config)
  match s.world.parseCompilationUnits filepath with
  | (none, _) => none
  | (some units, logs) => some ((s.emitLogs logs).act (LiveWorld.enterUnits filepath units))

def loadDependencies (s : Live) : Live :=
  let s : Live := s.emitLogs [.log .kDebug "Parsing dependencies..."]
  let s : Live := s.world.unitList.foldl (fun s unit => s.act (·.updateDependenciesOf unit.1)) s
  s.emitLogs [.log .kDebug "Success parsing dependencies", .log .kInfo "Load dependencies: done"]

def loadSymbols (s : Live) : Live :=
  let s : Live := s.world.outside.loadedProgramsPaths.foldl
    (fun s path => s.act (LiveWorld.loadProgram path)) s
  s.emitLogs [.log .kInfo "Load symbols: done"]

/-- The library after its initialization, which runs before any event is handled. -/
def create (config : LiveConfig) (filepath : String) (out : Outside) (memory : ProcessMemory) :
    Option Live :=
  let s : Live := { world := { outside := out, memory } }
  (s.loadCompilationUnits config filepath).map fun s =>
    let s := loadDependencies (s.act LiveWorld.updateDirectoryFilters)
    let s := loadSymbols (s.act (LiveWorld.setupFileWatcher config))
    s.act LiveWorld.loadExportedSymbols

end Live

end JetLive

import JetLive.Library.Trace
import JetLive.TeenyPath.Basic
import JetLive.Utility

/-!
# The state of the compiler

`Compiler` is the state of the class, field by field. A `Session` is a compiler
together with the world that owns it and the trace of what happened so far: every
event is recorded with the state of the compiler it happened in. The callbacks
given to the compiler are tags; what they do to the world is the business of the
`Host`, and no callback reaches the compiler itself.

What the processes, the object files and the loader answer during one call of
`update` is an `Environment`; the orders in which the loops of `update` meet the
elements of the unordered containers are part of it.
-/

namespace JetLive

open Containers EventTrace

structure Process where
  command : String
  path : String
  deriving DecidableEq, Repr

/-- The callbacks given to `compile`: the one of `Live`, which updates the
dependencies of a unit, and the empty one of `doLink`. The first one holds a reference
to the unit in the map of the units, which has been assigned `readings` times by then. -/
inductive FinishCallback
  | updateDependencies (sourceFilePath : String) (readings : ℕ)
  | nothing
  deriving DecidableEq, Repr

/-- The callbacks given to `link`, told apart by a number; `none` is an empty
`std::function`. -/
abbrev LinkFinishCallback := Option ℕ

structure Task where
  process : Process
  hasColorDiagnosticsFlag : Bool := false
  filename : String := ""
  cuOrLibFilepath : String
  objFilepath : String := ""
  finishCallback : FinishCallback := .nothing
  linkFinishCallback : LinkFinishCallback := none
  deriving DecidableEq, Repr

structure ShortCompilationUnit where
  sourceFilepath : String
  objFilepath : String
  deriving DecidableEq, Repr

structure PendingCompilationTask where
  cu : CompilationUnit
  finishCallback : FinishCallback
  deriving DecidableEq, Repr

structure Compiler where
  runningCompilationTasks : UnorderedMap String Task := ∅
  pendingCompilationTasks : List PendingCompilationTask := []
  runningLinkTask : Option Task := none
  readyCompilationUnits : UnorderedMap String ShortCompilationUnit := ∅
  failedCompilationUnits : List String := []
  currentLibIndex : ℕ := 1
  compilerPath : String := ""
  shouldLink : Bool := false
  pendingLinkingFinishCallback : LinkFinishCallback := none
  deriving DecidableEq

namespace Compiler

def isLinking (c : Compiler) : Bool := c.runningLinkTask.isSome

def pendingPaths (c : Compiler) : List String :=
  c.pendingCompilationTasks.map fun task => task.cu.sourceFilePath

/-- The source paths the compiler holds: pending, running or ready. -/
def Holds (c : Compiler) (p : String) : Prop :=
  p ∈ c.pendingPaths ∨ p ∈ c.runningCompilationTasks ∨ p ∈ c.readyCompilationUnits

def readyObjects (c : Compiler) : Finset String :=
  c.readyCompilationUnits.keys.biUnion fun p =>
    ((c.readyCompilationUnits.lookup p).map fun cu => cu.objFilepath).toFinset

theorem mem_readyObjects {c : Compiler} {o : String} :
    o ∈ c.readyObjects ↔
      ∃ p cu, c.readyCompilationUnits.lookup p = some cu ∧ cu.objFilepath = o := by
  simp only [readyObjects, Finset.mem_biUnion, Finmap.mem_keys, Option.mem_toFinset,
    Option.mem_def, Option.map_eq_some_iff]
  constructor
  · rintro ⟨p, _, cu, hcu, ho⟩
    exact ⟨p, cu, hcu, ho⟩
  · rintro ⟨p, cu, hcu, ho⟩
    exact ⟨p, Finmap.mem_of_lookup_eq_some hcu, cu, hcu, ho⟩

instance (c : Compiler) (p : String) : Decidable (c.Holds p) :=
  inferInstanceAs (Decidable (_ ∨ _ ∨ _))

end Compiler

/-- What a callback of the host does in view of the application. A `reload` names the
new program, with the objects its relocations are read from, and the objects whose
exported symbols were read. -/
inductive HostEvent
  | log (entry : LogEntry)
  | onCodePreLoad
  | onCodePostLoad
  | reload (newProgram : Program) (exportedFrom : List String)

/-- What happens during a run. The calls of the public operations and the end of
a link task are recorded besides what the compiler does to the outside.
`linkRefused` is the call of the link callback with the status `125` and empty
arguments, `linkFinished` the call at the end of a link process. -/
inductive Event
  | log (severity : LogSeverity) (message : String)
  | compile (cu : CompilationUnit)
  | remove (compilationUnitPath : String)
  | link
  | compileStarted (sourceFilePath : String) (process : Process)
  | compileFinished (callback : FinishCallback) (status : ℤ) (path errMessage : String)
  | linkStarted (process : Process)
  | dlopen (libPath : String) (opened : Bool)
  | linkRefused (callback : LinkFinishCallback)
  | linkFinished (callback : LinkFinishCallback) (status : ℤ) (libPath : String)
      (sourceFilePaths : List String) (errMessage : String)
  | linkTaskReset (status : ℤ)
  | host (event : HostEvent)

/-- The world the compiler lives in: the context it reads and the effects of its
callbacks. -/
structure Host (W : Type*) where
  context : W → LiveContext
  compileFinished : FinishCallback → ℤ → String → String → W → W × List HostEvent
  linkFinished : LinkFinishCallback → ℤ → String → List String → String → W → W × List HostEvent

/-- The answers the compiler gets during one call of `update`. The exit status of
a process comes with what it has written to the standard error stream; `dlopen`
gives the text of `dlerror` on failure. -/
structure Environment where
  exitStatus : String → Option (ℤ × String)
  linkExitStatus : Option (ℤ × String)
  dlerror : Option String
  undefinedSymbolNames : String → Finset String
  tellg : String → ℤ
  memoryRegions : List MemoryRegion
  runningOrder : Iteration String
  readyOrder : Iteration String
  symbolOrder : ℕ → Iteration String
  objectOrder : Iteration String

abbrev CompilerTrace := Trace Compiler Event

structure Session (W : Type*) where
  compiler : Compiler := {}
  world : W
  trace : CompilerTrace := []

namespace Session

variable {W : Type*}

def emit (e : Event) (s : Session W) : Session W :=
  { s with trace := (s.compiler, e) :: s.trace }

def addLog (severity : LogSeverity) (message : String) (s : Session W) : Session W :=
  s.emit (.log severity message)

def modify (f : Compiler → Compiler) (s : Session W) : Session W :=
  { s with compiler := f s.compiler }

/-- Call a callback: the call and then its effects are recorded. -/
def callback (e : Event) (effect : W → W × List HostEvent) (s : Session W) : Session W :=
  (effect s.world).2.foldl (fun s e => s.emit (.host e))
    { s.emit e with world := (effect s.world).1 }

@[simp] theorem emit_compiler (e : Event) (s : Session W) :
    (s.emit e).compiler = s.compiler := rfl

@[simp] theorem emit_world (e : Event) (s : Session W) : (s.emit e).world = s.world := rfl

@[simp] theorem emit_trace (e : Event) (s : Session W) :
    (s.emit e).trace = (s.compiler, e) :: s.trace := rfl

@[simp] theorem addLog_compiler (severity : LogSeverity) (message : String) (s : Session W) :
    (s.addLog severity message).compiler = s.compiler := rfl

@[simp] theorem addLog_world (severity : LogSeverity) (message : String) (s : Session W) :
    (s.addLog severity message).world = s.world := rfl

@[simp] theorem modify_compiler (f : Compiler → Compiler) (s : Session W) :
    (s.modify f).compiler = f s.compiler := rfl

@[simp] theorem modify_world (f : Compiler → Compiler) (s : Session W) :
    (s.modify f).world = s.world := rfl

@[simp] theorem modify_trace (f : Compiler → Compiler) (s : Session W) :
    (s.modify f).trace = s.trace := rfl

theorem foldl_emit_host_compiler (l : List HostEvent) (s : Session W) :
    (l.foldl (fun s e => s.emit (.host e)) s).compiler = s.compiler := by
  induction l generalizing s with
  | nil => rfl
  | cons e l ih => rw [List.foldl_cons, ih, emit_compiler]

theorem foldl_emit_host_world (l : List HostEvent) (s : Session W) :
    (l.foldl (fun s e => s.emit (.host e)) s).world = s.world := by
  induction l generalizing s with
  | nil => rfl
  | cons e l ih => rw [List.foldl_cons, ih, emit_world]

@[simp] theorem callback_world (e : Event) (effect : W → W × List HostEvent)
    (s : Session W) : (s.callback e effect).world = (effect s.world).1 := by
  rw [callback, foldl_emit_host_world]

@[simp] theorem callback_compiler (e : Event) (effect : W → W × List HostEvent)
    (s : Session W) : (s.callback e effect).compiler = s.compiler := by
  rw [callback, foldl_emit_host_compiler, emit_compiler]

end Session

end JetLive

import JetLive.Compiler.State
import JetLive.Live.Dependencies
import JetLive.Reload.Pipeline

/-!
# The state of the library

`LiveWorld` is what `Live` holds besides the compiler: the context, the files the
units come from, the file watcher, the event queue, and the memory and hooks of the
process it lives in. `Outside` has the answers that its operations get from the file
system, the loader and the listener; they are replaced at every step of a run.
-/

namespace JetLive

open Containers

/-- The events of the queue; log entries have a queue of their own. -/
inductive LiveEvent
  | fileChanged (filepath : String)
  | tryReload
  deriving DecidableEq, Repr

def LiveEvent.priority : LiveEvent → ℕ
  | .fileChanged _ => 20
  | .tryReload => 10

/-- An event of the file watcher that passed its filters. -/
structure FileEvent where
  directory : String
  filename : String
  deriving DecidableEq, Repr

structure CompileCommand where
  command : String
  directory : String
  file : String
  deriving DecidableEq, Repr

/-- What reading `compile_commands.json` gives; a malformed file throws. -/
inductive Database
  | unreadable
  | malformed
  | entries (commands : List CompileCommand)
  deriving DecidableEq, Repr

/-- The parameters found on a command after its expansion by the shell. -/
structure ParsedCommand where
  output : String := ""
  depFile : String := ""
  hasColorDiagnosticsFlag : Bool := false
  compilerPath : String := ""
  deriving DecidableEq, Repr

/-- The answers of the outside during one step. `parseCommand` gives nothing if the
expansion of the command fails. `referent` is the unit that a reference into the map of the
units refers to after the map has been assigned, when it may be any unit. -/
structure Outside where
  fs : FileSystem
  ls : String → List String
  database : String → Database
  parseCommand : String → Option ParsedCommand
  filterCompilationUnit : CompilationUnit → Bool
  xcodebuildStatus : ℤ
  loadedProgramsPaths : List String
  programSymbols : String → Symbols
  exportedSymbolNames : String → List String
  linkTimeRelocations : List String → List Relocation
  arch : Architecture
  patchStatus : ℕ → ℤ
  hookStatus : ℕ → ℤ
  dependentsOrder : Iteration String
  dependencyOrder : Iteration String
  unitOrder : Iteration String
  newUnitOrder : Iteration String
  readyOrder : Iteration String
  referent : String → String := id

/-- What `Live` holds. `draining` is set while `update` works on the event queue. The
file watcher is given by its events; `watches` are the directories passed to `addWatch` of
the current one. `readings` counts the assignments of the map of the units after the
initialization. -/
structure LiveWorld where
  outside : Outside
  memory : ProcessMemory
  context : LiveContext := {}
  compileCommandsPath : String := ""
  pbxProjPath : String := ""
  fileWatcher : Option (List FileEvent) := none
  watches : Finset String := ∅
  recreateFileWatcherAfterTicks : ℕ := 0
  events : List LiveEvent := []
  draining : Bool := false
  hooks : List Hook := []
  readings : ℕ := 0

namespace Session

variable {W : Type*}

/-- Record what happens outside of the compiler. -/
def emitHost (l : List HostEvent) (s : Session W) : Session W :=
  l.foldl (fun s e => s.emit (.host e)) s

def emitLogs (l : List LogEntry) (s : Session W) : Session W := s.emitHost (l.map .log)

def modifyWorld (f : W → W) (s : Session W) : Session W := { s with world := f s.world }

/-- Change the world and record what is logged on the way. -/
def act (f : W → W × List LogEntry) (s : Session W) : Session W :=
  (s.emitLogs (f s.world).2).modifyWorld fun _ => (f s.world).1

@[simp] theorem emitHost_compiler (l : List HostEvent) (s : Session W) :
    (s.emitHost l).compiler = s.compiler :=
  foldl_emit_host_compiler l s

@[simp] theorem emitHost_world (l : List HostEvent) (s : Session W) :
    (s.emitHost l).world = s.world :=
  foldl_emit_host_world l s

@[simp] theorem emitLogs_compiler (l : List LogEntry) (s : Session W) :
    (s.emitLogs l).compiler = s.compiler :=
  emitHost_compiler _ s

@[simp] theorem emitLogs_world (l : List LogEntry) (s : Session W) :
    (s.emitLogs l).world = s.world :=
  emitHost_world _ s

@[simp] theorem modifyWorld_compiler (f : W → W) (s : Session W) :
    (s.modifyWorld f).compiler = s.compiler := rfl

@[simp] theorem modifyWorld_world (f : W → W) (s : Session W) :
    (s.modifyWorld f).world = f s.world := rfl

@[simp] theorem act_compiler (f : W → W × List LogEntry) (s : Session W) :
    (s.act f).compiler = s.compiler :=
  emitHost_compiler _ s

@[simp] theorem act_world (f : W → W × List LogEntry) (s : Session W) :
    (s.act f).world = (f s.world).1 := rfl

end Session

end JetLive

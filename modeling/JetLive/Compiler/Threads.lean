import JetLive.Compiler.Run
import JetLive.Library.ChildProcess

/-!
# The threads of the compiler

Every compilation process comes with a thread that reads its standard error stream. Its
callback takes `m_mutex`, looks the task up by the path of the source and appends the bytes
to `errMessage`; the reader of the link process appends without the mutex and without
looking whether there is a task. `compile` and `remove` take the mutex too, and give it back
while they kill a running process, because destroying the process joins its reader. `update`
takes the mutex nowhere: it joins the reader of a process that has exited before it reads the
message of the task.

`Threads` is the state of all of this, with the position of the main thread inside of the
call it is at, and `Threads.Step` a step of one of the threads or of a process. The map of
the running tasks is also written without the mutex; every single access to it is taken to be
one step here.

`session` is the compiler as it was after the last call that has finished, so that the runs of
the threads can be compared with the runs of `Compiler/Run.lean`, where calls are atomic and
the messages are answers of the environment.
-/

namespace JetLive

open Containers ChildProcesses

/-- The calls that edit the collections of the compiler under the mutex. -/
inductive Edit
  | compile (cu : CompilationUnit) (finishCallback : FinishCallback)
  | remove (readyOrder : Iteration String) (compilationUnitPath : String)

namespace Edit

def path : Edit → String
  | .compile cu _ => cu.sourceFilePath
  | .remove _ compilationUnitPath => compilationUnitPath

def call : Edit → Call
  | .compile cu finishCallback => .compile cu finishCallback
  | .remove readyOrder compilationUnitPath => .remove readyOrder compilationUnitPath

end Edit

inductive MutexHolder
  | main
  | reader (pid : ℕ)
  deriving DecidableEq, Repr

/-- Where the main thread is. In `compile` and `remove` it waits for the mutex (`locking`),
looks for a running task (`locked`), kills its process (`killing`), waits for the reader of the
process, whose task is out of the map by then (`joining`), waits for the mutex again
(`relocking`) and edits the rest (`editing`). In `update` it polls the tasks under the keys that
are left (`polling`), waits for the reader of a process that has exited (`awaiting`), starts
processes (`starting`) and enters their tasks (`entering`), decides about linking
(`deciding`), stores the task of the link process (`installing`), polls it (`finishing`) and
waits for its reader (`awaitingLink`). The answers to `update` found so far are part of its
environment. -/
inductive MainThread (W : Type*)
  | idle
  | locking (edit : Edit)
  | locked (edit : Edit)
  | killing (edit : Edit) (pid : ℕ)
  | joining (edit : Edit) (pid : ℕ)
  | relocking (edit : Edit)
  | editing (edit : Edit)
  | polling (env : Environment) (keys : List String)
  | awaiting (env : Environment) (key : String) (pid : ℕ) (status : ℤ) (keys : List String)
  | starting (env : Environment) (t : Session W)
  | entering (env : Environment) (t : Session W) (pid : ℕ) (pendingTask : PendingCompilationTask)
  | deciding (env : Environment) (t : Session W)
  | installing (env : Environment) (t : Session W)
  | finishing (env : Environment) (t : Session W)
  | awaitingLink (env : Environment) (t : Session W) (status : ℤ)

namespace Environment

def unanswered (env : Environment) : Environment := { env with exitStatus := fun _ => none }

/-- The process of a task has exited. -/
def answer (key : String) (status : ℤ) (errMessage : String) (env : Environment) : Environment :=
  { env with exitStatus := Function.update env.exitStatus key (some (status, errMessage)) }

def withLink (answer : Option (ℤ × String)) (env : Environment) : Environment :=
  { env with linkExitStatus := answer }

end Environment

/-- What the threads see of a running task. -/
structure ProcessTask where
  process : ℕ
  errMessage : String := ""
  deriving DecidableEq, Repr

/-- The state of the threads. A process is known by the number of its start; `sources` is the
path that its callback has captured and `unheard` what its callback has dropped because there
was no task. `pastLinkers` are the link processes that have been reported, and `fault` is set
when the callback of the link process finds no task. -/
structure Threads (W : Type*) where
  session : Session W
  main : MainThread W := .idle
  mutex : Option MutexHolder := none
  runningCompilationTasks : UnorderedMap String ProcessTask := ∅
  started : ℕ := 0
  children : ℕ → Child := fun _ => .unborn
  sources : ℕ → String := fun _ => ""
  unheard : ℕ → String := fun _ => ""
  linker : Child := .unborn
  linkMessage : Option String := none
  pastLinkers : List Child := []
  fault : Bool := false

namespace Threads

variable {W : Type*}

def setChild (pid : ℕ) (child : Child) (s : Threads W) : Threads W :=
  { s with children := Function.update s.children pid child }

/-- What the callback of a compilation does with the bytes. -/
def hear (pid : ℕ) (bytes : String) (s : Threads W) : Threads W :=
  match s.runningCompilationTasks.lookup (s.sources pid) with
  | some task =>
      { s with
        runningCompilationTasks := s.runningCompilationTasks.insert (s.sources pid)
          { task with errMessage := task.errMessage ++ bytes } }
  | none => { s with unheard := Function.update s.unheard pid (s.unheard pid ++ bytes) }

inductive Background : Threads W → Threads W → Prop
  | child (s : Threads W) (pid : ℕ) (child' : Child) (h : Child.Step (s.children pid) child') :
      Background s (s.setChild pid child')
  | acquire (s : Threads W) (pid : ℕ) (bytes : String)
      (hreader : (s.children pid).reader = .calling bytes) (hfree : s.mutex = none) :
      Background s
        { s.setChild pid ((s.children pid).enter bytes) with mutex := some (.reader pid) }
  | deliver (s : Threads W) (pid : ℕ) (bytes : String)
      (hreader : (s.children pid).reader = .inside bytes) :
      Background s ((s.hear pid bytes).setChild pid ((s.children pid).deliver .leaving bytes))
  | release (s : Threads W) (pid : ℕ) (hreader : (s.children pid).reader = .leaving) :
      Background s { s.setChild pid (s.children pid).leave with mutex := none }
  | linker (s : Threads W) (child' : Child) (h : Child.Step s.linker child') :
      Background s { s with linker := child' }
  | deliverLink (s : Threads W) (bytes errMessage : String)
      (hreader : s.linker.reader = .calling bytes) (htask : s.linkMessage = some errMessage) :
      Background s
        { s with
          linker := s.linker.deliver .reading bytes
          linkMessage := some (errMessage ++ bytes) }
  | faultLink (s : Threads W) (bytes : String)
      (hreader : s.linker.reader = .calling bytes) (htask : s.linkMessage = none) :
      Background s { s with linker := s.linker.deliver .reading bytes, fault := true }

def StartsLink (host : Host W) (config : LiveConfig) (env : Environment) (t : Session W) : Prop :=
  t.compiler.isLinking = false ∧ (t.decideLink host config env).compiler.isLinking = true

def startOne (pendingTask : PendingCompilationTask) (t : Session W) : Session W :=
  (t.doCompile pendingTask.cu pendingTask.finishCallback).modify fun c =>
    { c with pendingCompilationTasks := c.pendingCompilationTasks.tail }

/-- The keys of the tasks that have ended, by the answers so far. -/
def tasksToRemove (env : Environment) (s : Threads W) : List String :=
  (env.runningOrder.toList s.runningCompilationTasks.keys).filter fun key =>
    (env.exitStatus key).isSome

inductive Main (host : Host W) (d : Discipline) : Threads W → Threads W → Prop
  | call (s : Threads W) (edit : Edit) (hmain : s.main = .idle)
      (hallowed : edit.call.Allowed d s.session.compiler) :
      Main host d s { s with main := .locking edit }
  | link (s : Threads W) (finishCallback : LinkFinishCallback) (hmain : s.main = .idle)
      (hallowed : (Call.link finishCallback).Allowed d s.session.compiler) :
      Main host d s { s with session := s.session.link finishCallback }
  | outside (s : Threads W) (w : W) (hmain : s.main = .idle) :
      Main host d s { s with session := { s.session with world := w } }
  | lock (s : Threads W) (edit : Edit) (hmain : s.main = .locking edit) (hfree : s.mutex = none) :
      Main host d s { s with main := .locked edit, mutex := some .main }
  | found (s : Threads W) (edit : Edit) (task : ProcessTask) (hmain : s.main = .locked edit)
      (htask : s.runningCompilationTasks.lookup edit.path = some task) :
      Main host d s { s with main := .killing edit task.process, mutex := none }
  | notFound (s : Threads W) (edit : Edit) (hmain : s.main = .locked edit)
      (htask : s.runningCompilationTasks.lookup edit.path = none) :
      Main host d s { s with main := .editing edit }
  | kill (s : Threads W) (edit : Edit) (pid : ℕ) (hmain : s.main = .killing edit pid) :
      Main host d s
        { s with
          main := .joining edit pid
          runningCompilationTasks := s.runningCompilationTasks.erase edit.path }
  | joined (s : Threads W) (edit : Edit) (pid : ℕ) (hmain : s.main = .joining edit pid)
      (hended : (s.children pid).reader = .ended) :
      Main host d s { s with main := .relocking edit }
  | relock (s : Threads W) (edit : Edit) (hmain : s.main = .relocking edit)
      (hfree : s.mutex = none) :
      Main host d s { s with main := .editing edit, mutex := some .main }
  | edit (s : Threads W) (edit : Edit) (hmain : s.main = .editing edit) :
      Main host d s
        { s with
          main := .idle
          mutex := none
          session := s.session.perform host d.config edit.call }
  | update (s : Threads W) (env : Environment) (hmain : s.main = .idle) :
      Main host d s
        { s with
          main := .polling env.unanswered
            (env.runningOrder.toList s.runningCompilationTasks.keys) }
  | pollRunning (s : Threads W) (env : Environment) (key : String) (keys : List String)
      (task : ProcessTask) (hmain : s.main = .polling env (key :: keys))
      (htask : s.runningCompilationTasks.lookup key = some task)
      (hexit : (s.children task.process).exitStatus = none) :
      Main host d s { s with main := .polling env keys }
  | pollExited (s : Threads W) (env : Environment) (key : String) (keys : List String)
      (task : ProcessTask) (status : ℤ) (hmain : s.main = .polling env (key :: keys))
      (htask : s.runningCompilationTasks.lookup key = some task)
      (hexit : (s.children task.process).exitStatus = some status) :
      Main host d s { s with main := .awaiting env key task.process status keys }
  | report (s : Threads W) (env : Environment) (key : String) (pid : ℕ) (status : ℤ)
      (keys : List String) (task : ProcessTask)
      (hmain : s.main = .awaiting env key pid status keys)
      (hended : (s.children pid).reader = .ended)
      (htask : s.runningCompilationTasks.lookup key = some task) :
      Main host d s
        { s with
          main := .polling (env.answer key status task.errMessage) keys }
  | sweep (s : Threads W) (env : Environment) (hmain : s.main = .polling env []) :
      Main host d s
        { s with
          main := .starting env (s.session.pollCompilations host env)
          runningCompilationTasks :=
            eraseAll s.runningCompilationTasks (s.tasksToRemove env) }
  | fork (s : Threads W) (env : Environment) (t : Session W)
      (pendingTask : PendingCompilationTask) (rest : List PendingCompilationTask)
      (hmain : s.main = .starting env t)
      (hpending : t.compiler.pendingCompilationTasks = pendingTask :: rest)
      (hcard : s.runningCompilationTasks.keys.card < d.config.workerThreadsCount) :
      Main host d s
        { s with
          main := .entering env t s.started pendingTask
          started := s.started + 1
          children := Function.update s.children s.started {}
          sources := Function.update s.sources s.started pendingTask.cu.sourceFilePath }
  | enter (s : Threads W) (env : Environment) (t : Session W) (pid : ℕ)
      (pendingTask : PendingCompilationTask) (hmain : s.main = .entering env t pid pendingTask) :
      Main host d s
        { s with
          main := .starting env (startOne pendingTask t)
          runningCompilationTasks := s.runningCompilationTasks.insert
            pendingTask.cu.sourceFilePath { process := pid } }
  | allStarted (s : Threads W) (env : Environment) (t : Session W)
      (hmain : s.main = .starting env t)
      (hdone : t.compiler.pendingCompilationTasks = [] ∨
        ¬ s.runningCompilationTasks.keys.card < d.config.workerThreadsCount) :
      Main host d s { s with main := .deciding env t }
  -- the calls of `compile` inside of `doLink` take the mutex as well
  | decide (s : Threads W) (env : Environment) (t : Session W) (hmain : s.main = .deciding env t)
      (hfree : s.mutex = none) (hlink : ¬ StartsLink host d.config env t) :
      Main host d s { s with main := .finishing env (t.decideLink host d.config env) }
  | forkLinker (s : Threads W) (env : Environment) (t : Session W)
      (hmain : s.main = .deciding env t) (hfree : s.mutex = none)
      (hlink : StartsLink host d.config env t) :
      Main host d s
        { s with main := .installing env (t.decideLink host d.config env), linker := {} }
  | install (s : Threads W) (env : Environment) (t : Session W)
      (hmain : s.main = .installing env t) :
      Main host d s { s with main := .finishing env t, linkMessage := some "" }
  | finish (s : Threads W) (env : Environment) (t : Session W)
      (hmain : s.main = .finishing env t)
      (hlink : t.compiler.isLinking = false ∨ s.linker.exitStatus = none) :
      Main host d s
        { s with
          main := .idle
          session := t.pollLink host (env.withLink none) }
  | pollLinker (s : Threads W) (env : Environment) (t : Session W) (status : ℤ)
      (hmain : s.main = .finishing env t) (hlink : t.compiler.isLinking = true)
      (hexit : s.linker.exitStatus = some status) :
      Main host d s { s with main := .awaitingLink env t status }
  | reportLink (s : Threads W) (env : Environment) (t : Session W) (status : ℤ)
      (errMessage : String) (hmain : s.main = .awaitingLink env t status)
      (hended : s.linker.reader = .ended) (htask : s.linkMessage = some errMessage) :
      Main host d s
        { s with
          main := .idle
          session := t.pollLink host (env.withLink (some (status, errMessage)))
          linkMessage := none
          pastLinkers := s.linker :: s.pastLinkers }

def Step (host : Host W) (d : Discipline) (s s' : Threads W) : Prop :=
  Main host d s s' ∨ Background s s'

end Threads

/-- The runs of the threads, up to the first fault. The owner of the compiler does not call
`link` while a link process is running. -/
inductive ThreadedRun {W : Type*} (host : Host W) (d : Discipline) : Threads W → Prop
  | start (w : W) (hlink : d.linkGuarded) : ThreadedRun host d { session := { world := w } }
  | step {s s' : Threads W} (h : ThreadedRun host d s) (hok : s.fault = false)
      (hstep : Threads.Step host d s s') : ThreadedRun host d s'

end JetLive

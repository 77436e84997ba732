import JetLive.Library.Locks
import JetLive.Library.PriorityQueue
import JetLive.Live.State

/-!
# The mutexes of the event queue

`AsyncEventQueue` has a queue of log entries and a queue of events, each behind a mutex of its own.
All its operations hold the mutex with a `lock_guard`. They are called by the main thread, by the
initialization thread and by whoever requests a reload; and with `reloadOnSignal` the handler of the
signal calls `tryReload`, on top of whatever the thread was doing that got the signal.

The mutexes are not recursive: a thread that waits for a mutex of its own waits forever. The handler
also allocates memory; the locks of the allocator are not modelled.
-/

namespace JetLive

open Containers Locks

inductive QueueMutex
  | logQueueMutex
  | queueMutex
  deriving DecidableEq, Repr

inductive QueueOperation
  | addLog (entry : LogEntry)
  | getLogEvent
  | popLogEvent
  | addEvent (event : LiveEvent)
  | getEvent
  | popEvent
  deriving DecidableEq, Repr

namespace QueueOperation

def mutex : QueueOperation → QueueMutex
  | .addLog _ | .getLogEvent | .popLogEvent => .logQueueMutex
  | .addEvent _ | .getEvent | .popEvent => .queueMutex

end QueueOperation

section

variable {Q : Type} (impl : PriorityQueue LiveEvent LiveEvent.priority Q)

/-- What a mutex protects. -/
def QueueMutex.Contents (Q : Type) : QueueMutex → Type
  | .logQueueMutex => List LogEntry
  | .queueMutex => Q

def asyncEventQueue : Guarded QueueOperation QueueMutex (QueueMutex.Contents Q) where
  lock := QueueOperation.mutex
  effect
    | .addLog entry, logQueue => List.concat logQueue entry
    | .getLogEvent, logQueue => logQueue
    | .popLogEvent, logQueue => List.tail logQueue
    | .addEvent event, queue => impl.push event queue
    | .getEvent, queue => queue
    | .popEvent, queue => (impl.top queue).elim queue fun _ => impl.pop queue

def emptyQueues : ∀ l, QueueMutex.Contents Q l
  | .logQueueMutex => ([] : List LogEntry)
  | .queueMutex => impl.empty

/-- `tryReload` and with it the handler of the signal. -/
def tryReloadOperations : List QueueOperation :=
  [.addLog (.log .kInfo "Trying to reload code..."), .addEvent .tryReload]

abbrev QueueRun {T : Type*} [DecidableEq T] (s : Machine (asyncEventQueue impl) T) : Prop :=
  Locks.Reached tryReloadOperations (emptyQueues impl) s

end

variable {Q : Type} {impl : PriorityQueue LiveEvent LiveEvent.priority Q} {T : Type*}
  [DecidableEq T] {s : Machine (asyncEventQueue impl) T}

theorem exists_tryReloadOperation (l : QueueMutex) :
    ∃ op ∈ tryReloadOperations, (asyncEventQueue impl).lock op = l := by
  cases l with
  | logQueueMutex => exact ⟨_, List.mem_cons_self, rfl⟩
  | queueMutex => exact ⟨.addEvent .tryReload, by simp [tryReloadOperations], rfl⟩

/-- **Signals and the mutexes**: whatever the order of the threads and the signals, each queue is
what the operations on it make of it one after another. All calls can come to their end if and only
if no signal has interrupted an operation in its critical section; if one has, then the mutex is
never free again. -/
theorem QueueRun.calls_can_end_iff (h : QueueRun impl s) :
    (∀ l, s.data l = (asyncEventQueue impl).apply l s.done (emptyQueues impl l)) ∧
      ((∀ t, ∃ s', Locks.Steps tryReloadOperations s s' ∧ s'.frames t = []) ↔
        ∀ t, ∀ f ∈ (s.frames t).tail, f.place.held = none) ∧
      ∀ t, ∀ f ∈ (s.frames t).tail, ∀ l, f.place.held = some l →
        ∀ s', Locks.Steps tryReloadOperations s s' → ¬ s'.Free l := by
  refine ⟨h.data_eq, h.exists_finished_iff exists_tryReloadOperation, ?_⟩
  intro t f hf l hheld s' hsteps hfree
  have hinterrupted := h.interrupted_of_held exists_tryReloadOperation hf hheld
  exact hfree t (h.interrupted_steps hinterrupted hsteps).2

/-- The main thread gets the signal while it adds an entry to the log. -/
theorem signal_in_addLog_never_ends :
    ∃ s : Machine (asyncEventQueue (PriorityQueue.list LiveEvent.priority)) Unit,
      QueueRun _ s ∧ ¬ ∀ t, ∃ s', Locks.Steps tryReloadOperations s s' ∧ s'.frames t = [] := by
  let ready : QueueOperation := .addLog (.log .kInfo "Ready")
  let impl := PriorityQueue.list LiveEvent.priority
  let s₀ : Machine (asyncEventQueue impl) Unit :=
    { data := emptyQueues impl, frames := fun _ => [] }
  have hcall : Locks.Step tryReloadOperations () s₀ _ := .call s₀ [ready] rfl
  have hacquire : Locks.Step tryReloadOperations () _ _ :=
    .acquire (s₀.setFrames () [{ place := .outside [ready] }]) false ready [] [] rfl
      (by simp [Machine.Free, Machine.heldBy])
  have hsignal : Locks.Step tryReloadOperations () _ _ :=
    .interrupt ((s₀.setFrames () [{ place := .outside [ready] }]).setFrames ()
      [⟨false, .inside ready (s₀.data _) []⟩]) (by simp)
  have hrun : QueueRun impl _ :=
    ((Relation.ReflTransGen.single ⟨(), hcall⟩).tail ⟨(), hacquire⟩).tail ⟨(), hsignal⟩
  refine ⟨_, hrun, fun hend => ?_⟩
  have hnone := hrun.calls_can_end_iff.2.1.mp hend () ⟨false, .inside ready (s₀.data _) []⟩
    (by simp)
  simp at hnone

end JetLive

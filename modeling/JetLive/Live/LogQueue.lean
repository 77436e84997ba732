import JetLive.Compiler.Delivery
import JetLive.Live.Gate

/-!
# The queue of log entries

Log entries are not handed to the listener when they are added. They wait in a queue, and every call
of `update` begins with a loop that passes the first one to `onLog` and pops it, until the queue is
empty. The initialization thread adds its entries meanwhile, and so do requests for reloads from
other threads. An exception of the listener ends the call of `update`; then the entry stays in the
queue and is passed again.

The trace of the library has the entries in the order in which they are added, but for requests
during the initialization, which come first in the queue and last in the trace
(`StartupRun.serialises`). A `LoggedRun` is the library together with the queue, from the
constructor on; in each of its states the calls of the listener that returned have passed a first
part of the entries.
-/

namespace JetLive

def Event.logEntry : Event → Option LogEntry
  | .log severity message => some (.log severity message)
  | .host (.log entry) => some entry
  | .compile _ | .remove _ | .link | .compileStarted .. | .compileFinished .. | .linkStarted _
  | .dlopen .. | .linkRefused _ | .linkFinished .. | .linkTaskReset _ | .host _ => none

/-- The log entries that were added, the first one first. -/
def Live.logs (s : Live) : List LogEntry := s.trace.reverse.filterMap fun x => x.2.logEntry

inductive LogPhase
  | outside
  | looking
  | hearing (entry : LogEntry)
  | popping
  deriving DecidableEq, Repr

structure Logged where
  /-- The library as it is when the initialization is through. -/
  live : Live
  /-- The entries that the initialization thread has not added yet. -/
  initializing : List LogEntry
  joined : Bool := false
  logQueue : List LogEntry
  phase : LogPhase := .outside
  added : List LogEntry
  /-- The entries of the calls of `onLog`, and whether the calls returned. -/
  passed : List (LogEntry × Bool) := []

inductive LoggedCall
  | live (call : LiveCall)
  | addInitial
  | join
  | beginUpdate
  | getLogEvent
  | onLog
  | onLogThrows
  | popLogEvent

def initializingEntry : LogEntry := .log .kInfo "Initializing..."

def readyEntry : LogEntry := .log .kInfo "Ready"

namespace Logged

/-- What the listener has heard to the end. -/
def heard (s : Logged) : List LogEntry := (s.passed.filter (·.2)).map Prod.fst

/-- Watcher and reload requests come at any time, everything else in the order of `update`, which
does nothing but hand out entries before the initialization thread is joined. -/
def Allows (s : Logged) : LoggedCall → Prop
  | .live (.fileAction directory filename) => s.live.Allows (.fileAction directory filename)
  | .live .tryReload | .live (.write _) => True
  | .live call => s.phase = .outside ∧ s.joined = true ∧ s.live.Allows call
  | .addInitial => s.initializing ≠ []
  | .join => s.phase = .outside ∧ s.joined = false ∧ s.initializing = []
  | .beginUpdate => s.phase = .outside ∧ s.live.world.draining = false
  | .getLogEvent => s.phase = .looking
  | .onLog | .onLogThrows => ∃ entry, s.phase = .hearing entry
  | .popLogEvent => s.phase = .popping

def addLogs (entries : List LogEntry) (s : Logged) : Logged :=
  { s with logQueue := s.logQueue ++ entries, added := s.added ++ entries }

def getLogEvent (s : Logged) : Logged :=
  match s.logQueue with
  | [] => { s with phase := .outside }
  | entry :: _ => { s with phase := .hearing entry }

def onLog (returns : Bool) (s : Logged) : Logged :=
  match s.phase with
  | .hearing entry =>
      { s with
        phase := if returns then .popping else .outside
        passed := s.passed ++ [(entry, returns)] }
  | _ => s

/-- The entries that the call adds to the trace are added to the queue. -/
def performLive (config : LiveConfig) (call : LiveCall) (s : Logged) : Logged :=
  let live := s.live.perform config call
  { s.addLogs (live.logs.drop s.live.logs.length) with live }

def perform (config : LiveConfig) (s : Logged) : LoggedCall → Logged
  | .live call => s.performLive config call
  | .addInitial => { s.addLogs (s.initializing.take 1) with initializing := s.initializing.tail }
  | .join => { s.addLogs [readyEntry] with joined := true }
  | .beginUpdate => { s with phase := .looking }
  | .getLogEvent => s.getLogEvent
  | .onLog => s.onLog true
  | .onLogThrows => s.onLog false
  | .popLogEvent => { s with phase := .looking, logQueue := s.logQueue.tail }

/-- The entries that the listener will hear. -/
def waiting (s : Logged) : List LogEntry :=
  match s.phase with
  | .popping => s.logQueue.tail
  | .outside | .looking | .hearing _ => s.logQueue

end Logged

/-- The runs of the library with its queue of log entries, from the end of the constructor on. -/
inductive LoggedRun (config : LiveConfig) : Logged → Prop
  | start {s : Live} (filepath : String) (out : Outside) (memory : ProcessMemory)
      (hs : Live.create config filepath out memory = some s) :
      LoggedRun config
        { live := s
          initializing := s.logs
          logQueue := [initializingEntry]
          added := [initializingEntry] }
  | call {s : Logged} (h : LoggedRun config s) (call : LoggedCall) (hallowed : s.Allows call) :
      LoggedRun config (s.perform config call)

/-! ## The trace grows -/

/-- An allowed call of the library takes small steps. -/
theorem LiveRun.perform_steps {config : LiveConfig} {P : Live → LiveCall → Prop} {s : Live}
    (h : LiveRun config P s) {call : LiveCall} (hallowed : s.Allows call) :
    Steps (.gated config) s.core (s.perform config call).core := by
  obtain ⟨hreached, hgated⟩ := h.reached_gated
  cases call with
  | fileAction directory filename => exact .refl
  | tryReload => exact Session.foldl_host_steps _ s
  | write memory => exact .refl
  | tick out env =>
      have htick := Live.tickFileWatcher_steps (d := .gated config) config (s.ask out)
      have hbefore : Reached (.gated config) _ _ := hreached.trans htick
      exact htick.trans
        (Session.update_steps Live.host env _ hbefore.coherent.running.key hbefore.exclusive)
  | dispatch out event =>
      obtain ⟨hdraining, hevent, htop⟩ := hallowed
      have hasked : (s.ask out).Gated (.gated config) := hgated
      cases event with
      | fileChanged filepath => exact (Live.dispatch_fileChanged config hasked hdraining hevent).1
      | tryReload => exact (Live.dispatch_tryReload config hasked hdraining htop).1
  | finish => exact .refl

theorem Live.logs_of_suffix {s s' : Live} (h : s.trace <:+ s'.trace) : s.logs <+: s'.logs := by
  obtain ⟨u, hu⟩ := h
  rw [Live.logs, Live.logs, ← hu, List.reverse_append, List.filterMap_append]
  exact List.prefix_append _ _

/-! ## The queue -/

namespace Logged

variable {config : LiveConfig} {s : Logged}

/-- An entry is passed again if the call with it has thrown. -/
def Repeats (call next : LogEntry × Bool) : Prop := call.2 = false → next.1 = call.1

/-- The entry that is heard is the first one of the queue, and nothing is lost. -/
structure Ordered (s : Logged) : Prop where
  added_eq : s.added = s.heard ++ s.waiting
  hearing : ∀ entry, s.phase = .hearing entry → s.logQueue.head? = some entry
  popping : s.phase = .popping → s.logQueue ≠ [] ∧ ∀ call ∈ s.passed.getLast?, call.2 = true
  thrown : ∀ call ∈ s.passed.getLast?, call.2 = false → s.logQueue.head? = some call.1
  repeats : s.passed.IsChain Repeats

theorem waiting_addLogs (hs : s.phase = .popping → s.logQueue ≠ []) (entries : List LogEntry) :
    (s.addLogs entries).waiting = s.waiting ++ entries := by
  unfold waiting addLogs
  cases hphase : s.phase with
  | popping => exact List.tail_append_of_ne_nil (hs hphase)
  | outside | looking | hearing entry => rfl

theorem heard_concat (entry : LogEntry) (returns : Bool) :
    (({ s with passed := s.passed ++ [(entry, returns)] } : Logged).heard) =
      s.heard ++ if returns then [entry] else [] := by
  cases returns <;> simp [heard]

namespace Ordered

theorem addLogs (hs : s.Ordered) (entries : List LogEntry) : (s.addLogs entries).Ordered where
  added_eq := by
    rw [waiting_addLogs fun hphase => (hs.popping hphase).1, ← List.append_assoc]
    exact congrArg (· ++ entries) hs.added_eq
  hearing entry hphase := by
    have hhead := hs.hearing entry hphase
    simp [Logged.addLogs, List.head?_append, hhead]
  popping hphase := by
    obtain ⟨hne, hlast⟩ := hs.popping hphase
    exact ⟨by simp [Logged.addLogs, hne], hlast⟩
  thrown call hcall hthrown := by
    have hhead := hs.thrown call hcall hthrown
    simp [Logged.addLogs, List.head?_append, hhead]
  repeats := hs.repeats

/-- Only the queue, the listener and the loop count. -/
theorem withLive (hs : s.Ordered) (live : Live) (initializing : List LogEntry) (joined : Bool) :
    ({ s with live, initializing, joined } : Logged).Ordered :=
  ⟨hs.added_eq, hs.hearing, hs.popping, hs.thrown, hs.repeats⟩

/-- The listener is called with the first entry of the queue. -/
theorem onLog {entry : LogEntry} (hs : s.Ordered) (hphase : s.phase = .hearing entry)
    (returns : Bool) : (s.onLog returns).Ordered := by
  have hhead := hs.hearing entry hphase
  obtain ⟨rest, hqueue⟩ := List.head?_eq_some_iff.mp hhead
  have hadded := hs.added_eq
  rw [waiting, hphase] at hadded
  rw [Logged.onLog, hphase]
  refine ⟨?_, by cases returns <;> simp, fun hpopping => ⟨by simp [hqueue], ?_⟩, ?_, ?_⟩
  · have hheard := heard_concat (s := s) entry returns
    simp only [heard, waiting] at hadded hheard ⊢
    rw [hheard, hadded, hqueue]
    cases returns <;> simp
  · cases returns with
    | true => simp
    | false => cases hpopping
  · simp [hhead]
  · refine hs.repeats.append (List.isChain_singleton _) fun call hcall next hnext hthrown => ?_
    -- the entry of a call that has thrown is still the first one
    obtain rfl : next = (entry, returns) := by simpa using hnext.symm
    have hsame := hs.thrown call hcall hthrown
    rw [hhead] at hsame
    exact Option.some.inj hsame

theorem perform (hs : s.Ordered) {call : LoggedCall} (hallowed : s.Allows call) :
    (s.perform config call).Ordered := by
  cases call with
  | live call =>
      have hadded := hs.addLogs ((s.live.perform config call).logs.drop s.live.logs.length)
      exact hadded.withLive (s.live.perform config call) s.initializing s.joined
  | addInitial =>
      exact (hs.addLogs (s.initializing.take 1)).withLive s.live s.initializing.tail s.joined
  | join => exact (hs.addLogs [readyEntry]).withLive s.live s.initializing true
  | beginUpdate =>
      have hadded := hs.added_eq
      rw [waiting, show s.phase = .outside from hallowed.1] at hadded
      exact ⟨hadded, by simp [Logged.perform], by simp [Logged.perform], hs.thrown, hs.repeats⟩
  | getLogEvent =>
      have hadded := hs.added_eq
      rw [waiting, show s.phase = .looking from hallowed] at hadded
      rw [Logged.perform]
      cases hqueue : s.logQueue with
      | nil =>
          have hget : s.getLogEvent = { s with phase := .outside } := by
            simp [Logged.getLogEvent, hqueue]
          rw [hget]
          exact ⟨hadded, by simp, by simp, hs.thrown, hs.repeats⟩
      | cons entry rest =>
          have hget : s.getLogEvent = { s with phase := .hearing entry } := by
            simp [Logged.getLogEvent, hqueue]
          rw [hget]
          refine ⟨hadded, ?_, by simp, hs.thrown, hs.repeats⟩
          rintro _ ⟨rfl⟩
          simp [hqueue]
  | onLog =>
      obtain ⟨entry, hphase⟩ := hallowed
      exact hs.onLog hphase true
  | onLogThrows =>
      obtain ⟨entry, hphase⟩ := hallowed
      exact hs.onLog hphase false
  | popLogEvent =>
      have hphase : s.phase = .popping := hallowed
      have hadded := hs.added_eq
      rw [waiting, hphase] at hadded
      refine ⟨hadded, by simp [Logged.perform], by simp [Logged.perform], ?_, hs.repeats⟩
      intro call hcall hthrown
      rw [(hs.popping hphase).2 call hcall] at hthrown
      cases hthrown

end Ordered

/-- The entries that were added, or will be by the initialization, are those of the library with one
before and one after the initialization. -/
structure Complete (s : Logged) : Prop where
  first : s.added.head? = some initializingEntry
  perm : (s.added ++ s.initializing).Perm
    (initializingEntry :: (if s.joined then [readyEntry] else []) ++ s.live.logs)

namespace Complete

theorem head?_append (hs : s.Complete) (entries : List LogEntry) :
    (s.added ++ entries).head? = some initializingEntry := by
  rw [List.head?_append, hs.first]
  rfl

theorem performLive (hs : s.Complete) {call : LiveCall} {new : List LogEntry}
    (hnew : s.live.logs ++ new = (s.live.perform config call).logs) :
    (s.performLive config call).Complete := by
  have hlogs : (s.live.perform config call).logs.drop s.live.logs.length = new := by
    rw [← hnew, List.drop_left]
  refine ⟨hs.head?_append _, ?_⟩
  change ((s.added ++ (s.live.perform config call).logs.drop s.live.logs.length) ++
    s.initializing).Perm (initializingEntry :: (if s.joined then [readyEntry] else []) ++
      (s.live.perform config call).logs)
  rw [hlogs, ← hnew, ← List.append_assoc]
  refine List.Perm.trans ?_ (hs.perm.append_right new)
  rw [List.append_assoc, List.append_assoc]
  exact List.perm_append_comm.append_left _

theorem addInitial (hs : s.Complete) : (s.perform config .addInitial).Complete := by
  refine ⟨hs.head?_append _, ?_⟩
  have hsame : s.added ++ s.initializing.take 1 ++ s.initializing.tail =
      s.added ++ s.initializing := by
    rw [List.append_assoc, ← List.drop_one, List.take_append_drop]
  exact hsame ▸ hs.perm

theorem join (hs : s.Complete) (hallowed : s.Allows .join) : (s.perform config .join).Complete := by
  obtain ⟨_, hjoined, hinitializing⟩ := hallowed
  have hperm := hs.perm
  rw [hjoined, hinitializing, List.append_nil] at hperm
  refine ⟨hs.head?_append _, ?_⟩
  change ((s.added ++ [readyEntry]) ++ s.initializing).Perm
    (initializingEntry :: [readyEntry] ++ s.live.logs)
  rw [hinitializing, List.append_nil]
  refine (hperm.append_right [readyEntry]).trans ?_
  exact (List.perm_append_comm : (s.live.logs ++ [readyEntry]).Perm _).cons _

end Complete

end Logged

namespace LoggedRun

open Logged

variable {config : LiveConfig} {s : Logged}

theorem ordered (h : LoggedRun config s) : s.Ordered := by
  induction h with
  | start filepath out memory hs => exact ⟨rfl, by simp, by simp, by simp, .nil⟩
  | call _ call hallowed ih => exact ih.perform hallowed

theorem allows_live {call : LiveCall} (hallowed : s.Allows (.live call)) :
    s.live.Allows call := by
  cases call with
  | fileAction directory filename => exact hallowed
  | tryReload | write memory => trivial
  | tick out env => exact hallowed.2.2
  | dispatch out event => exact hallowed.2.2
  | finish => exact hallowed.2.2

/-- The library runs as it does without the queue, and no entry is left out. -/
theorem complete (h : LoggedRun config s) :
    LiveRun config (fun _ _ => True) s.live ∧ s.Complete := by
  induction h with
  | start filepath out memory hs => exact ⟨.start filepath out memory hs, rfl, .refl _⟩
  | @call s _ call hallowed ih =>
      obtain ⟨hrun, hcomplete⟩ := ih
      cases call with
      | live call =>
          have hcall := allows_live hallowed
          obtain ⟨new, hnew⟩ := Live.logs_of_suffix (hrun.perform_steps hcall).suffix
          exact ⟨hrun.call call hcall trivial, hcomplete.performLive hnew⟩
      | addInitial => exact ⟨hrun, hcomplete.addInitial⟩
      | join => exact ⟨hrun, hcomplete.join hallowed⟩
      | getLogEvent =>
          have hsame : s.getLogEvent = { s with phase := s.getLogEvent.phase } := by
            unfold Logged.getLogEvent
            split <;> rfl
          rw [Logged.perform, hsame]
          exact ⟨hrun, hcomplete.first, hcomplete.perm⟩
      | onLog | onLogThrows =>
          obtain ⟨entry, hphase⟩ := hallowed
          rw [Logged.perform, Logged.onLog, hphase]
          exact ⟨hrun, hcomplete.first, hcomplete.perm⟩
      | beginUpdate | popLogEvent => exact ⟨hrun, hcomplete.first, hcomplete.perm⟩

/-- **The listener hears every log entry in order**: in each state the calls of `onLog` that
returned have passed a first part of the entries that were added, and all of them when `update`
finds the queue empty. An entry whose call has thrown is passed again. The entries are those of
the library, with one before and one right after the initialization. -/
theorem heard_in_order (h : LoggedRun config s) :
    s.heard <+: s.added ∧ (s.phase = .looking → s.logQueue = [] → s.heard = s.added) ∧
      s.passed.IsChain Repeats ∧ LiveRun config (fun _ _ => True) s.live ∧ s.Complete := by
  have hordered := h.ordered
  refine ⟨?_, ?_, hordered.repeats, h.complete⟩
  · rw [hordered.added_eq]
    exact List.prefix_append _ _
  · intro hphase hempty
    rw [hordered.added_eq, Logged.waiting, hphase]
    simp [hempty]

end LoggedRun

/-! ## A run -/

namespace Logged

instance (phase : LogPhase) : Decidable (∃ entry, phase = .hearing entry) :=
  match phase with
  | .hearing entry => isTrue ⟨entry, rfl⟩
  | .outside | .looking | .popping => isFalse (by simp)

instance (s : Logged) : ∀ call, Decidable (s.Allows call)
  | .live (.fileAction directory filename) =>
      inferInstanceAs (Decidable (s.live.Allows (.fileAction directory filename)))
  | .live .tryReload | .live (.write _) => isTrue trivial
  | .live (.tick ..) | .live (.dispatch ..) | .live .finish | .join =>
      inferInstanceAs (Decidable (_ ∧ _ ∧ _))
  | .addInitial => inferInstanceAs (Decidable (_ ≠ _))
  | .beginUpdate => inferInstanceAs (Decidable (_ ∧ _))
  | .getLogEvent | .popLogEvent => inferInstanceAs (Decidable (_ = _))
  | .onLog | .onLogThrows => inferInstanceAs (Decidable (∃ entry, s.phase = .hearing entry))

def AllowsAll : Logged → List LoggedCall → Prop
  | _, [] => True
  | s, call :: calls => s.Allows call ∧ AllowsAll (s.perform {} call) calls

instance : ∀ (calls : List LoggedCall) (s : Logged), Decidable (AllowsAll s calls)
  | [], _ => isTrue trivial
  | call :: calls, s =>
      have := instDecidableAllowsAll calls (s.perform {} call)
      inferInstanceAs (Decidable (_ ∧ _))

end Logged

theorem LoggedRun.calls {s : Logged} (h : LoggedRun {} s) (calls : List LoggedCall)
    (hcalls : s.AllowsAll calls) : LoggedRun {} (calls.foldl (Logged.perform {}) s) := by
  induction calls generalizing s with
  | nil => exact h
  | cons call calls ih => exact ih (h.call call hcalls.1) hcalls.2

def createdLogged : Logged :=
  let live := Live.started twoUnits
  { live
    initializing := live.logs
    logQueue := [initializingEntry]
    added := [initializingEntry] }

/-- The initialization adds an entry while the first one is handed out. A reload is requested, and
the listener throws. -/
def requestedCalls : List LoggedCall :=
  [.beginUpdate, .getLogEvent, .addInitial, .live .tryReload, .onLogThrows, .beginUpdate,
    .getLogEvent, .onLog, .popLogEvent, .getLogEvent, .onLog, .popLogEvent, .getLogEvent, .onLog,
    .popLogEvent]

def requestedLogged : Logged := requestedCalls.foldl (Logged.perform {}) createdLogged

theorem requestedLogged_heard :
    requestedLogged.heard = requestedLogged.added ∧
      requestedLogged.passed =
        [(initializingEntry, false), (initializingEntry, true),
          (.log .kDebug "Parsing compilation commands...", true),
          (.log .kInfo "Trying to reload code...", true)] ∧
      requestedLogged.passed.IsChain Logged.Repeats := by
  have hrun : LoggedRun {} requestedLogged :=
    LoggedRun.calls (.start _ _ _ (Live.create_started twoUnits)) _ (by decide +kernel)
  obtain ⟨_, hall, hrepeats, _⟩ := hrun.heard_in_order
  exact ⟨hall (by decide +kernel) (by decide +kernel), by decide +kernel, hrepeats⟩

end JetLive

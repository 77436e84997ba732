import JetLive.Library.PriorityQueue
import JetLive.Live.FileEvents

/-!
# The event queue

The queue of events is a `std::priority_queue` behind a mutex, of which only the laws of a
priority queue are assumed. `update` takes the next event with `getEvent`, handles it and
calls `popEvent`; the mutex is free in between, so a request of a reload can come at any
moment. Every event is handled exactly once nevertheless, because requests of reloads have
the lowest priority.

The runs of the library choose among the events of the highest priority. A `QueuedRun` is the
library together with its queue, and it is a run of both (`QueuedRun.refines`).
-/

namespace JetLive

open Containers

/-- An event in the queue, where the number tells apart events that say the same. -/
structure QueuedEvent where
  id : ℕ
  event : LiveEvent
  deriving DecidableEq

namespace QueuedEvent

def priority (e : QueuedEvent) : ℕ := e.event.priority

/-- The events that can be added while the queue is worked on. -/
def Late (e : QueuedEvent) : Prop := e.event = .tryReload

instance : DecidablePred Late := fun e => inferInstanceAs (Decidable (e.event = _))

theorem priority_le_of_late (a b : QueuedEvent) (hb : b.Late) : b.priority ≤ a.priority := by
  unfold priority
  rw [show b.event = .tryReload from hb]
  cases a.event with
  | fileChanged filepath => simp [LiveEvent.priority]
  | tryReload => exact le_rfl

/-- Only another request of a reload has at most the priority of one. -/
theorem late_of_priority_le {a b : QueuedEvent} (ha : a.Late) (h : b.priority ≤ a.priority) :
    b.Late := by
  unfold priority at h
  rw [show a.event = .tryReload from ha] at h
  unfold Late
  cases hb : b.event with
  | fileChanged filepath => simp [hb, LiveEvent.priority] at h
  | tryReload => rfl

end QueuedEvent

abbrev EventQueue (Q : Type*) := PriorityQueue QueuedEvent QueuedEvent.priority Q

/-- The runs of the queue: file events are added before `update` works on it, requests of
reloads at any time. -/
abbrev EventRun {Q : Type*} (impl : EventQueue Q) : Drain QueuedEvent Q → Prop :=
  DrainRun impl QueuedEvent.Late

/-- An event that is popped is the one that `getEvent` has returned and that was handled, so
every event is handled exactly once or still waiting; and no file event is handled after a
request of a reload. -/
theorem EventRun.handled_exactly_once {Q : Type*} {impl : EventQueue Q}
    {d : Drain QueuedEvent Q} (h : EventRun impl d) :
    (∀ e, d.phase = .popping e → e ∈ d.handled ∧ impl.top d.queue = some e ∧
      e ::ₘ impl.contents (d.pop impl).queue = impl.contents d.queue) ∧
    (∀ e ∈ d.pushed,
      (d.handled.count e = 1 ∧ (e ∈ impl.contents d.queue ↔ d.phase = .popping e)) ∨
        (d.handled.count e = 0 ∧ (impl.contents d.queue).count e = 1)) ∧
    d.handled ⊆ d.pushed ∧
    d.round.Pairwise fun a b => a.event = .tryReload → b.event = .tryReload := by
  have hd := h.orderly QueuedEvent.priority_le_of_late
  refine ⟨?_, fun e he => hd.handled_once he, hd.handled_subset, ?_⟩
  · intro e hphase
    have htop := hd.top_of_popping hphase
    refine ⟨?_, htop, ?_⟩
    · rw [hd.handled_eq, hphase]
      exact List.mem_append_right _ (List.mem_singleton_self e)
    · rw [hd.pop_eq hphase]
      exact impl.contents_pop e d.queue htop
  · refine hd.round_sorted.imp ?_
    intro a b hle ha
    exact QueuedEvent.late_of_priority_le ha hle

/-- A file is edited while a reload is waiting, and another reload is requested while the
edit is handled. -/
def interleavedDrain : Drain QueuedEvent (List QueuedEvent) :=
  [.push ⟨0, .tryReload⟩, .push ⟨1, .fileChanged "/p/a.cpp"⟩, .start, .look,
    .push ⟨2, .tryReload⟩, .complete].foldl
      (Drain.perform (PriorityQueue.list QueuedEvent.priority)) { queue := [] }

theorem interleavedDrain_handled_exactly_once :
    interleavedDrain.phase = .popping ⟨1, .fileChanged "/p/a.cpp"⟩ ∧
      (PriorityQueue.list QueuedEvent.priority).top interleavedDrain.queue =
        some ⟨1, .fileChanged "/p/a.cpp"⟩ := by
  let impl : EventQueue (List QueuedEvent) := PriorityQueue.list QueuedEvent.priority
  have hpushed : EventRun impl _ := DrainRun.start.call (.push ⟨0, .tryReload⟩)
    ⟨by decide, by decide⟩
  have hpushed' := hpushed.call (.push ⟨1, .fileChanged "/p/a.cpp"⟩) ⟨by decide, by decide⟩
  have hlooked := (hpushed'.call .start rfl).call .look rfl
  have hpushed'' := hlooked.call (.push ⟨2, .tryReload⟩) ⟨by decide, by decide⟩
  have hrun : EventRun impl interleavedDrain := hpushed''.call .complete ⟨_, rfl⟩
  exact ⟨by decide, (hrun.handled_exactly_once.1 _ (by decide)).2.1⟩

/-! ## The library with its queue -/

def LiveWorld.watcherEvents (w : LiveWorld) : List LiveEvent :=
  (w.fileWatcher.getD []).map fun event => .fileChanged (event.directory ++ event.filename)

structure Queued (Q : Type*) where
  live : Live
  drain : Drain QueuedEvent Q

/-- What can happen, with the work on the queue in parts. -/
inductive QueuedCall
  | fileAction (directory filename : String)
  | tryReload
  | write (memory : ProcessMemory)
  | tick (out : Outside) (env : Environment)
  | getEvent
  | handleEvent (out : Outside)
  | popEvent

namespace Queued

variable {Q : Type*} (impl : EventQueue Q) (config : LiveConfig)

/-- Watcher and reload requests come at any time, everything else in the order of `update`. -/
def Allows (s : Queued Q) : QueuedCall → Prop
  | .fileAction directory filename => s.live.Allows (.fileAction directory filename)
  | .tryReload | .write _ => True
  | .tick .. => s.drain.phase = .idle
  | .getEvent => s.drain.phase = .looking
  | .handleEvent _ => ∃ e, s.drain.phase = .handling e
  | .popEvent => ∃ e, s.drain.phase = .popping e

def addEvent (d : Drain QueuedEvent Q) (event : LiveEvent) : Drain QueuedEvent Q :=
  d.perform impl (.push ⟨d.pushed.length, event⟩)

/-- `update` up to the event queue. -/
def tick (out : Outside) (env : Environment) (s : Queued Q) : Queued Q :=
  let live := (s.live.ask out).poll config env
  let events := ((s.live.ask out).act (Live.recreateFileWatcher config)).world.watcherEvents
  let drain := events.foldl (addEvent impl) s.drain
  ⟨live, if live.world.draining then drain.perform impl .start else drain⟩

/-- The work on the queue ends when there is no event. -/
def getEvent (s : Queued Q) : Queued Q :=
  match impl.top s.drain.queue with
  | none => ⟨s.live.perform config .finish, s.drain.look impl⟩
  | some _ => ⟨s.live, s.drain.look impl⟩

/-- An exception ends the call of `update`. -/
def handleEvent (out : Outside) (s : Queued Q) : Queued Q :=
  match s.drain.phase with
  | .handling e =>
      let live := (s.live.ask out).dispatch config e.event
      ⟨live, s.drain.perform impl (if live.world.draining then .complete else .abort)⟩
  | _ => s

def perform (s : Queued Q) : QueuedCall → Queued Q
  | .fileAction directory filename => { s with live := s.live.fileAction directory filename }
  | .tryReload => ⟨s.live.tryReload, addEvent impl s.drain .tryReload⟩
  | .write memory => { s with live := s.live.perform config (.write memory) }
  | .tick out env => s.tick impl config out env
  | .getEvent => s.getEvent impl config
  | .handleEvent out => s.handleEvent impl config out
  | .popEvent => { s with drain := s.drain.pop impl }

end Queued

inductive QueuedRun {Q : Type*} (impl : EventQueue Q) (config : LiveConfig) : Queued Q → Prop
  | start {s : Live} (filepath : String) (out : Outside) (memory : ProcessMemory)
      (hs : Live.create config filepath out memory = some s) :
      QueuedRun impl config ⟨s, { queue := impl.empty }⟩
  | call {s : Queued Q} (h : QueuedRun impl config s) (call : QueuedCall)
      (hallowed : s.Allows call) : QueuedRun impl config (s.perform impl config call)

namespace Live

variable {config : LiveConfig} {s : Live}

/-- An event leaves the queue, or an exception ends the work on it. -/
theorem dispatch_queue (config : LiveConfig) {d : Discipline} (hs : Idle d s)
    (event : LiveEvent) :
    ((s.dispatch config event).world.events = s.world.events.erase event ∧
      (s.dispatch config event).world.draining = s.world.draining) ∨
    ((s.dispatch config event).world.events = s.world.events ∧
      (s.dispatch config event).world.draining = false) := by
  cases event with
  | fileChanged filepath =>
      have hedits := onFileChanged_edits config filepath s hs
      rcases dispatch_fileChanged_cases config filepath s with ⟨_, h⟩ | ⟨_, h⟩
      · rw [h]
        exact Or.inl ⟨congrArg (List.erase · _) hedits.events, hedits.draining⟩
      · rw [h]
        exact Or.inr ⟨hedits.events, rfl⟩
  | tryReload => exact Or.inl ⟨rfl, rfl⟩

theorem poll_events (env : Environment) (s : Live) :
    (s.poll config env).world.events =
      s.world.events ++ (s.act (recreateFileWatcher config)).world.watcherEvents := by
  rw [poll_eq, (sameEvents_updateCompiler env _).events]
  unfold updateFileWatcher
  rw [Session.modifyWorld_world]
  have hevents : (s.act (recreateFileWatcher config)).world.events = s.world.events := by
    rw [Session.act_world]
    unfold recreateFileWatcher
    dsimp only
    split <;> rfl
  rw [← hevents]
  rfl

end Live

namespace Queued

variable {Q : Type*} {impl : EventQueue Q} {config : LiveConfig} {s : Queued Q}
  {d : Drain QueuedEvent Q}

def waiting (impl : EventQueue Q) (d : Drain QueuedEvent Q) : Multiset LiveEvent :=
  (impl.contents d.queue).map QueuedEvent.event

/-- The numbers of the events are used up in turn. -/
def Numbered (d : Drain QueuedEvent Q) : Prop := ∀ e ∈ d.pushed, e.id < d.pushed.length

theorem waiting_addEvent (event : LiveEvent) :
    waiting impl (addEvent impl d event) = event ::ₘ waiting impl d := by
  unfold waiting addEvent
  exact (congrArg _ (impl.contents_push _ d.queue)).trans (Multiset.map_cons _ _ _)

theorem addEvent_run (event : LiveEvent) (h : EventRun impl d) (hd : Numbered d)
    (hlate : d.phase ≠ .idle → event = .tryReload) :
    EventRun impl (addEvent impl d event) ∧ Numbered (addEvent impl d event) := by
  constructor
  · refine h.call (.push _) ⟨?_, hlate⟩
    intro hmem
    exact absurd (hd _ hmem) (Nat.lt_irrefl _)
  · intro e he
    have hlength : (addEvent impl d event).pushed.length = d.pushed.length + 1 := by
      simp [addEvent, Drain.perform]
    rw [hlength]
    rcases List.mem_append.mp he with he | he
    · exact Nat.lt_succ_of_lt (hd e he)
    · rw [List.mem_singleton.mp he]
      exact Nat.lt_succ_self _

theorem foldl_addEvent_run (events : List LiveEvent) (h : EventRun impl d) (hd : Numbered d)
    (hphase : d.phase = .idle) :
    EventRun impl (events.foldl (addEvent impl) d) ∧ Numbered (events.foldl (addEvent impl) d) ∧
      (events.foldl (addEvent impl) d).phase = .idle ∧
      waiting impl (events.foldl (addEvent impl) d) = waiting impl d + events := by
  induction events generalizing d with
  | nil => exact ⟨h, hd, hphase, (add_zero _).symm⟩
  | cons event events ih =>
      obtain ⟨hadd, hadded⟩ := addEvent_run event h hd fun hne => absurd hphase hne
      obtain ⟨hrun, hnumbered, hphase', hwaiting⟩ := ih hadd hadded hphase
      refine ⟨hrun, hnumbered, hphase', hwaiting.trans ?_⟩
      rw [waiting_addEvent, ← Multiset.cons_coe, Multiset.cons_add, Multiset.add_cons]

/-- The library works on its queue as the queue says, and the events it knows are those in
the queue, apart from one that was handled already. -/
structure Represents (impl : EventQueue Q) (s : Queued Q) : Prop where
  draining : s.live.world.draining = true ↔ s.drain.phase ≠ .idle
  events : (s.live.world.events : Multiset LiveEvent) +
    (s.drain.phase.returned.map QueuedEvent.event : List LiveEvent) = waiting impl s.drain
  numbered : Numbered s.drain

/-- The library, its queue and the relation between them. -/
structure Refines (impl : EventQueue Q) (config : LiveConfig) (s : Queued Q) : Prop where
  live : LiveRun config (fun _ _ => True) s.live
  drain : EventRun impl s.drain
  represents : s.Represents impl

namespace Refines

theorem fileAction {directory filename : String} (hs : s.Refines impl config)
    (hallowed : s.live.Allows (.fileAction directory filename)) :
    Refines impl config { s with live := s.live.fileAction directory filename } := by
  have hsame : (s.live.fileAction directory filename).world.events = s.live.world.events ∧
      (s.live.fileAction directory filename).world.draining = s.live.world.draining := by
    unfold Live.fileAction
    rw [Session.modifyWorld_world]
    split <;> exact ⟨rfl, rfl⟩
  refine ⟨hs.live.call (.fileAction directory filename) hallowed trivial, hs.drain, ?_, ?_,
    hs.represents.numbered⟩
  · rw [hsame.2]
    exact hs.represents.draining
  · rw [hsame.1]
    exact hs.represents.events

theorem tryReload (hs : s.Refines impl config) :
    Refines impl config ⟨s.live.tryReload, addEvent impl s.drain .tryReload⟩ := by
  obtain ⟨hrun, hnumbered⟩ :=
    addEvent_run .tryReload hs.drain hs.represents.numbered fun _ => rfl
  have hevents : s.live.tryReload.world.events = s.live.world.events ++ [.tryReload] := by
    simp [Live.tryReload]
  have hdraining : s.live.tryReload.world.draining = s.live.world.draining := by
    simp [Live.tryReload]
  refine ⟨hs.live.call .tryReload trivial trivial, hrun, ?_, ?_, hnumbered⟩
  · rw [hdraining]
    exact hs.represents.draining
  · rw [hevents, waiting_addEvent, ← hs.represents.events, ← Multiset.coe_add, add_right_comm,
      add_comm]
    rfl

theorem tick (hs : s.Refines impl config) (hphase : s.drain.phase = .idle) (out : Outside)
    (env : Environment) : Refines impl config (s.tick impl config out env) := by
  have hidle : s.live.world.draining = false := by
    by_contra hne
    exact hs.represents.draining.mp (by simpa using hne) hphase
  have hlive := hs.live.call (.tick out env) hidle trivial
  obtain ⟨hrun, hnumbered, hphase', hwaiting⟩ := foldl_addEvent_run
    ((s.live.ask out).act (Live.recreateFileWatcher config)).world.watcherEvents
    hs.drain hs.represents.numbered hphase
  have hevents : (((s.live.ask out).poll config env).world.events : Multiset LiveEvent) =
      waiting impl (List.foldl (addEvent impl) s.drain
        ((s.live.ask out).act (Live.recreateFileWatcher config)).world.watcherEvents) := by
    have hbefore := hs.represents.events
    rw [hphase] at hbefore
    rw [hwaiting, ← hbefore, Live.poll_events, ← Multiset.coe_add]
    simp [DrainPhase.returned, Live.ask]
  unfold Queued.tick
  dsimp only
  split
  · rename_i hdraining
    exact ⟨hlive, hrun.call .start hphase', iff_of_true hdraining (by simp [Drain.perform]),
      (add_zero _).trans hevents, hnumbered⟩
  · rename_i hdraining
    refine ⟨hlive, hrun, iff_of_false hdraining (not_not_intro hphase'), ?_, hnumbered⟩
    rw [hphase']
    exact (add_zero _).trans hevents

theorem getEvent (hs : s.Refines impl config) (hphase : s.drain.phase = .looking) :
    Refines impl config (s.getEvent impl config) := by
  have hdraining : s.live.world.draining = true :=
    hs.represents.draining.mpr (by simp [hphase])
  have hlooked : EventRun impl (s.drain.look impl) := hs.drain.call .look hphase
  have hevents := hs.represents.events
  rw [hphase] at hevents
  unfold Queued.getEvent
  cases htop : impl.top s.drain.queue with
  | none =>
      have hlook : s.drain.look impl = { s.drain with phase := .idle } := by
        simp [Drain.look, htop]
      rw [hlook] at hlooked ⊢
      have hempty : s.live.world.events = [] := by
        have hzero : waiting impl s.drain = 0 := by
          simp [waiting, (impl.top_eq_none _).mp htop]
        rw [hzero] at hevents
        simpa [DrainPhase.returned] using hevents
      exact ⟨hs.live.call .finish ⟨hdraining, hempty⟩ trivial, hlooked,
        iff_of_false (by simp [Live.perform]) (by simp), hevents, hs.represents.numbered⟩
  | some e =>
      have hlook : s.drain.look impl =
          { s.drain with phase := .handling e, round := s.drain.round ++ [e] } := by
        simp [Drain.look, htop]
      rw [hlook] at hlooked ⊢
      exact ⟨hs.live, hlooked, iff_of_true hdraining (by simp), hevents,
        hs.represents.numbered⟩

/-- The library may handle the event on top of the queue. -/
theorem allows_dispatch {e : QueuedEvent} (hs : s.Refines impl config)
    (hphase : s.drain.phase = .handling e) (out : Outside) :
    s.live.Allows (.dispatch out e.event) := by
  have hordered := hs.drain.orderly QueuedEvent.priority_le_of_late
  have htop := hordered.held_top e (by rw [hphase]; rfl)
  have hevents : (s.live.world.events : Multiset LiveEvent) = waiting impl s.drain := by
    rw [← hs.represents.events, hphase]
    exact (add_zero _).symm
  refine ⟨hs.represents.draining.mpr (by simp [hphase]), ?_, ?_⟩
  · rw [← Multiset.mem_coe, hevents]
    exact Multiset.mem_map_of_mem _ (impl.mem_contents_of_top htop)
  · intro event hevent
    rw [← Multiset.mem_coe, hevents] at hevent
    obtain ⟨e', he', rfl⟩ := Multiset.mem_map.mp hevent
    exact impl.top_max e _ htop e' he'

theorem handleEvent {e : QueuedEvent} (hs : s.Refines impl config)
    (hphase : s.drain.phase = .handling e) (out : Outside) :
    Refines impl config (s.handleEvent impl config out) := by
  have hallowed := hs.allows_dispatch hphase out
  have hlive := hs.live.call (.dispatch out e.event) hallowed trivial
  obtain ⟨hdraining, hevent, _⟩ := hallowed
  have hidle : (s.live.ask out).Idle (.gated config) := by
    obtain ⟨_, hgated⟩ := hs.live.reached_gated
    exact ⟨(hgated hdraining).1, fun hguard => hguard.elim⟩
  have hevents := hs.represents.events
  rw [hphase] at hevents
  unfold Queued.handleEvent
  rw [hphase]
  dsimp only
  rcases Live.dispatch_queue config hidle e.event with ⟨herased, hsame⟩ | ⟨hsame, hstop⟩
  · have hdraining' : ((s.live.ask out).dispatch config e.event).world.draining = true :=
      hsame.trans hdraining
    rw [if_pos hdraining']
    have hcomplete : s.drain.perform impl .complete =
        { s.drain with phase := .popping e, handled := s.drain.handled ++ [e] } := by
      simp [Drain.perform, Drain.complete, hphase]
    have hrun := hs.drain.call .complete ⟨e, hphase⟩
    rw [hcomplete] at hrun ⊢
    refine ⟨hlive, hrun, iff_of_true hdraining' (by simp), ?_, hs.represents.numbered⟩
    calc
      _ = ((s.live.world.events.erase e.event : List LiveEvent) : Multiset LiveEvent) +
          {e.event} := congrArg (fun events : List LiveEvent => (events : Multiset LiveEvent) + _)
            herased
      _ = (e.event :: s.live.world.events.erase e.event : List LiveEvent) := by
          rw [add_comm]
          rfl
      _ = s.live.world.events := Multiset.coe_eq_coe.mpr (List.perm_cons_erase hevent).symm
      _ = waiting impl s.drain := (add_zero _).symm.trans hevents
  · rw [if_neg (by simp [hstop])]
    refine ⟨hlive, hs.drain.call .abort ⟨e, hphase⟩, iff_of_false (by simp [hstop])
      (by simp [Drain.perform]), ?_, hs.represents.numbered⟩
    rw [hsame]
    exact hevents

theorem popEvent {e : QueuedEvent} (hs : s.Refines impl config)
    (hphase : s.drain.phase = .popping e) :
    Refines impl config { s with drain := s.drain.pop impl } := by
  have hordered := hs.drain.orderly QueuedEvent.priority_le_of_late
  have hrun : EventRun impl (s.drain.pop impl) := hs.drain.call .pop ⟨e, hphase⟩
  rw [hordered.pop_eq hphase] at hrun ⊢
  have hdraining : s.live.world.draining = true := hs.represents.draining.mpr (by simp [hphase])
  refine ⟨hs.live, hrun, iff_of_true hdraining (by simp), ?_, hs.represents.numbered⟩
  -- what was handled is what is missing now
  have hevents := hs.represents.events
  rw [hphase, waiting, ← impl.contents_pop e s.drain.queue (hordered.top_of_popping hphase),
    Multiset.map_cons, ← Multiset.singleton_add, add_comm] at hevents
  exact (add_zero _).trans (add_left_cancel hevents)

end Refines

end Queued

/-- The library with its queue runs as the library does alone, and as the queue does. -/
theorem QueuedRun.refines {Q : Type*} {impl : EventQueue Q} {config : LiveConfig} {s : Queued Q}
    (h : QueuedRun impl config s) : s.Refines impl config := by
  induction h with
  | start filepath out memory hs =>
      have hedits := Live.create_edits (d := .gated config) hs
      refine ⟨.start filepath out memory hs, .start, ?_, ?_, ?_⟩
      · rw [hedits.draining]
        simp
      · rw [hedits.events]
        simp [Queued.waiting, impl.contents_empty, DrainPhase.returned]
      · exact fun e he => absurd he List.not_mem_nil
  | @call s _ call hallowed ih =>
      cases call with
      | fileAction directory filename => exact ih.fileAction hallowed
      | tryReload => exact ih.tryReload
      | write memory =>
          exact ⟨ih.live.call (.write memory) trivial trivial, ih.drain, ih.represents.draining,
            ih.represents.events, ih.represents.numbered⟩
      | tick out env => exact ih.tick hallowed out env
      | getEvent => exact ih.getEvent hallowed
      | handleEvent out =>
          obtain ⟨e, hphase⟩ := hallowed
          exact ih.handleEvent hphase out
      | popEvent =>
          obtain ⟨e, hphase⟩ := hallowed
          exact ih.popEvent hphase

/-- A reload is requested, and `update` takes the request from the queue and handles it. -/
def requestedQueued : Queued (List QueuedEvent) :=
  [.tryReload, .tick (.ofCommands twoUnits) (.finished "" 0), .getEvent,
    .handleEvent (.ofCommands twoUnits), .popEvent].foldl
      (Queued.perform (PriorityQueue.list QueuedEvent.priority) {})
      ⟨.started twoUnits, { queue := [] }⟩

theorem requestedQueued_refines :
    requestedQueued.live.compiler.shouldLink = true ∧ requestedQueued.drain.queue = [] ∧
      requestedQueued.Refines (PriorityQueue.list QueuedEvent.priority) {} := by
  let impl : EventQueue (List QueuedEvent) := PriorityQueue.list QueuedEvent.priority
  let request : QueuedEvent := ⟨0, .tryReload⟩
  have hrequested : QueuedRun impl {} _ :=
    (QueuedRun.start _ _ _ (Live.create_started twoUnits)).call .tryReload trivial
  have htick := hrequested.call (.tick (.ofCommands twoUnits) (.finished "" 0)) rfl
  have hgot := htick.call .getEvent (by rw [Queued.Allows]; decide +kernel)
  have hhandled := hgot.call (.handleEvent (.ofCommands twoUnits))
    ⟨request, by decide +kernel⟩
  have hrun : QueuedRun impl {} requestedQueued :=
    hhandled.call .popEvent ⟨request, by decide +kernel⟩
  exact ⟨by decide +kernel, by decide +kernel, hrun.refines⟩

end JetLive

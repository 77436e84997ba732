import JetLive.Live.Gate
import JetLive.Live.Maps

/-!
# The way of a file event

The watcher runs in a thread of its own, so it may report a change at any moment, also in
the middle of `update`. The runs of this module cut `update` once more, between the parts
that matter for the events of the watcher: it is set up again if the countdown says so, its
events go to the queue, and the compiler is updated. A `Tally` counts beside the state the
events that the watcher has accepted and those that were handled.

Every run of the library is such a run (`LiveRun.tallyRun`).
-/

namespace JetLive

open Containers

/-! ## The parts of `update` -/

namespace Live

def updateFileWatcher (s : Live) : Live :=
  s.modifyWorld fun w =>
    { w with
      events := w.events ++ (w.fileWatcher.getD []).map fun event =>
        .fileChanged (event.directory ++ event.filename)
      fileWatcher := w.fileWatcher.map fun _ => [] }

/-- Update the compiler; the queue is worked on unless a link process is running. -/
def updateCompiler (config : LiveConfig) (env : Environment) (s : Live) : Live :=
  let s : Live := s.update host config env
  s.modifyWorld fun w => { w with draining := !s.compiler.isLinking }

theorem poll_eq (config : LiveConfig) (env : Environment) (s : Live) :
    s.poll config env =
      (updateFileWatcher (s.act (recreateFileWatcher config))).updateCompiler config env := rfl

end Live

inductive TickPhase
  | outside
  | recreated
  | handedOver
  deriving DecidableEq

/-- The library with the paths of the file events that were accepted by the watcher and
those that were handled. -/
structure Tally where
  live : Live
  phase : TickPhase := .outside
  accepted : Multiset String := 0
  handled : Multiset String := 0

/-- What can happen, with `update` in parts. -/
inductive TallyCall
  | live (call : LiveCall)
  | recreate (out : Outside)
  | handOver
  | updateCompiler (env : Environment)

namespace Tally

/-- The watcher and the requests of reloads come from other threads, everything else happens
in the order of `update`. -/
def Allows (t : Tally) : TallyCall → Prop
  | .live (.tick ..) => False
  | .live (.fileAction directory filename) => t.live.Allows (.fileAction directory filename)
  | .live .tryReload | .live (.write _) => True
  | .live call => t.phase = .outside ∧ t.live.Allows call
  | .recreate _ => t.phase = .outside ∧ t.live.world.draining = false
  | .handOver => t.phase = .recreated
  | .updateCompiler _ => t.phase = .handedOver

instance (t : Tally) : ∀ call, Decidable (t.Allows call)
  | .live (.tick ..) => isFalse id
  | .live (.fileAction directory filename) =>
      inferInstanceAs (Decidable (t.live.Allows (.fileAction directory filename)))
  | .live .tryReload | .live (.write _) => isTrue trivial
  | .live (.dispatch ..) | .live .finish => inferInstanceAs (Decidable (_ ∧ _))
  | .recreate _ => inferInstanceAs (Decidable (_ ∧ _))
  | .handOver | .updateCompiler _ => inferInstanceAs (Decidable (_ = _))

/-- The path under which a change is accepted, if it is. -/
def acceptedPath (w : LiveWorld) (directory filename : String) : Multiset String :=
  if w.fileWatcher.isSome ∧ Live.watched filename then {directory ++ filename} else 0

/-- The path that a dispatch has handled, if no exception was thrown. -/
def handledPath (config : LiveConfig) (s : Live) : LiveEvent → Multiset String
  | .fileChanged filepath => if (s.onFileChanged config filepath).2 then {filepath} else 0
  | .tryReload => 0

def perform (config : LiveConfig) (t : Tally) : TallyCall → Tally
  | .live (.fileAction directory filename) =>
      { t with
        live := t.live.fileAction directory filename
        accepted := t.accepted + acceptedPath t.live.world directory filename }
  | .live (.dispatch out event) =>
      { t with
        live := (t.live.ask out).dispatch config event
        handled := t.handled + handledPath config (t.live.ask out) event }
  | .live call => { t with live := t.live.perform config call }
  | .recreate out =>
      { t with
        live := (t.live.ask out).act (Live.recreateFileWatcher config)
        phase := .recreated }
  | .handOver => { t with live := t.live.updateFileWatcher, phase := .handedOver }
  | .updateCompiler env =>
      { t with live := t.live.updateCompiler config env, phase := .outside }

end Tally

inductive TallyRun (config : LiveConfig) (P : Tally → TallyCall → Prop) : Tally → Prop
  | start {s : Live} (filepath : String) (out : Outside) (memory : ProcessMemory)
      (hs : Live.create config filepath out memory = some s) : TallyRun config P { live := s }
  | call {t : Tally} (h : TallyRun config P t) (call : TallyCall) (hallowed : t.Allows call)
      (hcall : P t call) : TallyRun config P (t.perform config call)

/-- Every run of the library is a run of its parts. -/
theorem LiveRun.tallyRun {config : LiveConfig} {P : Live → LiveCall → Prop} {s : Live}
    (h : LiveRun config P s) :
    ∃ accepted handled, TallyRun config (fun _ _ => True) ⟨s, .outside, accepted, handled⟩ := by
  induction h with
  | start filepath out memory hs => exact ⟨0, 0, .start filepath out memory hs⟩
  | @call s _ call hallowed _ ih =>
      obtain ⟨accepted, handled, hrun⟩ := ih
      cases call with
      | tick out env =>
          have hrecreated := hrun.call (.recreate out) ⟨rfl, hallowed⟩ trivial
          have hhanded := hrecreated.call .handOver rfl trivial
          exact ⟨_, _, hhanded.call (.updateCompiler env) rfl trivial⟩
      | fileAction directory filename =>
          exact ⟨_, _, hrun.call (.live (.fileAction directory filename)) hallowed trivial⟩
      | tryReload => exact ⟨_, _, hrun.call (.live .tryReload) trivial trivial⟩
      | write memory => exact ⟨_, _, hrun.call (.live (.write memory)) trivial trivial⟩
      | dispatch out event =>
          exact ⟨_, _, hrun.call (.live (.dispatch out event)) ⟨rfl, hallowed⟩ trivial⟩
      | finish => exact ⟨_, _, hrun.call (.live .finish) ⟨rfl, hallowed⟩ trivial⟩

/-! ## Where the events are -/

def LiveEvent.changedPath : LiveEvent → Option String
  | .fileChanged filepath => some filepath
  | .tryReload => none

namespace LiveWorld

def watcherPaths (w : LiveWorld) : Multiset String :=
  ((w.fileWatcher.getD []).map fun event => event.directory ++ event.filename : List String)

def queuedPaths (w : LiveWorld) : Multiset String :=
  (w.events.filterMap LiveEvent.changedPath : List String)

def inFlight (w : LiveWorld) : Multiset String := w.watcherPaths + w.queuedPaths

structure SameEvents (w w' : LiveWorld) : Prop where
  events : w'.events = w.events
  fileWatcher : w'.fileWatcher = w.fileWatcher
  ticks : w'.recreateFileWatcherAfterTicks = w.recreateFileWatcherAfterTicks

theorem SameEvents.refl (w : LiveWorld) : w.SameEvents w := ⟨rfl, rfl, rfl⟩

theorem SameEvents.trans {w w' w'' : LiveWorld} (h : w.SameEvents w') (h' : w'.SameEvents w'') :
    w.SameEvents w'' :=
  ⟨h'.events.trans h.events, h'.fileWatcher.trans h.fileWatcher, h'.ticks.trans h.ticks⟩

theorem sameEvents_draining (draining : Bool) (w : LiveWorld) :
    w.SameEvents { w with draining } := ⟨rfl, rfl, rfl⟩

theorem sameEvents_updateDependenciesOf (w : LiveWorld) (p : String) :
    w.SameEvents (w.updateDependenciesOf p).1 := by
  unfold updateDependenciesOf
  split <;> exact ⟨rfl, rfl, rfl⟩

theorem sameEvents_loadCode (w : LiveWorld) (status : ℤ) (libPath : String)
    (sourceFilePaths : List String) :
    w.SameEvents (w.loadCode status libPath sourceFilePaths).1 := by
  unfold loadCode
  split <;> exact ⟨rfl, rfl, rfl⟩

end LiveWorld

namespace Live

open Session

variable {config : LiveConfig}

theorem sameEvents_linkFinished (callback : LinkFinishCallback) (status : ℤ) (libPath : String)
    (sourceFilePaths : List String) (err : String) (w : LiveWorld) :
    w.SameEvents (host.linkFinished callback status libPath sourceFilePaths err w).1 := by
  cases callback with
  | none => exact .refl w
  | some n => exact w.sameEvents_loadCode status libPath sourceFilePaths

theorem sameEvents_stable (w : LiveWorld) :
    Session.Stable host fun s : Live => w.SameEvents s.world where
  emit _ _ _ hs := hs
  modify _ _ hs := hs
  unit _ _ _ _ hs := hs
  compileFinished s callback status path err hs := by
    rw [callback_world]
    refine hs.trans ?_
    cases callback with
    | updateDependencies p readings => exact s.world.sameEvents_updateDependenciesOf _
    | nothing => exact .refl s.world
  linkRefused s callback hs := by
    rw [callback_world]
    exact hs.trans (sameEvents_linkFinished _ _ _ _ _ _)

theorem sameEvents_updateCompiler (env : Environment) (s : Live) :
    s.world.SameEvents (s.updateCompiler config env).world := by
  have hpolled : s.world.SameEvents (s.beforePollLink host config env).world :=
    (sameEvents_stable s.world).beforePollLink config env s (.refl s.world)
  have hupdated : s.world.SameEvents (s.update host config env).world := by
    rw [update_eq]
    rcases pollLink_cases host env (s.beforePollLink host config env) with
      h | ⟨task, _, status, err, s₁, _, _, _, _, hs₁, h⟩
    · rw [h]
      exact hpolled
    · rw [h, emit_world, modify_world, callback_world, hs₁.2]
      exact hpolled.trans (sameEvents_linkFinished _ _ _ _ _ _)
  exact hupdated.trans (LiveWorld.sameEvents_draining _ _)

theorem sameEvents_foldl_removeUnit (l : List String) (s : Live) :
    s.world.SameEvents (l.foldl removeUnit s).world := by
  induction l generalizing s with
  | nil => exact .refl s.world
  | cons p l ih =>
      have hfirst : s.world.SameEvents (s.removeUnit p).world := ⟨rfl, rfl, rfl⟩
      exact hfirst.trans (ih _)

theorem sameEvents_updateCompilationUnits {filepath : String} {w w' : LiveWorld}
    {changes : UnitChanges}
    (h : (updateCompilationUnits config filepath w).1 = some (w', changes)) :
    w.SameEvents w' := by
  rcases updateCompilationUnits_cases h with ⟨_, rfl, _⟩ | ⟨_, _, rfl, _⟩
  · exact ⟨rfl, rfl, rfl⟩
  · exact ⟨rfl, rfl, rfl⟩

/-- The queue and the watcher are the same, but the countdown may have been started. -/
structure StartsCountdown (w w' : LiveWorld) : Prop where
  events : w'.events = w.events
  fileWatcher : w'.fileWatcher = w.fileWatcher
  ticks : w'.recreateFileWatcherAfterTicks = w.recreateFileWatcherAfterTicks ∨
    w'.recreateFileWatcherAfterTicks = recreateFileWatcherMaxTicks

theorem StartsCountdown.of_same {w w' : LiveWorld} (h : w.SameEvents w') : StartsCountdown w w' :=
  ⟨h.events, h.fileWatcher, Or.inl h.ticks⟩

theorem onOtherFileChanged_events (filepath : String) (s : Live) :
    StartsCountdown s.world (s.onOtherFileChanged config filepath).1.world := by
  rcases onOtherFileChanged_cases config filepath s with
    ⟨logs, h⟩ | ⟨w, changes, logs, hread, hcases⟩
  · rw [h, emitLogs_world]
    exact .of_same (.refl s.world)
  · have hread : s.world.SameEvents w := sameEvents_updateCompilationUnits hread
    rcases hcases with ⟨_, h⟩ | ⟨_, h⟩
    · have hremoved := sameEvents_foldl_removeUnit changes.removed
        ((changes.added ++ changes.modified).foldl (compileUnit "Cannot find cu for ")
          (s.afterReading w logs))
      rw [foldl_compileUnit_world] at hremoved
      rw [h]
      exact ⟨hremoved.events.trans hread.events, hremoved.fileWatcher.trans hread.fileWatcher,
        Or.inr rfl⟩
    · rw [h]
      exact .of_same ⟨hread.events, hread.fileWatcher, hread.ticks⟩

theorem onFileChanged_events (filepath : String) (s : Live) :
    StartsCountdown s.world (s.onFileChanged config filepath).1.world := by
  unfold onFileChanged
  split
  · rw [foldl_compileUnit_world]
    exact .of_same (.refl s.world)
  · exact onOtherFileChanged_events filepath s

end Live

/-! ## Nothing is lost -/

namespace Tally

/-- Every accepted event is in the watcher, in the queue or handled. -/
def Accounted (t : Tally) : Prop := t.accepted = t.live.world.inFlight + t.handled

instance (t : Tally) : Decidable t.Accounted := inferInstanceAs (Decidable (_ = _))

/-- Between the drop of the watcher and the end of the countdown there is none. -/
def Dormant (w : LiveWorld) : Prop :=
  2 ≤ w.recreateFileWatcherAfterTicks →
    w.recreateFileWatcherAfterTicks < Live.recreateFileWatcherMaxTicks → w.fileWatcher = none

/-- When the watcher is about to be dropped it holds no events. -/
def DropsNothing (t : Tally) : TallyCall → Prop
  | .recreate _ =>
      t.live.world.recreateFileWatcherAfterTicks = Live.recreateFileWatcherMaxTicks →
        t.live.world.fileWatcher.getD [] = []
  | _ => True

instance (t : Tally) : ∀ call, Decidable (t.DropsNothing call)
  | .recreate _ => inferInstanceAs (Decidable (_ → _))
  | .live _ | .handOver | .updateCompiler _ => isTrue trivial

variable {config : LiveConfig} {t : Tally}

theorem inFlight_fileAction (directory filename : String) (s : Live) :
    (s.fileAction directory filename).world.inFlight =
      s.world.inFlight + acceptedPath s.world directory filename := by
  unfold Live.fileAction acceptedPath
  rw [Session.modifyWorld_world]
  by_cases hwatched : Live.watched filename
  · cases hwatcher : s.world.fileWatcher with
    | none => simp [hwatched, hwatcher, LiveWorld.inFlight, LiveWorld.watcherPaths,
        LiveWorld.queuedPaths]
    | some events =>
        simp only [hwatched, LiveWorld.inFlight, LiveWorld.watcherPaths, LiveWorld.queuedPaths,
          hwatcher, if_true, Option.map_some, Option.getD_some, Option.isSome_some, and_self,
          List.map_append, List.map_cons, List.map_nil, ← Multiset.coe_add,
          Multiset.coe_singleton]
        exact add_right_comm _ _ _
  · simp [hwatched]

theorem inFlight_congr {w w' : LiveWorld} (hevents : w'.events = w.events)
    (hwatcher : w'.fileWatcher.getD [] = w.fileWatcher.getD []) : w'.inFlight = w.inFlight := by
  rw [LiveWorld.inFlight, LiveWorld.watcherPaths, LiveWorld.queuedPaths, hevents, hwatcher]
  rfl

theorem inFlight_recreateFileWatcher {w : LiveWorld} (hdormant : Dormant w)
    (hdrops : w.recreateFileWatcherAfterTicks = Live.recreateFileWatcherMaxTicks →
      w.fileWatcher.getD [] = []) :
    (Live.recreateFileWatcher config w).1.inFlight = w.inFlight := by
  unfold Live.recreateFileWatcher
  by_cases hmax : w.recreateFileWatcherAfterTicks = Live.recreateFileWatcherMaxTicks
  · have hticks : ¬ (Live.recreateFileWatcherMaxTicks - 1 = 1) := by decide
    simp only [hmax, hticks, if_true, if_false]
    exact inFlight_congr rfl (hdrops hmax).symm
  · simp only [hmax, if_false]
    split
    · -- the new watcher replaces none
      rename_i hone
      have hnone : w.fileWatcher = none := by
        refine hdormant ?_ ?_
        · omega
        · have hmax' : Live.recreateFileWatcherMaxTicks = 10 := rfl
          omega
      exact inFlight_congr rfl (by simp [LiveWorld.setupFileWatcher, hnone])
    · exact inFlight_congr rfl rfl

theorem inFlight_updateFileWatcher (s : Live) :
    s.updateFileWatcher.world.inFlight = s.world.inFlight := by
  have hpaths (l : List FileEvent) :
      (l.map fun event => LiveEvent.fileChanged (event.directory ++ event.filename)).filterMap
        LiveEvent.changedPath = l.map fun event => event.directory ++ event.filename := by
    rw [List.filterMap_map, ← List.filterMap_eq_map]
    rfl
  unfold Live.updateFileWatcher
  rw [Session.modifyWorld_world]
  simp only [LiveWorld.inFlight, LiveWorld.watcherPaths, LiveWorld.queuedPaths,
    List.filterMap_append, hpaths, ← Multiset.coe_add]
  cases s.world.fileWatcher with
  | none => simp
  | some events => simp [add_comm]

/-- The file events after one event has left the queue. -/
theorem filterMap_erase_changedPath {events : List LiveEvent} {event : LiveEvent}
    (hevent : event ∈ events) :
    ((events.erase event).filterMap LiveEvent.changedPath : Multiset String) +
      (event.changedPath.toList : Multiset String) =
        (events.filterMap LiveEvent.changedPath : Multiset String) := by
  have hperm := (List.perm_cons_erase hevent).filterMap LiveEvent.changedPath
  rw [Multiset.coe_eq_coe.mpr hperm]
  cases event with
  | fileChanged filepath => simp [LiveEvent.changedPath, add_comm]
  | tryReload => simp [LiveEvent.changedPath, List.filterMap_cons]

theorem inFlight_dispatch {event : LiveEvent} {s : Live} (hevent : event ∈ s.world.events) :
    (s.dispatch config event).world.inFlight + handledPath config s event = s.world.inFlight := by
  -- an event that leaves the queue leaves the watcher alone
  have herased {w : LiveWorld} (hevents : w.events = s.world.events.erase event)
      (hwatcher : w.fileWatcher = s.world.fileWatcher) :
      w.inFlight + (event.changedPath.toList : Multiset String) = s.world.inFlight := by
    rw [LiveWorld.inFlight, LiveWorld.watcherPaths, LiveWorld.queuedPaths, hevents, hwatcher,
      add_assoc, filterMap_erase_changedPath hevent]
    rfl
  cases event with
  | fileChanged filepath =>
      obtain ⟨hevents, hwatcher, _⟩ :
          Live.StartsCountdown s.world (s.onFileChanged config filepath).1.world :=
        Live.onFileChanged_events filepath s
      rcases Live.dispatch_fileChanged_cases config filepath s with ⟨hdone, h⟩ | ⟨hthrown, h⟩
      · rw [h, handledPath, if_pos hdone]
        exact herased (congrArg (List.erase · _) hevents) hwatcher
      · rw [h, handledPath, if_neg (by simp [hthrown]), add_zero]
        exact inFlight_congr hevents (congrArg (Option.getD · []) hwatcher)
  | tryReload => exact herased rfl rfl

theorem inFlight_tryReload (s : Live) : s.tryReload.world.inFlight = s.world.inFlight := by
  have hlast : [LiveEvent.tryReload].filterMap LiveEvent.changedPath = [] := rfl
  unfold Live.tryReload
  simp [LiveWorld.inFlight, LiveWorld.watcherPaths, LiveWorld.queuedPaths, hlast]

/-! ### Runs -/

theorem Dormant.of_startsCountdown {w w' : LiveWorld} (hw : Dormant w)
    (h : Live.StartsCountdown w w') : Dormant w' := by
  intro hlow hhigh
  rw [h.fileWatcher]
  rcases h.ticks with hticks | hticks
  · exact hw (hticks ▸ hlow) (hticks ▸ hhigh)
  · omega

theorem Dormant.recreateFileWatcher {w : LiveWorld} (hw : Dormant w) :
    Dormant (Live.recreateFileWatcher config w).1 := by
  have hten : Live.recreateFileWatcherMaxTicks = 10 := rfl
  unfold Live.recreateFileWatcher
  by_cases hmax : w.recreateFileWatcherAfterTicks = Live.recreateFileWatcherMaxTicks
  · have hticks : ¬ (Live.recreateFileWatcherMaxTicks - 1 = 1) := by decide
    simp only [hmax, hticks, if_true, if_false]
    exact fun _ _ => rfl
  · simp only [hmax, if_false]
    split
    · rename_i hone
      intro hlow _
      simp only [LiveWorld.setupFileWatcher] at hlow
      omega
    · intro hlow hhigh
      dsimp only at hlow hhigh
      exact hw (by omega) (by omega)

theorem Dormant.dispatch {s : Live} (hs : Dormant s.world) (event : LiveEvent) :
    Dormant (s.dispatch config event).world := by
  cases event with
  | fileChanged filepath =>
      have hchanged : Dormant (s.onFileChanged config filepath).1.world :=
        hs.of_startsCountdown (Live.onFileChanged_events filepath s)
      rcases Live.dispatch_fileChanged_cases config filepath s with ⟨_, h⟩ | ⟨_, h⟩
      · rw [h]
        exact hchanged
      · rw [h]
        exact hchanged
  | tryReload => exact hs

theorem Dormant.perform {call : TallyCall} (ht : Dormant t.live.world)
    (hallowed : t.Allows call) : Dormant (t.perform config call).live.world := by
  -- no call but the one that sets the watcher up makes one
  have hmapped {w : LiveWorld} {f : List FileEvent → List FileEvent}
      (hwatcher : w.fileWatcher = t.live.world.fileWatcher.map f)
      (hticks : w.recreateFileWatcherAfterTicks =
        t.live.world.recreateFileWatcherAfterTicks) : Dormant w := by
    intro hlow hhigh
    rw [hwatcher, ht (hticks ▸ hlow) (hticks ▸ hhigh), Option.map_none]
  cases call with
  | live call =>
      cases call with
      | fileAction directory filename =>
          unfold Tally.perform Live.fileAction
          rw [Session.modifyWorld_world]
          split
          · exact hmapped rfl rfl
          · exact ht
      | tryReload => exact ht
      | write memory => exact ht
      | tick out env => exact hallowed.elim
      | dispatch out event =>
          have hasked : Dormant (t.live.ask out).world := ht
          exact hasked.dispatch event
      | finish => exact ht
  | recreate out => exact Dormant.recreateFileWatcher ht
  | handOver => exact hmapped rfl rfl
  | updateCompiler env =>
      exact ht.of_startsCountdown (.of_same (Live.sameEvents_updateCompiler env t.live))

theorem Accounted.perform {call : TallyCall} (ht : t.Accounted) (hdormant : Dormant t.live.world)
    (hallowed : t.Allows call) (hdrops : t.DropsNothing call) :
    (t.perform config call).Accounted := by
  have hkept {w : LiveWorld} (hflight : w.inFlight = t.live.world.inFlight) :
      t.accepted = w.inFlight + t.handled := by
    rw [hflight]
    exact ht
  cases call with
  | live call =>
      cases call with
      | fileAction directory filename =>
          have hflight := inFlight_fileAction directory filename t.live
          unfold Accounted Tally.perform
          rw [hflight, add_right_comm, ← ht]
      | tryReload => exact hkept (inFlight_tryReload t.live)
      | write memory => exact ht
      | tick out env => exact hallowed.elim
      | dispatch out event =>
          have hflight : ((t.live.ask out).dispatch config event).world.inFlight +
              handledPath config (t.live.ask out) event = t.live.world.inFlight :=
            inFlight_dispatch hallowed.2.2.1
          calc t.accepted = t.live.world.inFlight + t.handled := ht
            _ = ((t.live.ask out).dispatch config event).world.inFlight +
                (t.handled + handledPath config (t.live.ask out) event) := by
              rw [← hflight, add_assoc, add_comm t.handled]
      | finish => exact ht
  | recreate out => exact hkept (inFlight_recreateFileWatcher hdormant hdrops)
  | handOver => exact hkept (inFlight_updateFileWatcher t.live)
  | updateCompiler env =>
      have hsame : t.live.world.SameEvents (t.live.updateCompiler config env).world :=
        Live.sameEvents_updateCompiler env t.live
      exact hkept (inFlight_congr hsame.events (congrArg (Option.getD · []) hsame.fileWatcher))

end Tally

/-- After the initialization there are no events and no countdown. -/
structure LiveWorld.Idle (w : LiveWorld) : Prop where
  events : w.events = []
  fileWatcher : w.fileWatcher.getD [] = []
  ticks : w.recreateFileWatcherAfterTicks = 0

theorem Live.create_idle {config : LiveConfig} {filepath : String} {out : Outside}
    {memory : ProcessMemory} {s : Live} (h : Live.create config filepath out memory = some s) :
    s.world.Idle := by
  have hstable : Live.InitStable config LiveWorld.Idle :=
    { generateDatabase := by
        intro w hw
        unfold LiveWorld.generateDatabase
        split
        · exact ⟨hw.events, hw.fileWatcher, hw.ticks⟩
        · exact hw
      enterUnits := fun _ _ _ hw => ⟨hw.events, hw.fileWatcher, hw.ticks⟩
      updateDirectoryFilters := fun _ hw => ⟨hw.events, hw.fileWatcher, hw.ticks⟩
      updateDependenciesOf := by
        intro w p hw
        obtain ⟨hevents, hwatcher, hticks⟩ := w.sameEvents_updateDependenciesOf p
        exact ⟨hevents.trans hw.events, hwatcher ▸ hw.fileWatcher, hticks.trans hw.ticks⟩
      setupFileWatcher := fun _ hw => ⟨hw.events, rfl, hw.ticks⟩
      loadProgram := by
        intro w path hw
        unfold LiveWorld.loadProgram
        dsimp only
        split
        · exact hw
        · exact ⟨hw.events, hw.fileWatcher, hw.ticks⟩
      loadExportedSymbols := fun _ hw => ⟨hw.events, hw.fileWatcher, hw.ticks⟩ }
  exact (hstable.create ⟨rfl, rfl, rfl⟩ h).2

/-- In a run that never drops a watcher with events in it, every accepted file event is in
the watcher, in the queue or handled, and so none is lost. -/
theorem TallyRun.accounted {config : LiveConfig} {t : Tally}
    (h : TallyRun config Tally.DropsNothing t) : t.Accounted := by
  have hboth : t.Accounted ∧ Tally.Dormant t.live.world := by
    induction h with
    | @start s filepath out memory hs =>
        obtain ⟨hevents, hwatcher, hticks⟩ := Live.create_idle hs
        constructor
        · simp [Tally.Accounted, LiveWorld.inFlight, LiveWorld.watcherPaths,
            LiveWorld.queuedPaths, hevents, hwatcher]
        · intro hlow
          exact absurd (hticks ▸ hlow : 2 ≤ 0) (by omega)
    | call _ call hallowed hcall ih =>
        exact ⟨ih.1.perform ih.2 hallowed hcall, ih.2.perform hallowed⟩
  exact hboth.1

/-! ## Small runs -/

namespace Tally

def after (calls : List TallyCall) : Tally :=
  calls.foldl (perform {}) { live := Live.started twoUnits }

def AllowsAll (P : Tally → TallyCall → Prop) : Tally → List TallyCall → Prop
  | _, [] => True
  | t, call :: calls => (t.Allows call ∧ P t call) ∧ AllowsAll P (t.perform {} call) calls

instance (P : Tally → TallyCall → Prop) [∀ t call, Decidable (P t call)] :
    ∀ (calls : List TallyCall) (t : Tally), Decidable (AllowsAll P t calls)
  | [], _ => isTrue trivial
  | call :: calls, t =>
      have := instDecidableAllowsAll P calls (t.perform {} call)
      inferInstanceAs (Decidable (_ ∧ _))

end Tally

theorem TallyRun.calls {P : Tally → TallyCall → Prop} {t : Tally} (h : TallyRun {} P t)
    (calls : List TallyCall) (hcalls : t.AllowsAll P calls) :
    TallyRun {} P (calls.foldl (Tally.perform {}) t) := by
  induction calls generalizing t with
  | nil => exact h
  | cons call calls ih =>
      obtain ⟨⟨hallowed, hcall⟩, hcalls⟩ := hcalls
      exact ih (h.call call hallowed hcall) hcalls

theorem TallyRun.started (P : Tally → TallyCall → Prop) :
    TallyRun {} P { live := .started twoUnits } :=
  .start _ _ _ (Live.create_started twoUnits)

/-- Two units are edited, the second one in the middle of `update`. Then it is taken out of
`compile_commands.json`, and after the new reading the watcher is dropped. -/
def carriedRun : Tally :=
  let out := Outside.ofCommands twoUnits
  let out' := Outside.ofCommands [⟨"a.o", "/p", "/p/a.cpp"⟩]
  .after [.live (.fileAction "/p/" "a.cpp"), .recreate out, .handOver,
    .live (.fileAction "/p/" "b.cpp"), .updateCompiler (.finished "" 0),
    .live (.dispatch out (.fileChanged "/p/a.cpp")), .live .finish,
    .live (.fileAction "/p/" "compile_commands.json"), .recreate out', .handOver,
    .updateCompiler (.finished "" 0), .live (.dispatch out' (.fileChanged "/p/b.cpp")),
    .live (.dispatch out' (.fileChanged "/p/compile_commands.json")), .live .finish,
    .recreate out']

theorem carriedRun_accounted :
    carriedRun.handled = {"/p/a.cpp", "/p/b.cpp", "/p/compile_commands.json"} ∧
      carriedRun.live.world.fileWatcher = none ∧ carriedRun.Accounted := by
  have hrun : TallyRun {} Tally.DropsNothing carriedRun :=
    (TallyRun.started _).calls _ (by decide +kernel)
  exact ⟨by decide +kernel, by decide +kernel, hrun.accounted⟩

/-- A unit is edited right after a new reading of `compile_commands.json`. -/
def droppedRun : Tally :=
  let out := Outside.ofCommands [⟨"a.o", "/p", "/p/a.cpp"⟩]
  .after [.live (.fileAction "/p/" "compile_commands.json"), .recreate out, .handOver,
    .updateCompiler (.finished "" 0),
    .live (.dispatch out (.fileChanged "/p/compile_commands.json")), .live .finish,
    .live (.fileAction "/p/" "a.cpp"), .recreate out]

/-- The edit was accepted, and then dropped with the watcher. -/
theorem droppedRun_not_accounted :
    TallyRun {} (fun _ _ => True) droppedRun ∧ ¬ droppedRun.Accounted ∧
      "/p/a.cpp" ∈ droppedRun.accepted ∧ "/p/a.cpp" ∉ droppedRun.handled ∧
      "/p/a.cpp" ∉ droppedRun.live.world.inFlight := by
  exact ⟨(TallyRun.started _).calls _ (by decide +kernel), by decide +kernel⟩

end JetLive

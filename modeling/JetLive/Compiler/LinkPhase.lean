import JetLive.Compiler.Run

/-!
# The link phase

While a link process is running, the compiler of a disciplined owner stands
still: nothing is pending, nothing is running, and the ready units are those of
the moment the process was started. This is the invariant `Quiet`. Together with
the invariant of the compiler it gives the two main results about runs: the
scheduler keeps to its bounds, and no modification is lost.
-/

namespace JetLive

open Containers EventTrace

/-- While a link process is running, the compiler stands still since its start. -/
def Quiet (c : Compiler) (h : History) : Prop :=
  c.runningLinkTask ≠ none →
    c.pendingCompilationTasks = [] ∧ c.runningCompilationTasks = ∅ ∧
      ∃ c₀, h.linkStart = some c₀ ∧ c.readyCompilationUnits = c₀.readyCompilationUnits

variable {d : Discipline} {c : Compiler} {t : CompilerTrace}

namespace Quiet

/-- A running compilation excludes a running link. -/
theorem not_running {h : History} {p : String} {task : Task} (hq : Quiet c h)
    (hrun : c.runningCompilationTasks.lookup p = some task) : c.runningLinkTask = none := by
  by_contra hlink
  obtain ⟨_, hempty, _⟩ := hq hlink
  simp [hempty] at hrun

theorem step {c' : Compiler} {t' : CompilerTrace} (hedit : d.editGuarded)
    (hc : Coherent d c (history t)) (hstep : Step d (c, t) (c', t'))
    (hq : Quiet c (history t)) : Quiet c' (history t') := by
  cases hstep with
  | note _ _ e he =>
      rw [history_cons, History.next_of_neutral _ _ he]
      exact hq
  | compile _ _ cu callback hguard _ => exact fun hlink => absurd (hguard hedit) hlink
  | remove _ _ order p hguard => exact fun hlink => absurd (hguard hedit) hlink
  | link => exact hq
  | addReady _ _ p task hrun => exact fun hlink => absurd (hq.not_running hrun) hlink
  | dropReady _ _ p task hrun => exact fun hlink => absurd (hq.not_running hrun) hlink
  | succeed _ _ _ p task err hrun _ hc' =>
      subst hc'
      exact fun hlink => absurd (hq.not_running hrun) hlink
  | fail _ _ _ p task status err hrun _ hc' =>
      subst hc'
      exact fun hlink => absurd (hq.not_running hrun) hlink
  | reap =>
      intro hlink
      obtain ⟨hpending, hrunning, hready⟩ := hq hlink
      refine ⟨hpending, ?_, hready⟩
      simp only [hrunning]
      rfl
  | start _ _ pending rest hpending _ =>
      intro hlink
      obtain ⟨hnil, _⟩ := hq hlink
      simp [hpending] at hnil
  | takeRequest => exact hq
  | defer => exact hq
  | linkStart _ _ process task _ _ hrunning hpending _ hready _ =>
      intro _
      refine ⟨hpending.resolve_left ?_, hrunning, c, rfl, rfl⟩
      exact fun hn => hready (hc.ready_empty hn)
  | refuse => exact hq
  | report _ _ task status sourceFilePaths err _ _ =>
      simp only [history_cons, History.next]
      split
      · exact hq
      · exact hq
  | reset _ _ _ task status _ _ hc' =>
      subst hc'
      exact fun hlink => absurd rfl hlink

end Quiet

namespace Reached

theorem quiet (h : Reached d c t) (hedit : d.editGuarded) : Quiet c (history t) := by
  have hboth : Coherent d c (history t) ∧ Quiet c (history t) := by
    refine h.invariant (I := fun c t => Coherent d c (history t) ∧ Quiet c (history t))
      ⟨Coherent.initial d, by simp [Quiet]⟩ ?_
    rintro c t c' t' hstep ⟨hc, hq⟩
    exact ⟨hc.step hstep, hq.step hedit hc hstep⟩
  exact hboth.2

end Reached

theorem mem_of_listsReady {sourceFilePaths : List String} {h : History} {p : String}
    (hc : Coherent d c h) (hsources : ListsReady c sourceFilePaths) :
    p ∈ sourceFilePaths ↔ p ∈ c.readyCompilationUnits := by
  obtain ⟨order, rfl⟩ := hsources
  rw [List.mem_map]
  constructor
  · rintro ⟨cu, hcu, rfl⟩
    obtain ⟨q, hq⟩ := (Session.mem_readyList order c cu).mp hcu
    rw [hc.ready_key q cu hq]
    exact Finmap.mem_of_lookup_eq_some hq
  · intro hp
    obtain ⟨cu, hcu⟩ := Finmap.mem_iff.mp hp
    exact ⟨cu, (Session.mem_readyList order c cu).mpr ⟨p, hcu⟩, hc.ready_key p cu hcu⟩

/-- At a successful end of a link, every dirty path that compiled is on the list,
and none is pending or running. -/
def ReportsDirty (c : Compiler) : Event → CompilerTrace → Prop
  | .linkFinished _ status _ sourceFilePaths _, t =>
      status = 0 →
        (∀ p ∈ (history t).dirty, (history t).latest p = some 0 → p ∈ sourceFilePaths) ∧
          ∀ p ∈ (history t).dirty, p ∉ c.pendingPaths ∧ p ∉ c.runningCompilationTasks
  | _, _ => True

/-- A link or load attempt that ends with a status other than `0` leaves the ready
units as they were when its process was started. -/
def KeepsReady (c : Compiler) : Event → CompilerTrace → Prop
  | .linkTaskReset status, t =>
      status ≠ 0 → ∃ c₀, (history t).linkStart = some c₀ ∧
        c.readyCompilationUnits = c₀.readyCompilationUnits
  | _, _ => True

/-- A link process is only started while none is running. -/
def StartsIdle (c : Compiler) : Event → CompilerTrace → Prop
  | .linkStarted _, _ => c.runningLinkTask = none
  | _, _ => True

namespace Reached

theorem startsIdle (h : Reached d c t) (hlink : d.linkGuarded) : Always StartsIdle t := by
  refine h.always ?_
  intro c t c₀ e _ hemits
  cases e with
  | linkStarted process =>
      obtain ⟨rfl, hidle, _⟩ := hemits
      exact hidle hlink
  | _ => trivial

theorem reportsDirty (h : Reached d c t) (hedit : d.editGuarded) : Always ReportsDirty t := by
  refine h.always ?_
  intro c t c₀ e hreached hemits
  cases e with
  | linkFinished callback status libPath sourceFilePaths err =>
      obtain ⟨rfl, hlink, hsources⟩ := hemits
      obtain ⟨hpending, hrunning, _⟩ := hreached.quiet hedit hlink
      have hnone : ∀ p, p ∉ c₀.pendingPaths ∧ p ∉ c₀.runningCompilationTasks := by
        intro p
        refine ⟨by simp [Compiler.pendingPaths, hpending], ?_⟩
        rw [hrunning]
        exact Finmap.notMem_empty
      refine fun _ => ⟨?_, fun p _ => hnone p⟩
      intro p hp hlatest
      rw [mem_of_listsReady hreached.coherent hsources]
      rcases hreached.coherent.dirty_held p hp hlatest with hpend | hrun | hready
      · exact absurd hpend (hnone p).1
      · exact absurd hrun (hnone p).2
      · exact hready
  | _ => trivial

theorem keepsReady (h : Reached d c t) (hedit : d.editGuarded) : Always KeepsReady t := by
  refine h.always ?_
  intro c t c₀ e hreached hemits
  cases e with
  | linkTaskReset status =>
      obtain ⟨hlink, hready⟩ := hemits
      obtain ⟨_, _, start, hstart, hsame⟩ := hreached.quiet hedit hlink
      exact fun hstatus => ⟨start, hstart, (hready hstatus).trans hsame⟩
  | _ => trivial

end Reached

namespace Run

variable {W : Type*} {host : Host W} {s : Session W}

/-- The scheduler: no path is pending twice or both pending and running, there are
never more running compilations than workers, and if `link` is not called while a
link process is running, then no link is requested beside a running one and no
link process replaces another. -/
theorem scheduler_invariant (h : Run host d s) :
    s.compiler.pendingPaths.Nodup ∧
      (∀ p ∈ s.compiler.pendingPaths, p ∉ s.compiler.runningCompilationTasks) ∧
      s.compiler.runningCompilationTasks.keys.card ≤ d.config.workerThreadsCount ∧
      (d.linkGuarded → s.compiler.Exclusive ∧ Always StartsIdle s.trace) := by
  have hc := h.reached.coherent
  refine ⟨hc.pending_nodup, hc.pending_not_running, hc.running.card, fun hlink => ?_⟩
  exact ⟨h.reached.exclusive hlink, h.reached.startsIdle hlink⟩

end Run

/-- A unit is compiled and linked, and the link process ends with the given status. -/
def linkedRun (status : ℤ) : Session Unit :=
  .after [.compile { sourceFilePath := "/p/a.cpp", objFilePath := "/p/a.o" } .nothing,
    .update (.finished "" 0), .link none, .update (.finished "/p/a.cpp" 0),
    .update { Environment.finished "" 0 with linkExitStatus := some (status, "") }]

theorem linkedRun_gated (status : ℤ) : Run Host.idle (.gated {}) (linkedRun status) :=
  (Run.start ()).calls _
    ⟨⟨fun _ => rfl, fun h => h.elim⟩, trivial, fun _ => rfl, trivial, trivial, trivial⟩

theorem linkedRun_scheduled :
    (linkedRun 0).compiler.pendingPaths.Nodup ∧
      (∀ p ∈ (linkedRun 0).compiler.pendingPaths,
        p ∉ (linkedRun 0).compiler.runningCompilationTasks) ∧
      (linkedRun 0).compiler.runningCompilationTasks.keys.card ≤ 4 ∧
      (linkedRun 0).compiler.Exclusive ∧ Always StartsIdle (linkedRun 0).trace := by
  obtain ⟨hnodup, hdisjoint, hcard, hlink⟩ := Run.scheduler_invariant (linkedRun_gated 0)
  exact ⟨hnodup, hdisjoint, hcard, hlink trivial⟩

namespace Run

/-- No modification is lost: a successful link reports every dirty path that
compiled and leaves none behind, and an unsuccessful one keeps the ready units. -/
theorem no_lost_modification {config : LiveConfig} (h : Run host (.gated config) s) :
    Always ReportsDirty s.trace ∧ Always KeepsReady s.trace :=
  ⟨h.reached.reportsDirty trivial, h.reached.keepsReady trivial⟩

end Run

/-- The link process fails and the unit stays ready. -/
theorem linkedRun_keeps_modification :
    "/p/a.cpp" ∈ (linkedRun 1).compiler.readyCompilationUnits ∧
      Always ReportsDirty (linkedRun 1).trace ∧ Always KeepsReady (linkedRun 1).trace :=
  ⟨by decide +kernel, Run.no_lost_modification (linkedRun_gated 1)⟩

end JetLive

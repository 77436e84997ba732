import JetLive.Compiler.ThreadRefinement

/-!
# The threads do not block each other

The main thread waits at three kinds of places: for the mutex, for the reader of a process it
has killed or seen exit, and for the reader of the link process. It never waits for a reader
while it holds the mutex, so the readers can always go on; and once a process has closed its
pipe, its reader comes to an end. From every state of a run the processes and their readers
can therefore bring the main thread to its next step.
-/

namespace JetLive

open Containers ChildProcesses

namespace Threads

variable {W : Type*} {host : Host W} {d : Discipline} {s s' s'' : Threads W}

/-- The processes and the readers get from one state to another, without a fault and without a
step of the main thread. -/
structure Leads (s s' : Threads W) : Prop where
  steps : Relation.ReflTransGen Background s s'
  main : s'.main = s.main
  fault : s'.fault = s.fault

namespace Leads

theorem refl (s : Threads W) : Leads s s := ⟨.refl, rfl, rfl⟩

theorem trans (h : Leads s s') (h' : Leads s' s'') : Leads s s'' :=
  ⟨h.steps.trans h'.steps, h'.main.trans h.main, h'.fault.trans h.fault⟩

theorem step (hstep : Background s s') (hmain : s'.main = s.main) (hfault : s'.fault = s.fault) :
    Leads s s' :=
  ⟨.single hstep, hmain, hfault⟩

theorem ok (h : Leads s s') (hs : s.Ok host d) : s'.Ok host d := by
  have hsteps := h.steps
  clear h
  induction hsteps with
  | refl => exact hs
  | tail _ hstep ih => exact ih.background hstep

end Leads

/-! ## The callback -/

section Callback

variable {pid : ℕ} {bytes : String}

theorem exists_acquired (hcalling : (s.children pid).reader = .calling bytes)
    (hfree : s.mutex = none) :
    ∃ s', Leads s s' ∧ (s'.children pid).reader = .inside bytes ∧
      (s'.children pid).pipe = (s.children pid).pipe := by
  refine ⟨_, .step (.acquire s pid bytes hcalling hfree) rfl rfl, ?_, ?_⟩
  · simp [setChild, Child.enter]
  · simp [setChild, Child.enter]

theorem exists_delivered (hinside : (s.children pid).reader = .inside bytes) :
    ∃ s', Leads s s' ∧ (s'.children pid).reader = .leaving ∧
      (s'.children pid).pipe = (s.children pid).pipe := by
  refine ⟨_, .step (.deliver s pid bytes hinside) ?_ ?_, ?_, ?_⟩
  · simp [setChild]
  · simp [setChild]
  · simp [setChild, Child.deliver]
  · simp [setChild, Child.deliver]

theorem exists_released (hleaving : (s.children pid).reader = .leaving) :
    ∃ s', Leads s s' ∧ s'.mutex = none ∧ (s'.children pid).reader = .reading ∧
      (s'.children pid).pipe = (s.children pid).pipe := by
  refine ⟨_, .step (.release s pid hleaving) rfl rfl, rfl, ?_, ?_⟩
  · simp [setChild, Child.leave]
  · simp [setChild, Child.leave]

/-- A reader inside of its callback comes back to reading. -/
theorem exists_returned (hinside : (s.children pid).reader = .inside bytes) :
    ∃ s', Leads s s' ∧ s'.mutex = none ∧ (s'.children pid).reader = .reading ∧
      (s'.children pid).pipe = (s.children pid).pipe := by
  obtain ⟨s₁, hdelivered, hleaving, hpipe₁⟩ := exists_delivered hinside
  obtain ⟨s₂, hreleased, hfree, hreading, hpipe₂⟩ := exists_released hleaving
  exact ⟨s₂, hdelivered.trans hreleased, hfree, hreading, hpipe₂.trans hpipe₁⟩

/-- A reader that waits for the mutex runs its callback. -/
theorem exists_called (hcalling : (s.children pid).reader = .calling bytes)
    (hfree : s.mutex = none) :
    ∃ s', Leads s s' ∧ s'.mutex = none ∧ (s'.children pid).reader = .reading ∧
      (s'.children pid).pipe = (s.children pid).pipe := by
  obtain ⟨s₁, hacquired, hinside, hpipe₁⟩ := exists_acquired hcalling hfree
  obtain ⟨s₂, hreturned, hfree₂, hreading, hpipe₂⟩ := exists_returned hinside
  exact ⟨s₂, hacquired.trans hreturned, hfree₂, hreading, hpipe₂.trans hpipe₁⟩

end Callback

/-! ## What the main thread waits for -/

/-- A reader that has the mutex gives it back. -/
theorem exists_free (h : s.Ok host d) (hmain : ¬ s.main.HasMutex) :
    ∃ s', Leads s s' ∧ s'.mutex = none := by
  cases hmutex : s.mutex with
  | none => exact ⟨s, .refl s, hmutex⟩
  | some holder =>
      cases holder with
      | main => exact absurd (h.lock.main.mp hmutex) hmain
      | reader pid =>
          have hreader := (h.lock.reader pid).mp hmutex
          cases hpos : (s.children pid).reader with
          | inside bytes =>
              obtain ⟨t, hleads, hfree, -⟩ := exists_returned hpos
              exact ⟨t, hleads, hfree⟩
          | leaving =>
              obtain ⟨t, hleads, hfree, -⟩ := exists_released hpos
              exact ⟨t, hleads, hfree⟩
          | reading | calling | ended => simp [hpos] at hreader

/-- A reader that is reading while the mutex is free comes to its end: it reads what is left,
and then the process closes the pipe. -/
theorem exists_ended_of_reading {pid : ℕ} (hfree : s.mutex = none)
    (hreading : (s.children pid).reader = .reading) :
    ∃ s', Leads s s' ∧ (s'.children pid).reader = .ended := by
  have hread : ∃ s₁, Leads s s₁ ∧ s₁.mutex = none ∧
      (s₁.children pid).reader = .calling (s.children pid).pipe ∧ (s₁.children pid).pipe = "" := by
    refine ⟨_, .step (.child s pid _ (.read _ (s.children pid).pipe "" hreading (by simp))) rfl rfl,
      hfree, ?_, ?_⟩
    · simp [setChild]
    · simp [setChild]
  obtain ⟨s₁, hleads₁, hfree₁, hcalling, hpipe₁⟩ := hread
  obtain ⟨s₂, hleads₂, -, hreading₂, hpipe₂⟩ := exists_called hcalling hfree₁
  have hhangUp : ∃ s₃, Leads s₂ s₃ ∧
      s₃.children pid = { s₂.children pid with hungUp := true } :=
    ⟨_, .step (.child s₂ pid _ (.hangUp _)) rfl rfl, by simp [setChild]⟩
  obtain ⟨s₃, hleads₃, hchild⟩ := hhangUp
  refine ⟨_, ((hleads₁.trans hleads₂).trans hleads₃).trans
    (.step (.child s₃ pid _ (.close _ ?_ ?_ ?_)) rfl rfl), ?_⟩
  · rw [hchild]
    exact hreading₂
  · rw [hchild]
    exact hpipe₂.trans hpipe₁
  · rw [hchild]
  · simp [setChild]

/-- Every reader comes to its end while the main thread does not hold the mutex. -/
theorem exists_ended (h : s.Ok host d) (hmain : ¬ s.main.HasMutex) (pid : ℕ) :
    ∃ s', Leads s s' ∧ (s'.children pid).reader = .ended := by
  obtain ⟨s₁, hleads₁, hfree₁⟩ := exists_free h hmain
  have hreader := ((hleads₁.ok h).lock.reader pid).not.mp (by simp [hfree₁])
  cases hpos : (s₁.children pid).reader with
  | ended => exact ⟨s₁, hleads₁, hpos⟩
  | reading =>
      obtain ⟨s₂, hleads₂, hended⟩ := exists_ended_of_reading hfree₁ hpos
      exact ⟨s₂, hleads₁.trans hleads₂, hended⟩
  | calling bytes =>
      obtain ⟨s₂, hleads₂, hfree₂, hreading, -⟩ := exists_called hpos hfree₁
      obtain ⟨s₃, hleads₃, hended⟩ := exists_ended_of_reading hfree₂ hreading
      exact ⟨s₃, (hleads₁.trans hleads₂).trans hleads₃, hended⟩
  | inside | leaving => simp [hpos] at hreader

/-- The reader of a link process whose task is stored comes to its end. -/
theorem exists_linker_ended (h : s.Ok host d) (htask : s.linkMessage ≠ none) :
    ∃ s', Leads s s' ∧ s'.linker.reader = .ended := by
  -- a callback leaves the task in its place, so it can be run again
  have hcall : ∀ (t : Threads W) (bytes : String), t.linkMessage ≠ none →
      t.linker.reader = .calling bytes → ∃ t', Leads t t' ∧ t'.linkMessage ≠ none ∧
        t'.linker.reader = .reading ∧ t'.linker.pipe = t.linker.pipe := by
    intro t bytes hmessage hcalling
    obtain ⟨err, herr⟩ := Option.ne_none_iff_exists'.mp hmessage
    exact ⟨_, .step (.deliverLink t bytes err hcalling herr) rfl rfl, by simp, rfl, rfl⟩
  have hend : ∀ t : Threads W, t.linkMessage ≠ none → t.linker.reader = .reading →
      ∃ t', Leads t t' ∧ t'.linker.reader = .ended := by
    intro t hmessage hreading
    have hread := Background.linker t _ (.read _ t.linker.pipe "" hreading (by simp))
    obtain ⟨t₂, hleads₂, -, hreading₂, hpipe₂⟩ := hcall
      { t with linker := { t.linker with pipe := "", reader := .calling t.linker.pipe } }
      t.linker.pipe hmessage rfl
    have hhangUp := Background.linker t₂ _ (.hangUp _)
    have hclose := Background.linker { t₂ with linker := { t₂.linker with hungUp := true } } _
      (.close _ hreading₂ hpipe₂ rfl)
    exact ⟨_, (((Leads.step hread rfl rfl).trans hleads₂).trans (.step hhangUp rfl rfl)).trans
      (.step hclose rfl rfl), rfl⟩
  have hreader := h.link.unlocked
  cases hpos : s.linker.reader with
  | ended => exact ⟨s, .refl s, hpos⟩
  | reading => exact hend s htask hpos
  | calling bytes =>
      obtain ⟨t, hleads, hmessage, hreading, -⟩ := hcall s bytes htask hpos
      obtain ⟨t', hleads', hended⟩ := hend t hmessage hreading
      exact ⟨t', hleads.trans hleads', hended⟩
  | inside | leaving => simp [hpos] at hreader

/-- The main thread can be brought to its next step. -/
theorem exists_main (h : s.Ok host d) : ∃ s', Leads s s' ∧ ∃ s'', Main host d s' s'' := by
  have hplaced := h.tasks.placed
  cases hpos : s.main with
  | idle => exact ⟨s, .refl s, _, .update s (.finished "" 0) hpos⟩
  | locking edit =>
      obtain ⟨t, hleads, hfree⟩ := exists_free h (by simp [hpos, MainThread.HasMutex])
      exact ⟨t, hleads, _, .lock t edit (hleads.main.trans hpos) hfree⟩
  | locked edit =>
      cases htask : s.runningCompilationTasks.lookup edit.path with
      | none => exact ⟨s, .refl s, _, .notFound s edit hpos htask⟩
      | some task => exact ⟨s, .refl s, _, .found s edit task hpos htask⟩
  | killing edit pid => exact ⟨s, .refl s, _, .kill s edit pid hpos⟩
  | joining edit pid =>
      obtain ⟨t, hleads, hended⟩ := exists_ended h (by simp [hpos, MainThread.HasMutex]) pid
      exact ⟨t, hleads, _, .joined t edit pid (hleads.main.trans hpos) hended⟩
  | relocking edit =>
      obtain ⟨t, hleads, hfree⟩ := exists_free h (by simp [hpos, MainThread.HasMutex])
      exact ⟨t, hleads, _, .relock t edit (hleads.main.trans hpos) hfree⟩
  | editing edit => exact ⟨s, .refl s, _, .edit s edit hpos⟩
  | polling env keys =>
      cases keys with
      | nil => exact ⟨s, .refl s, _, .sweep s env hpos⟩
      | cons key keys =>
          rw [Placed, hpos] at hplaced
          obtain ⟨task, htask⟩ := Finmap.mem_iff.mp (hplaced.2 key List.mem_cons_self)
          cases hexit : (s.children task.process).exitStatus with
          | none => exact ⟨s, .refl s, _, .pollRunning s env key keys task hpos htask hexit⟩
          | some status =>
              exact ⟨s, .refl s, _, .pollExited s env key keys task status hpos htask hexit⟩
  | awaiting env key pid status keys =>
      obtain ⟨t, hleads, hended⟩ := exists_ended h (by simp [hpos, MainThread.HasMutex]) pid
      have hpos' := hleads.main.trans hpos
      have hplaced' := (hleads.ok h).tasks.placed
      rw [Placed, hpos'] at hplaced'
      obtain ⟨-, ⟨err, htask⟩, -⟩ := hplaced'
      exact ⟨t, hleads, _, .report t env key pid status keys ⟨pid, err⟩ hpos' hended htask⟩
  | starting env t =>
      by_cases hdone : t.compiler.pendingCompilationTasks = [] ∨
          ¬ s.runningCompilationTasks.keys.card < d.config.workerThreadsCount
      · exact ⟨s, .refl s, _, .allStarted s env t hpos hdone⟩
      · rw [not_or, not_not] at hdone
        obtain ⟨pendingTask, rest, hpending⟩ := List.exists_cons_of_ne_nil hdone.1
        exact ⟨s, .refl s, _, .fork s env t pendingTask rest hpos hpending hdone.2⟩
  | entering env t pid pendingTask => exact ⟨s, .refl s, _, .enter s env t pid pendingTask hpos⟩
  | deciding env t =>
      obtain ⟨s', hleads, hfree⟩ := exists_free h (by simp [hpos, MainThread.HasMutex])
      by_cases hlink : StartsLink host d.config env t
      · exact ⟨s', hleads, _, .forkLinker s' env t (hleads.main.trans hpos) hfree hlink⟩
      · exact ⟨s', hleads, _, .decide s' env t (hleads.main.trans hpos) hfree hlink⟩
  | installing env t => exact ⟨s, .refl s, _, .install s env t hpos⟩
  | finishing env t =>
      cases hlinking : t.compiler.isLinking with
      | false => exact ⟨s, .refl s, _, .finish s env t hpos (Or.inl hlinking)⟩
      | true =>
          cases hexit : s.linker.exitStatus with
          | none => exact ⟨s, .refl s, _, .finish s env t hpos (Or.inr hexit)⟩
          | some status =>
              exact ⟨s, .refl s, _, .pollLinker s env t status hpos hlinking hexit⟩
  | awaitingLink env t status =>
      obtain ⟨s', hleads, hended⟩ :=
        exists_linker_ended h (h.link.awaited env t status hpos).2
      have hpos' := hleads.main.trans hpos
      obtain ⟨err, herr⟩ := Option.ne_none_iff_exists'.mp
        ((hleads.ok h).link.awaited env t status hpos').2
      exact ⟨s', hleads, _, .reportLink s' env t status err hpos' hended herr⟩

end Threads

namespace ThreadedRun

variable {W : Type*} {host : Host W} {d : Discipline} {s : Threads W}

/-- No run of the threads gets stuck. -/
theorem never_stuck (h : ThreadedRun host d s) :
    ∃ s', Threads.Leads s s' ∧ ∃ s'', Threads.Main host d s' s'' :=
  Threads.exists_main h.ok

theorem never_stuck_waiting : ∃ s : Threads Unit,
    (s.mutex = some (.reader 0) ∧
      s.main = .locking (.compile { sourceFilePath := "a.cpp" } .nothing)) ∧
      ∃ s', Threads.Leads s s' ∧ ∃ s'', Threads.Main Host.idle (.linkGated {}) s' s'' := by
  obtain ⟨s, hrun, _, hmutex, hmain⟩ := exists_threadedRun.1
  exact ⟨s, ⟨hmutex, hmain⟩, hrun.never_stuck⟩

end ThreadedRun

end JetLive

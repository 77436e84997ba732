import JetLive.Compiler.Step

/-!
# The invariant of the compiler

`Coherent d c h` ties the state `c` of the compiler to the history `h` of its
trace: the pending list and the running map are disjoint and within their bounds,
every container is keyed by source paths, a dirty path is still held by the
compiler unless its latest compilation failed, and a removed path is not held.

Each small step changes few fields, so there is one lemma for each kind of
change, and `Coherent.step` collects them.
-/

namespace JetLive

open Containers

namespace Compiler

@[simp] theorem mem_pendingPaths_enqueue (c : Compiler) (cu : CompilationUnit)
    (callback : FinishCallback) (p : String) :
    p ∈ (c.enqueue cu callback).pendingPaths ↔
      p ∈ c.pendingPaths ∨ p = cu.sourceFilePath := by
  simp only [pendingPaths, enqueue, List.map_append, List.mem_append, List.mem_map,
    List.mem_filter, List.map_cons, List.map_nil, List.mem_singleton]
  constructor
  · rintro (⟨task, ⟨htask, _⟩, rfl⟩ | rfl)
    · exact Or.inl ⟨task, htask, rfl⟩
    · exact Or.inr rfl
  · rintro (⟨task, htask, rfl⟩ | rfl)
    · by_cases h : task.cu.sourceFilePath = cu.sourceFilePath
      · exact Or.inr h
      · exact Or.inl ⟨task, ⟨htask, by simpa using h⟩, rfl⟩
    · exact Or.inr rfl

theorem pendingPaths_enqueue (c : Compiler) (cu : CompilationUnit)
    (callback : FinishCallback) :
    (c.enqueue cu callback).pendingPaths =
      c.pendingPaths.filter (· ≠ cu.sourceFilePath) ++ [cu.sourceFilePath] := by
  simp only [pendingPaths, enqueue, List.map_append, List.map_cons, List.map_nil,
    List.filter_map]
  rfl

@[simp] theorem pendingPaths_dequeue (c : Compiler) (order : Iteration String) (p : String) :
    (c.dequeue order p).pendingPaths = c.pendingPaths.filter (· ≠ p) := by
  simp only [pendingPaths, dequeue, List.filter_map]
  rfl

/-- With the ready units stored under their source paths, the search of `remove`
finds the unit itself. -/
theorem dequeue_ready {c : Compiler} (order : Iteration String) (p : String)
    (hkey : ∀ q cu, c.readyCompilationUnits.lookup q = some cu → cu.sourceFilepath = q) :
    (c.dequeue order p).readyCompilationUnits = c.readyCompilationUnits.erase p := by
  have hany : ∀ q, (c.readyCompilationUnits.lookup q).any
      (fun cu => cu.sourceFilepath = p) = true → q = p := by
    intro q hq
    cases hcu : c.readyCompilationUnits.lookup q with
    | none => simp [hcu] at hq
    | some cu => exact (hkey q cu hcu).symm.trans (by simpa [hcu] using hq)
  unfold dequeue findReady
  cases hfind : (order.toList c.readyCompilationUnits.keys).find? fun key =>
      (c.readyCompilationUnits.lookup key).any fun cu => cu.sourceFilepath = p with
  | some q =>
      have hq := List.find?_some hfind
      simp only [hany q hq]
  | none =>
      apply Finmap.ext_lookup
      intro q
      by_cases hq : q = p
      · subst hq
        simp only [Finmap.lookup_erase, Finmap.lookup_eq_none]
        intro hmem
        obtain ⟨cu, hcu⟩ := Finmap.mem_iff.mp hmem
        have hnone := List.find?_eq_none.mp hfind q (by simpa [Finmap.mem_keys] using hmem)
        exact hnone (by simp [hcu, hkey q cu hcu])
      · simp [Finmap.lookup_erase_ne hq]


/-! ### The held paths -/

theorem not_holds_initial (p : String) : ¬ ({} : Compiler).Holds p := by
  rintro (hpend | hrun | hready)
  · exact List.not_mem_nil hpend
  · exact Finmap.notMem_empty hrun
  · exact Finmap.notMem_empty hready

theorem holds_enqueue (c : Compiler) (cu : CompilationUnit) (callback : FinishCallback)
    (p : String) : (c.enqueue cu callback).Holds p ↔ p = cu.sourceFilePath ∨ c.Holds p := by
  unfold Holds
  rw [mem_pendingPaths_enqueue]
  simp only [enqueue, Finmap.mem_erase]
  tauto

theorem holds_dequeue {c : Compiler} (order : Iteration String) (p q : String)
    (hkey : ∀ q cu, c.readyCompilationUnits.lookup q = some cu → cu.sourceFilepath = q) :
    (c.dequeue order p).Holds q ↔ q ≠ p ∧ c.Holds q := by
  unfold Holds
  rw [dequeue_ready order p hkey, pendingPaths_dequeue]
  simp only [dequeue, List.mem_filter, Finmap.mem_erase, ne_eq, decide_not,
    Bool.not_eq_eq_eq_not, Bool.not_true, decide_eq_false_iff_not]
  tauto

/-- A source that becomes ready is still running. -/
theorem holds_addReady {c : Compiler} {p : String} (hp : p ∈ c.runningCompilationTasks)
    (cu : ShortCompilationUnit) (q : String) :
    Holds { c with readyCompilationUnits := c.readyCompilationUnits.insert p cu } q ↔
      c.Holds q := by
  simp only [Holds, pendingPaths, Finmap.mem_insert]
  constructor
  · rintro (hpend | hrun | rfl | hready)
    · exact Or.inl hpend
    · exact Or.inr (Or.inl hrun)
    · exact Or.inr (Or.inl hp)
    · exact Or.inr (Or.inr hready)
  · tauto

/-- A pending source becomes a running one. -/
theorem holds_start {c : Compiler} {pending : PendingCompilationTask}
    {rest : List PendingCompilationTask} (hpending : c.pendingCompilationTasks = pending :: rest)
    (task : Task) (q : String) :
    Holds { c with
      runningCompilationTasks := c.runningCompilationTasks.insert pending.cu.sourceFilePath task
      pendingCompilationTasks := rest } q ↔ c.Holds q := by
  simp only [Holds, pendingPaths, hpending, List.map_cons, List.mem_cons, Finmap.mem_insert]
  tauto

/-- The running compilations: at most `n` of them, each stored under the path of its
source and with its file name. -/
structure RunningOk (n : ℕ) (running : UnorderedMap String Task) : Prop where
  card : running.keys.card ≤ n
  key : ∀ p task, running.lookup p = some task → task.cuOrLibFilepath = p
  filename : ∀ p task, running.lookup p = some task → task.filename = TeenyPath.filenameOf p

namespace RunningOk

variable {n : ℕ} {running : UnorderedMap String Task}

theorem erase (h : RunningOk n running) (p : String) : RunningOk n (running.erase p) := by
  have hlookup : ∀ q task, (running.erase p).lookup q = some task →
      running.lookup q = some task := by
    intro q task hq
    have hne : q ≠ p := by
      rintro rfl
      simp at hq
    simpa [Finmap.lookup_erase_ne hne] using hq
  refine ⟨?_, fun q task hq => h.key q task (hlookup q task hq),
    fun q task hq => h.filename q task (hlookup q task hq)⟩
  rw [Finmap.keys_erase]
  exact Finset.card_erase_le.trans h.card

theorem insert (h : RunningOk n running) (hcard : running.keys.card < n)
    (cu : CompilationUnit) (callback : FinishCallback) :
    RunningOk n (running.insert cu.sourceFilePath (compilationTask cu callback)) := by
  have hlookup : ∀ q task,
      (running.insert cu.sourceFilePath (compilationTask cu callback)).lookup q = some task →
      (q = cu.sourceFilePath ∧ task = compilationTask cu callback) ∨
        running.lookup q = some task := by
    intro q task hq
    by_cases heq : q = cu.sourceFilePath
    · subst heq
      exact Or.inl ⟨rfl, by simpa using hq.symm⟩
    · exact Or.inr (by simpa [Finmap.lookup_insert_of_ne _ heq] using hq)
  refine ⟨?_, ?_, ?_⟩
  · have hkeys : (running.insert cu.sourceFilePath (compilationTask cu callback)).keys =
        Insert.insert cu.sourceFilePath running.keys := by
      ext q
      simp [Finmap.mem_keys, Finmap.mem_insert]
    rw [hkeys]
    exact (Finset.card_insert_le _ _).trans hcard
  · intro q task hq
    rcases hlookup q task hq with ⟨rfl, rfl⟩ | hq
    · rfl
    · exact h.key q task hq
  · intro q task hq
    rcases hlookup q task hq with ⟨rfl, rfl⟩ | hq
    · rfl
    · exact h.filename q task hq

/-- Without workers nothing is ever running. -/
theorem lookup_eq_none (h : RunningOk 0 running) (p : String) : running.lookup p = none := by
  rw [Finmap.lookup_eq_none, ← Finmap.mem_keys, Finset.card_eq_zero.mp (Nat.le_zero.mp h.card)]
  exact Finset.notMem_empty p

end RunningOk

end Compiler

/-- The state of the compiler agrees with the history of its trace. -/
structure Coherent (d : Discipline) (c : Compiler) (h : History) : Prop where
  pending_nodup : c.pendingPaths.Nodup
  pending_not_running : ∀ p ∈ c.pendingPaths, p ∉ c.runningCompilationTasks
  running : Compiler.RunningOk d.config.workerThreadsCount c.runningCompilationTasks
  ready_key : ∀ p cu, c.readyCompilationUnits.lookup p = some cu → cu.sourceFilepath = p
  ready_empty : d.config.workerThreadsCount = 0 → c.readyCompilationUnits = ∅
  dirty_held : ∀ p ∈ h.dirty, h.latest p = some 0 → c.Holds p
  removed_gone : ∀ p ∈ h.removed, ¬ c.Holds p

namespace Coherent

variable {d : Discipline} {c : Compiler} {h : History}

theorem initial (d : Discipline) : Coherent d {} {} where
  pending_nodup := List.nodup_nil
  pending_not_running := by simp [Compiler.pendingPaths]
  running := ⟨by simp, by simp, by simp⟩
  ready_key := by simp
  ready_empty := fun _ => rfl
  dirty_held := by simp
  removed_gone := by simp

theorem enqueue (hc : Coherent d c h) (c₀ : Compiler) (cu : CompilationUnit)
    (callback : FinishCallback) :
    Coherent d (c.enqueue cu callback) (h.next c₀ (.compile cu)) :=
  { hc with
    pending_nodup := by
      rw [Compiler.pendingPaths_enqueue]
      refine List.Nodup.append (hc.pending_nodup.filter _) (List.nodup_singleton _) ?_
      simp
    pending_not_running := by
      intro p hp hrun
      obtain ⟨hne, hrun⟩ := Finmap.mem_erase.mp hrun
      rcases (Compiler.mem_pendingPaths_enqueue _ _ _ _).mp hp with hp | rfl
      · exact hc.pending_not_running p hp hrun
      · exact hne rfl
    running := hc.running.erase cu.sourceFilePath
    dirty_held := by
      intro p hp hlatest
      by_cases hne : p = cu.sourceFilePath
      · exact (Compiler.holds_enqueue _ _ _ _).mpr (Or.inl hne)
      · have hp : p ∈ h.dirty := (Finset.mem_insert.mp hp).resolve_left hne
        exact (Compiler.holds_enqueue _ _ _ _).mpr (Or.inr (hc.dirty_held p hp hlatest))
    removed_gone := by
      intro p hp hheld
      obtain ⟨hne, hp⟩ := Finset.mem_erase.mp hp
      rcases (Compiler.holds_enqueue _ _ _ _).mp hheld with heq | hheld
      · exact hne heq
      · exact hc.removed_gone p hp hheld }

theorem dequeue (hc : Coherent d c h) (c₀ : Compiler) (order : Iteration String) (p : String) :
    Coherent d (c.dequeue order p) (h.next c₀ (.remove p)) := by
  have hready := Compiler.dequeue_ready order p hc.ready_key
  have hholds (q : String) := Compiler.holds_dequeue order p q hc.ready_key
  refine ⟨?_, ?_, hc.running.erase p, ?_, ?_, ?_, ?_⟩
  · rw [Compiler.pendingPaths_dequeue]
    exact hc.pending_nodup.filter _
  · intro q hq hrun
    rw [Compiler.pendingPaths_dequeue] at hq
    exact hc.pending_not_running q (List.mem_of_mem_filter hq) (Finmap.mem_erase.mp hrun).2
  · intro q cu hq
    rw [hready] at hq
    have hne : q ≠ p := by
      rintro rfl
      simp at hq
    exact hc.ready_key q cu (by simpa [Finmap.lookup_erase_ne hne] using hq)
  · intro hn
    rw [hready, hc.ready_empty hn]
    rfl
  · intro q hq hlatest
    obtain ⟨hne, hq⟩ := Finset.mem_erase.mp hq
    exact (hholds q).mpr ⟨hne, hc.dirty_held q hq hlatest⟩
  · intro q hq hq'
    obtain ⟨hne, hq'⟩ := (hholds q).mp hq'
    exact hc.removed_gone q ((Finset.mem_insert.mp hq).resolve_left hne) hq'

theorem addReady (hc : Coherent d c h) {p : String} {task : Task}
    (hrun : c.runningCompilationTasks.lookup p = some task) :
    Coherent d { c with
      readyCompilationUnits := c.readyCompilationUnits.insert task.cuOrLibFilepath
        ⟨task.cuOrLibFilepath, task.objFilepath⟩ } h := by
  have hmem : task.cuOrLibFilepath ∈ c.runningCompilationTasks := by
    rw [hc.running.key p task hrun]
    exact Finmap.mem_of_lookup_eq_some hrun
  have hholds (q : String) := Compiler.holds_addReady hmem
    ⟨task.cuOrLibFilepath, task.objFilepath⟩ q
  exact
    { hc with
      ready_key := by
        intro q cu hq
        by_cases heq : q = task.cuOrLibFilepath
        · subst heq
          have hcu : (⟨task.cuOrLibFilepath, task.objFilepath⟩ : ShortCompilationUnit) = cu := by
            simpa using hq
          rw [← hcu]
        · exact hc.ready_key q cu (by simpa [Finmap.lookup_insert_of_ne _ heq] using hq)
      ready_empty := by
        intro hn
        have hnone := Compiler.RunningOk.lookup_eq_none (hn ▸ hc.running) p
        rw [hnone] at hrun
        exact absurd hrun (by simp)
      dirty_held := fun q hq hlatest => (hholds q).mpr (hc.dirty_held q hq hlatest)
      removed_gone := fun q hq hheld => hc.removed_gone q hq ((hholds q).mp hheld) }

theorem dropReady (hc : Coherent d c h) {p : String} {task : Task}
    (hrun : c.runningCompilationTasks.lookup p = some task) :
    Coherent d { c with
      readyCompilationUnits := c.readyCompilationUnits.erase task.cuOrLibFilepath } h := by
  have hpath := hc.running.key p task hrun
  exact
    { hc with
      ready_key := by
        intro q cu hq
        have hne : q ≠ task.cuOrLibFilepath := by
          rintro rfl
          simp at hq
        exact hc.ready_key q cu (by simpa [Finmap.lookup_erase_ne hne] using hq)
      ready_empty := by
        intro hn
        simp only [hc.ready_empty hn]
        rfl
      dirty_held := by
        intro q hq hlatest
        by_cases hne : q = p
        · exact Or.inr (Or.inl (hne ▸ Finmap.mem_of_lookup_eq_some hrun))
        · rcases hc.dirty_held q hq hlatest with hpend | hrun | hready
          · exact Or.inl hpend
          · exact Or.inr (Or.inl hrun)
          · exact Or.inr (Or.inr (Finmap.mem_erase.mpr ⟨hpath ▸ hne, hready⟩))
      removed_gone := by
        intro q hq
        have hgone := hc.removed_gone q hq
        rintro (hpend | hrun | hready)
        · exact hgone (Or.inl hpend)
        · exact hgone (Or.inr (Or.inl hrun))
        · exact hgone (Or.inr (Or.inr (Finmap.mem_erase.mp hready).2)) }

/-- The end of a compilation that is still listed as running, whatever it does to
the set of failed files. -/
theorem compileFinished (hc : Coherent d c h) {p : String} {task : Task}
    (hrun : c.runningCompilationTasks.lookup p = some task) (c₀ : Compiler)
    (failed : List String) (callback : FinishCallback) (status : ℤ) (err : String) :
    Coherent d { c with failedCompilationUnits := failed }
      (h.next c₀ (.compileFinished callback status task.cuOrLibFilepath err)) :=
  { hc with
    dirty_held := by
      intro q hq hlatest
      by_cases hne : q = p
      · exact Or.inr (Or.inl (hne ▸ Finmap.mem_of_lookup_eq_some hrun))
      · refine hc.dirty_held q hq ?_
        rw [← hlatest, History.next, hc.running.key p task hrun]
        exact (Function.update_of_ne hne _ _).symm }

theorem reap (hc : Coherent d c h) {p : String} {status : ℤ}
    (hlatest : h.latest p = some status) (hready : status = 0 → p ∈ c.readyCompilationUnits) :
    Coherent d { c with runningCompilationTasks := c.runningCompilationTasks.erase p } h :=
  { hc with
    pending_not_running := by
      intro q hq hrun
      exact hc.pending_not_running q hq (Finmap.mem_erase.mp hrun).2
    running := hc.running.erase p
    dirty_held := by
      intro q hq hlatest'
      by_cases hne : q = p
      · subst hne
        have hstatus : status = 0 := Option.some_injective _ (hlatest.symm.trans hlatest')
        exact Or.inr (Or.inr (hready hstatus))
      · rcases hc.dirty_held q hq hlatest' with hpend | hrun | hready
        · exact Or.inl hpend
        · exact Or.inr (Or.inl (Finmap.mem_erase.mpr ⟨hne, hrun⟩))
        · exact Or.inr (Or.inr hready)
    removed_gone := by
      intro q hq
      have hgone := hc.removed_gone q hq
      rintro (hpend | hrun | hready)
      · exact hgone (Or.inl hpend)
      · exact hgone (Or.inr (Or.inl (Finmap.mem_erase.mp hrun).2))
      · exact hgone (Or.inr (Or.inr hready)) }

theorem start (hc : Coherent d c h) {pending : PendingCompilationTask}
    {rest : List PendingCompilationTask} (hpending : c.pendingCompilationTasks = pending :: rest)
    (hcard : c.runningCompilationTasks.keys.card < d.config.workerThreadsCount) :
    Coherent d { c with
      runningCompilationTasks := c.runningCompilationTasks.insert pending.cu.sourceFilePath
        (compilationTask pending.cu pending.finishCallback)
      pendingCompilationTasks := rest } h := by
  have hpaths : c.pendingPaths =
      pending.cu.sourceFilePath :: rest.map fun task => task.cu.sourceFilePath := by
    rw [Compiler.pendingPaths, hpending, List.map_cons]
  obtain ⟨hnot, hnodup⟩ := List.nodup_cons.mp (hpaths ▸ hc.pending_nodup)
  have hholds (q : String) := Compiler.holds_start hpending
    (compilationTask pending.cu pending.finishCallback) q
  exact
    { hc with
      pending_nodup := hnodup
      pending_not_running := by
        intro q hq hrun
        rcases Finmap.mem_insert.mp hrun with rfl | hrun
        · exact hnot hq
        · refine hc.pending_not_running q ?_ hrun
          rw [hpaths]
          exact List.mem_cons_of_mem _ hq
      running := hc.running.insert hcard pending.cu pending.finishCallback
      dirty_held := fun q hq hlatest => (hholds q).mpr (hc.dirty_held q hq hlatest)
      removed_gone := fun q hq hq' => hc.removed_gone q hq ((hholds q).mp hq') }

/-- The end of a link that has cleared the dirty paths empties the ready units. -/
theorem clear (hc : Coherent d c h) (hdirty : h.dirty = ∅) :
    Coherent d { c with runningLinkTask := none, readyCompilationUnits := ∅ } h :=
  { hc with
    ready_key := by simp
    ready_empty := fun _ => rfl
    dirty_held := by simp [hdirty]
    removed_gone := by
      intro q hq
      have hgone := hc.removed_gone q hq
      rintro (hpend | hrun | hready)
      · exact hgone (Or.inl hpend)
      · exact hgone (Or.inr (Or.inl hrun))
      · exact Finmap.notMem_empty hready }

theorem linkFinished (hc : Coherent d c h) (c₀ : Compiler) (callback : LinkFinishCallback)
    (status : ℤ) (libPath : String) (sourceFilePaths : List String) (err : String) :
    Coherent d c (h.next c₀ (.linkFinished callback status libPath sourceFilePaths err)) := by
  simp only [History.next]
  split
  · exact { hc with dirty_held := by simp }
  · exact hc

/-- One small step keeps the invariant. -/
theorem step {c c' : Compiler} {t t' : CompilerTrace} (hstep : Step d (c, t) (c', t'))
    (hc : Coherent d c (history t)) : Coherent d c' (history t') := by
  cases hstep with
  | note _ _ e he =>
      rw [history_cons, History.next_of_neutral _ _ he]
      exact hc
  | compile _ _ cu callback _ _ => exact hc.enqueue c cu callback
  | remove _ _ order p _ => exact hc.dequeue c order p
  | link _ _ callback _ => exact { hc with }
  | addReady _ _ p task hrun => exact hc.addReady hrun
  | dropReady _ _ p task hrun => exact hc.dropReady hrun
  | succeed _ _ _ p task err hrun _ hc' =>
      rw [hc']
      exact hc.compileFinished hrun _ _ _ 0 err
  | fail _ _ _ p task status err hrun _ hc' =>
      rw [hc']
      exact hc.compileFinished hrun _ _ _ status err
  | reap _ _ p task status _ hlatest hready =>
      refine hc.reap hlatest fun hstatus => ?_
      rw [if_pos hstatus] at hready
      exact Finmap.mem_of_lookup_eq_some hready
  | start _ _ pending rest hpending hcard => exact hc.start hpending hcard
  | takeRequest => exact { hc with }
  | defer => exact { hc with }
  | linkStart => exact { hc with }
  | refuse => exact hc
  | report _ _ task status sourceFilePaths err _ _ => exact hc.linkFinished c _ status _ _ err
  | reset _ _ _ task status _ hdirty hc' =>
      subst hc'
      by_cases hstatus : status = 0
      · simp only [hstatus, if_true]
        exact hc.clear (hdirty hstatus)
      · simp only [hstatus, if_false]
        exact { hc with }

end Coherent

def CompiledIn (u : CompilerTrace) (p : String) : Prop :=
  ∃ x ∈ u, ∃ cu, x.2 = .compile cu ∧ cu.sourceFilePath = p

/-- A path that is held after a small step was held before, unless the step is a call of
`compile` for it. -/
theorem Step.holds {d : Discipline} {c c' : Compiler} {t t' : CompilerTrace}
    (hstep : Step d (c, t) (c', t')) (hc : Coherent d c (history t)) :
    ∃ u, t' = u ++ t ∧ ∀ p, c'.Holds p → c.Holds p ∨ CompiledIn u p := by
  cases hstep with
  | note _ _ e _ => exact ⟨[(c, e)], rfl, fun _ => Or.inl⟩
  | compile _ _ cu callback _ _ =>
      refine ⟨[(c, .compile cu)], rfl, ?_⟩
      intro p hp
      rcases (Compiler.holds_enqueue _ _ _ _).mp hp with hp | hp
      · exact Or.inr ⟨_, List.mem_singleton_self _, cu, rfl, hp.symm⟩
      · exact Or.inl hp
  | remove _ _ order q _ =>
      refine ⟨[(c, .remove q)], rfl, ?_⟩
      exact fun p hp => Or.inl ((Compiler.holds_dequeue order q p hc.ready_key).mp hp).2
  | link => exact ⟨[(c, .link)], rfl, fun _ => Or.inl⟩
  | addReady _ _ q task hrun =>
      refine ⟨[], rfl, fun p hp => Or.inl ((Compiler.holds_addReady ?_ _ p).mp hp)⟩
      rw [hc.running.key q task hrun]
      exact Finmap.mem_of_lookup_eq_some hrun
  | dropReady _ _ q task _ =>
      refine ⟨[], rfl, ?_⟩
      rintro p (hpend | hrun | hready)
      · exact Or.inl (Or.inl hpend)
      · exact Or.inl (Or.inr (Or.inl hrun))
      · exact Or.inl (Or.inr (Or.inr (Finmap.mem_erase.mp hready).2))
  | succeed _ _ _ q task err _ _ hc' =>
      subst hc'
      exact ⟨[_], rfl, fun _ => Or.inl⟩
  | fail _ _ _ q task status err _ _ hc' =>
      subst hc'
      exact ⟨[_], rfl, fun _ => Or.inl⟩
  | reap _ _ q task status _ _ _ =>
      refine ⟨[], rfl, ?_⟩
      rintro p (hpend | hrun | hready)
      · exact Or.inl (Or.inl hpend)
      · exact Or.inl (Or.inr (Or.inl (Finmap.mem_erase.mp hrun).2))
      · exact Or.inl (Or.inr (Or.inr hready))
  | start _ _ pending rest hpending _ =>
      exact ⟨[], rfl, fun p hp => Or.inl ((Compiler.holds_start hpending _ p).mp hp)⟩
  | takeRequest => exact ⟨[], rfl, fun _ => Or.inl⟩
  | defer => exact ⟨[], rfl, fun _ => Or.inl⟩
  | linkStart => exact ⟨[_], rfl, fun _ => Or.inl⟩
  | refuse => exact ⟨[_], rfl, fun _ => Or.inl⟩
  | report => exact ⟨[_], rfl, fun _ => Or.inl⟩
  | reset _ _ _ task status _ _ hc' =>
      subst hc'
      refine ⟨[_], rfl, ?_⟩
      rintro p (hpend | hrun | hready)
      · exact Or.inl (Or.inl hpend)
      · exact Or.inl (Or.inr (Or.inl hrun))
      · dsimp only at hready
        split at hready
        · exact absurd hready Finmap.notMem_empty
        · exact Or.inl (Or.inr (Or.inr hready))

/-- Any number of small steps: a held path was held before or compiled since. -/
theorem Steps.holds {d : Discipline} {c c' : Compiler} {t t' : CompilerTrace}
    (hc : Coherent d c (history t)) (h : Steps d (c, t) (c', t')) :
    ∃ u, t' = u ++ t ∧ ∀ p, c'.Holds p → c.Holds p ∨ CompiledIn u p := by
  have hboth : Coherent d c' (history t') ∧
      ∃ u, t' = u ++ t ∧ ∀ p, c'.Holds p → c.Holds p ∨ CompiledIn u p := by
    refine Steps.invariant (I := fun c' t' => Coherent d c' (history t') ∧
      ∃ u, t' = u ++ t ∧ ∀ p, c'.Holds p → c.Holds p ∨ CompiledIn u p) ?_ h
      ⟨hc, [], rfl, fun _ => Or.inl⟩
    rintro c₁ t₁ c₂ t₂ hstep ⟨hc₁, u, rfl, hu⟩
    refine ⟨hc₁.step hstep, ?_⟩
    obtain ⟨v, rfl, hv⟩ := hstep.holds hc₁
    refine ⟨v ++ u, (List.append_assoc v u t).symm, ?_⟩
    intro p hp
    rcases hv p hp with hp | ⟨x, hx, hcu⟩
    · rcases hu p hp with hp | ⟨x, hx, hcu⟩
      · exact Or.inl hp
      · exact Or.inr ⟨x, List.mem_append_right v hx, hcu⟩
    · exact Or.inr ⟨x, List.mem_append_left u hx, hcu⟩
  exact hboth.2

/-- Nothing is linked while a link is requested. -/
def Compiler.Exclusive (c : Compiler) : Prop := c.shouldLink → c.runningLinkTask = none

/-- If `link` is not called while a link process is running, then no small step
leads to a request beside a running link. -/
theorem Compiler.Exclusive.step {d : Discipline} {c c' : Compiler} {t t' : CompilerTrace}
    (hstep : Step d (c, t) (c', t')) (hlink : d.linkGuarded) (hc : c.Exclusive) :
    c'.Exclusive := by
  cases hstep with
  | link _ _ callback hguard => exact fun _ => hguard hlink
  | defer _ _ callback hidle => exact fun _ => hidle hlink
  | takeRequest => simp [Exclusive]
  | linkStart _ _ process task _ hshould => simp [Exclusive, hshould]
  | succeed _ _ _ p task err _ _ hc' =>
      subst hc'
      exact hc
  | fail _ _ _ p task status err _ _ hc' =>
      subst hc'
      exact hc
  | reset _ _ _ task status _ _ hc' =>
      subst hc'
      exact fun _ => rfl
  | _ => exact hc

end JetLive

import JetLive.Compiler.LinkPhase

/-!
# The objects the compiler works on

`objOf` gives to every source the object that its owner expects it to be compiled to.
`Agree objOf stale c` says that the compiler works on these objects, except for the
sources in `stale`, whose expected object has changed since. Compiling or removing a
source makes it no longer stale, and no step of the compiler makes one stale, as long
as the units it compiles are the expected ones.
-/

namespace JetLive

open Containers

/-- The compiler works on the expected objects. A ready object may be an older one as
long as its source is pending or running. -/
structure Agree (objOf : String → Option String) (stale : List String) (c : Compiler) : Prop where
  pending : ∀ task ∈ c.pendingCompilationTasks, task.cu.sourceFilePath ∉ stale →
    objOf task.cu.sourceFilePath = some task.cu.objFilePath
  running : ∀ p task, c.runningCompilationTasks.lookup p = some task → p ∉ stale →
    objOf p = some task.objFilepath
  ready : ∀ p cu, c.readyCompilationUnits.lookup p = some cu → p ∉ stale →
    p ∈ c.pendingPaths ∨ p ∈ c.runningCompilationTasks ∨ objOf p = some cu.objFilepath

def Expected (objOf : String → Option String) : Event → Prop
  | .compile cu => objOf cu.sourceFilePath = some cu.objFilePath
  | _ => True

variable {d : Discipline} {objOf : String → Option String} {stale : List String} {c : Compiler}

namespace Agree

theorem initial (objOf : String → Option String) : Agree objOf [] {} where
  pending := by simp
  running := by simp
  ready := by simp

theorem mono {stale' : List String} (h : Agree objOf stale c) (hsub : stale ⊆ stale') :
    Agree objOf stale' c where
  pending task htask hnot := h.pending task htask fun hmem => hnot (hsub hmem)
  running p task hrun hnot := h.running p task hrun fun hmem => hnot (hsub hmem)
  ready p cu hcu hnot := h.ready p cu hcu fun hmem => hnot (hsub hmem)

/-- Other objects are expected, but for the sources the compiler holds only where they
are stale. -/
theorem change {objOf' : String → Option String} (h : Agree objOf [] c)
    (hkeeps : ∀ p o, c.Holds p → p ∉ stale → objOf p = some o → objOf' p = some o) :
    Agree objOf' stale c where
  pending := by
    intro task htask hnot
    refine hkeeps _ _ (Or.inl ?_) hnot (h.pending task htask List.not_mem_nil)
    exact List.mem_map_of_mem htask
  running := by
    intro p task hrun hnot
    refine hkeeps p _ (Or.inr (Or.inl ?_)) hnot (h.running p task hrun List.not_mem_nil)
    exact Finmap.mem_of_lookup_eq_some hrun
  ready := by
    intro p cu hcu hnot
    rcases h.ready p cu hcu List.not_mem_nil with hpend | hrun | hobj
    · exact Or.inl hpend
    · exact Or.inr (Or.inl hrun)
    · refine Or.inr (Or.inr (hkeeps p _ (Or.inr (Or.inr ?_)) hnot hobj))
      exact Finmap.mem_of_lookup_eq_some hcu

theorem enqueue {cu : CompilationUnit} (callback : FinishCallback)
    (h : Agree objOf (cu.sourceFilePath :: stale) c)
    (hcu : objOf cu.sourceFilePath = some cu.objFilePath) :
    Agree objOf stale (c.enqueue cu callback) where
  pending := by
    intro task htask hnot
    rcases List.mem_append.mp htask with htask | htask
    · obtain ⟨htask, hne⟩ := List.mem_filter.mp htask
      refine h.pending task htask ?_
      simpa [hnot] using hne
    · rw [List.mem_singleton.mp htask]
      exact hcu
  running := by
    intro p task hrun hnot
    have hne : p ≠ cu.sourceFilePath := by
      rintro rfl
      simp [Compiler.enqueue] at hrun
    refine h.running p task ?_ (by simp [hne, hnot])
    simpa [Compiler.enqueue, Finmap.lookup_erase_ne hne] using hrun
  ready := by
    intro p unit hunit hnot
    rw [Compiler.mem_pendingPaths_enqueue]
    by_cases hne : p = cu.sourceFilePath
    · exact Or.inl (Or.inr hne)
    · rcases h.ready p unit hunit (by simp [hne, hnot]) with hpend | hrun | hobj
      · exact Or.inl (Or.inl hpend)
      · exact Or.inr (Or.inl (Finmap.mem_erase.mpr ⟨hne, hrun⟩))
      · exact Or.inr (Or.inr hobj)

theorem dequeue {p : String} (order : Iteration String) (h : Agree objOf (p :: stale) c)
    (hkey : ∀ q cu, c.readyCompilationUnits.lookup q = some cu → cu.sourceFilepath = q) :
    Agree objOf stale (c.dequeue order p) where
  pending := by
    intro task htask hnot
    obtain ⟨htask, hne⟩ := List.mem_filter.mp htask
    refine h.pending task htask ?_
    simpa [hnot] using hne
  running := by
    intro q task hrun hnot
    have hne : q ≠ p := by
      rintro rfl
      simp [Compiler.dequeue] at hrun
    refine h.running q task ?_ (by simp [hne, hnot])
    simpa [Compiler.dequeue, Finmap.lookup_erase_ne hne] using hrun
  ready := by
    intro q unit hunit hnot
    rw [Compiler.dequeue_ready order p hkey] at hunit
    have hne : q ≠ p := by
      rintro rfl
      simp at hunit
    rw [Finmap.lookup_erase_ne hne] at hunit
    rw [Compiler.pendingPaths_dequeue]
    rcases h.ready q unit hunit (by simp [hne, hnot]) with hpend | hrun | hobj
    · exact Or.inl (by simpa [hne] using hpend)
    · exact Or.inr (Or.inl (Finmap.mem_erase.mpr ⟨hne, hrun⟩))
    · exact Or.inr (Or.inr hobj)

theorem addReady {p : String} {task : Task} (h : Agree objOf stale c)
    (hrun : c.runningCompilationTasks.lookup p = some task) (hpath : task.cuOrLibFilepath = p)
    (unit : ShortCompilationUnit) :
    Agree objOf stale { c with
      readyCompilationUnits := c.readyCompilationUnits.insert task.cuOrLibFilepath unit } :=
  { h with
    ready := by
      intro q cu hcu hnot
      by_cases hne : q = p
      · exact Or.inr (Or.inl (hne ▸ Finmap.mem_of_lookup_eq_some hrun))
      · refine h.ready q cu ?_ hnot
        simpa [hpath, Finmap.lookup_insert_of_ne _ hne] using hcu }

theorem dropReady (h : Agree objOf stale c) (p : String) :
    Agree objOf stale { c with readyCompilationUnits := c.readyCompilationUnits.erase p } :=
  { h with
    ready := by
      intro q cu hcu hnot
      have hne : q ≠ p := by
        rintro rfl
        simp at hcu
      exact h.ready q cu (by simpa [Finmap.lookup_erase_ne hne] using hcu) hnot }

theorem reap {p : String} {task : Task} {status : ℤ} (h : Agree objOf stale c)
    (hrun : c.runningCompilationTasks.lookup p = some task)
    (hready : c.readyCompilationUnits.lookup p =
      if status = 0 then some ⟨p, task.objFilepath⟩ else none) :
    Agree objOf stale { c with
      runningCompilationTasks := c.runningCompilationTasks.erase p } :=
  { h with
    running := by
      intro q task' hrun' hnot
      have hne : q ≠ p := by
        rintro rfl
        simp at hrun'
      exact h.running q task' (by simpa [Finmap.lookup_erase_ne hne] using hrun') hnot
    ready := by
      intro q cu hcu hnot
      by_cases hne : q = p
      · subst hne
        -- the object was made by the compilation that is reaped
        have hobj := h.running q task hrun hnot
        rw [hready] at hcu
        split at hcu
        · rw [← Option.some.inj hcu]
          exact Or.inr (Or.inr hobj)
        · simp at hcu
      · rcases h.ready q cu hcu hnot with hpend | hrun | hobj
        · exact Or.inl hpend
        · exact Or.inr (Or.inl (Finmap.mem_erase.mpr ⟨hne, hrun⟩))
        · exact Or.inr (Or.inr hobj) }

theorem start {pending : PendingCompilationTask} {rest : List PendingCompilationTask}
    (h : Agree objOf stale c) (hpending : c.pendingCompilationTasks = pending :: rest) :
    Agree objOf stale { c with
      runningCompilationTasks := c.runningCompilationTasks.insert pending.cu.sourceFilePath
        (compilationTask pending.cu pending.finishCallback)
      pendingCompilationTasks := rest } where
  pending task htask hnot := h.pending task (hpending ▸ List.mem_cons_of_mem _ htask) hnot
  running := by
    intro p task hrun hnot
    by_cases hne : p = pending.cu.sourceFilePath
    · subst hne
      have htask : compilationTask pending.cu pending.finishCallback = task := by
        simpa using hrun
      rw [← htask]
      exact h.pending pending (hpending ▸ List.mem_cons_self) hnot
    · exact h.running p task (by simpa [Finmap.lookup_insert_of_ne _ hne] using hrun) hnot
  ready := by
    intro p cu hcu hnot
    rw [Finmap.mem_insert]
    rcases h.ready p cu hcu hnot with hpend | hrun | hobj
    · rw [Compiler.pendingPaths, hpending, List.map_cons, List.mem_cons] at hpend
      rcases hpend with rfl | hpend
      · exact Or.inr (Or.inl (Or.inl rfl))
      · exact Or.inl hpend
    · exact Or.inr (Or.inl (Or.inr hrun))
    · exact Or.inr (Or.inr hobj)

theorem finishLink (h : Agree objOf stale c) (status : ℤ) :
    Agree objOf stale { c with
      runningLinkTask := none
      readyCompilationUnits := if status = 0 then ∅ else c.readyCompilationUnits } :=
  { h with
    ready := by
      intro p cu hcu hnot
      dsimp only at hcu
      split at hcu
      · simp at hcu
      · exact h.ready p cu hcu hnot }

/-- One small step, in which no unexpected unit is compiled. -/
theorem step {c' : Compiler} {t t' : CompilerTrace} (hstep : Step d (c, t) (c', t'))
    (hc : Coherent d c (history t)) (hexpected : ∀ x, t' = x :: t → Expected objOf x.2)
    (h : Agree objOf [] c) : Agree objOf [] c' := by
  cases hstep with
  | compile _ _ cu callback _ _ =>
      exact (h.mono (List.nil_subset _)).enqueue callback (hexpected _ rfl)
  | remove _ _ order p _ => exact (h.mono (List.nil_subset _)).dequeue order hc.ready_key
  | addReady _ _ p task hrun => exact h.addReady hrun (hc.running.key p task hrun) _
  | dropReady _ _ p task hrun => exact h.dropReady _
  | succeed _ _ _ p task err _ _ hc' =>
      subst hc'
      exact { h with }
  | fail _ _ _ p task status err _ _ hc' =>
      subst hc'
      exact { h with }
  | reap _ _ p task status hrun _ hready => exact h.reap hrun hready
  | start _ _ pending rest hpending _ => exact h.start hpending
  | reset _ _ _ task status _ _ hc' =>
      subst hc'
      exact h.finishLink status
  | _ => exact { h with }

/-- Any number of small steps, in which no unexpected unit is compiled. -/
theorem steps {c' : Compiler} {t u : CompilerTrace} (hsteps : Steps d (c, t) (c', u ++ t))
    (hc : Coherent d c (history t)) (hexpected : ∀ x ∈ u, Expected objOf x.2)
    (h : Agree objOf [] c) : Agree objOf [] c' := by
  -- the invariant carries the events recorded so far
  let I (c₁ : Compiler) (t₁ : CompilerTrace) : Prop :=
    Coherent d c₁ (history t₁) ∧
      ∃ v, t₁ = v ++ t ∧ ((∀ x ∈ v, Expected objOf x.2) → Agree objOf [] c₁)
  have hI : I c' (u ++ t) := by
    refine Steps.invariant (I := I) ?_ hsteps ⟨hc, [], rfl, fun _ => h⟩
    rintro c₁ t₁ c₂ t₂ hstep ⟨hc₁, v, rfl, hv⟩
    refine ⟨hc₁.step hstep, ?_⟩
    rcases hstep.emits with rfl | ⟨c₀, e, rfl, _⟩
    · refine ⟨v, rfl, fun hexp => (hv hexp).step hstep hc₁ ?_⟩
      intro x hx
      exact absurd (congrArg List.length hx) (by simp)
    · refine ⟨(c₀, e) :: v, rfl, fun hexp => ?_⟩
      obtain ⟨he, hexp⟩ := List.forall_mem_cons.mp hexp
      refine (hv hexp).step hstep hc₁ ?_
      intro x hx
      rw [← (List.cons.inj hx).1]
      exact he
  obtain ⟨_, v, hv, hagree⟩ := hI
  rw [List.append_cancel_right hv] at hexpected
  exact hagree hexpected

/-- With nothing pending and nothing running the ready objects are the expected ones. -/
theorem ready_expected (h : Agree objOf [] c) (hpending : c.pendingCompilationTasks = [])
    (hrunning : c.runningCompilationTasks = ∅) {p : String} {cu : ShortCompilationUnit}
    (hcu : c.readyCompilationUnits.lookup p = some cu) : objOf p = some cu.objFilepath := by
  rcases h.ready p cu hcu List.not_mem_nil with hpend | hrun | hobj
  · simp [Compiler.pendingPaths, hpending] at hpend
  · rw [hrunning] at hrun
    exact absurd hrun Finmap.notMem_empty
  · exact hobj

end Agree

end JetLive

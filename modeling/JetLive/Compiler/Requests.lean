import JetLive.Compiler.Run

/-!
# Requested compilations

The compiler works on copies of the units it was asked to compile. `Requested` says that a unit was
passed to `compile` and that its source has not been removed since. Everything pending is such a
unit, and every running process was started for one, with its command and in its directory.
-/

namespace JetLive

open Containers EventTrace

/-- The unit was passed to `compile`, and its source has not been removed since. -/
def Requested (cu : CompilationUnit) : CompilerTrace → Prop
  | [] => False
  | (_, .compile cu') :: t => cu' = cu ∨ Requested cu t
  | (_, .remove p) :: t => p ≠ cu.sourceFilePath ∧ Requested cu t
  | _ :: t => Requested cu t

instance (cu : CompilationUnit) : ∀ t, Decidable (Requested cu t)
  | [] => isFalse id
  | (_, .compile _) :: t =>
      have := instDecidableRequested cu t
      inferInstanceAs (Decidable (_ ∨ _))
  | (_, .remove _) :: t =>
      have := instDecidableRequested cu t
      inferInstanceAs (Decidable (_ ∧ _))
  | (_, .log ..) :: t | (_, .link) :: t | (_, .compileStarted ..) :: t
  | (_, .compileFinished ..) :: t | (_, .linkStarted _) :: t | (_, .dlopen ..) :: t
  | (_, .linkRefused _) :: t | (_, .linkFinished ..) :: t | (_, .linkTaskReset _) :: t
  | (_, .host _) :: t => instDecidableRequested cu t

def Event.KeepsRequests : Event → Prop
  | .compile _ | .remove _ => False
  | _ => True

theorem Event.Neutral.keepsRequests {e : Event} (h : e.Neutral) : e.KeepsRequests := by
  cases e with
  | compile => exact h
  | remove => exact h
  | _ => trivial

variable {d : Discipline} {c c' : Compiler} {t t' : CompilerTrace} {cu : CompilationUnit}

theorem requested_cons_iff {e : Event} (he : e.KeepsRequests) :
    Requested cu ((c, e) :: t) ↔ Requested cu t := by
  cases e with
  | compile => exact he.elim
  | remove => exact he.elim
  | _ => exact Iff.rfl

theorem requested_append_iff {u : CompilerTrace} (hu : ∀ x ∈ u, x.2.KeepsRequests) :
    Requested cu (u ++ t) ↔ Requested cu t := by
  induction u with
  | nil => exact Iff.rfl
  | cons x u ih =>
      obtain ⟨hx, hu⟩ := List.forall_mem_cons.mp hu
      exact (requested_cons_iff hx).trans (ih hu)

/-- A request stays as long as the source is not removed. -/
theorem Requested.append {u : CompilerTrace} (h : Requested cu t)
    (hu : ∀ x ∈ u, x.2 ≠ .remove cu.sourceFilePath) : Requested cu (u ++ t) := by
  induction u with
  | nil => exact h
  | cons x u ih =>
      obtain ⟨hx, hrest⟩ := List.forall_mem_cons.mp hu
      have hcu := ih hrest
      obtain ⟨c, e⟩ := x
      cases e with
      | compile cu' => exact .inr hcu
      | remove p => exact ⟨fun hp => hx (by rw [hp]), hcu⟩
      | _ => exact hcu

structure HoldsRequested (c : Compiler) (t : CompilerTrace) : Prop where
  pending : ∀ task ∈ c.pendingCompilationTasks, Requested task.cu t
  running : ∀ p task, c.runningCompilationTasks.lookup p = some task →
    ∃ cu callback, Requested cu t ∧ cu.sourceFilePath = p ∧ task = compilationTask cu callback

namespace HoldsRequested

theorem initial : HoldsRequested {} [] where
  pending := by simp
  running := by simp

/-- The trace grows by an event that keeps all requests. -/
theorem emit {e : Event} (h : HoldsRequested c t) (he : e.KeepsRequests) (c₀ : Compiler) :
    HoldsRequested c ((c₀, e) :: t) where
  pending task htask := (requested_cons_iff he).mpr (h.pending task htask)
  running p task hrun := by
    obtain ⟨cu, callback, hcu, hkey⟩ := h.running p task hrun
    exact ⟨cu, callback, (requested_cons_iff he).mpr hcu, hkey⟩

theorem enqueue (cu : CompilationUnit) (callback : FinishCallback) (h : HoldsRequested c t) :
    HoldsRequested (c.enqueue cu callback) ((c, .compile cu) :: t) where
  pending task htask := by
    rcases List.mem_append.mp htask with htask | htask
    · exact .inr (h.pending task (List.mem_of_mem_filter htask))
    · rw [List.mem_singleton.mp htask]
      exact .inl rfl
  running p task hrun := by
    have hne : p ≠ cu.sourceFilePath := by
      rintro rfl
      simp [Compiler.enqueue] at hrun
    obtain ⟨cu', callback', hcu', hkey⟩ := h.running p task
      (by simpa [Compiler.enqueue, Finmap.lookup_erase_ne hne] using hrun)
    exact ⟨cu', callback', .inr hcu', hkey⟩

theorem dequeue (order : Iteration String) (p : String) (h : HoldsRequested c t) :
    HoldsRequested (c.dequeue order p) ((c, .remove p) :: t) where
  pending task htask := by
    obtain ⟨htask, hne⟩ := List.mem_filter.mp htask
    exact ⟨fun heq => (of_decide_eq_true hne) heq.symm, h.pending task htask⟩
  running q task hrun := by
    have hne : q ≠ p := by
      rintro rfl
      simp [Compiler.dequeue] at hrun
    obtain ⟨cu, callback, hcu, hkey, htask⟩ := h.running q task
      (by simpa [Compiler.dequeue, Finmap.lookup_erase_ne hne] using hrun)
    exact ⟨cu, callback, ⟨fun heq => hne (hkey ▸ heq.symm), hcu⟩, hkey, htask⟩

theorem reap (p : String) (h : HoldsRequested c t) :
    HoldsRequested { c with
      runningCompilationTasks := c.runningCompilationTasks.erase p } t :=
  { h with
    running := by
      intro q task hrun
      have hne : q ≠ p := by
        rintro rfl
        simp at hrun
      exact h.running q task (by simpa [Finmap.lookup_erase_ne hne] using hrun) }

theorem start {pending : PendingCompilationTask} {rest : List PendingCompilationTask}
    (h : HoldsRequested c t) (hpending : c.pendingCompilationTasks = pending :: rest) :
    HoldsRequested { c with
      runningCompilationTasks := c.runningCompilationTasks.insert pending.cu.sourceFilePath
        (compilationTask pending.cu pending.finishCallback)
      pendingCompilationTasks := rest } t where
  pending task htask := h.pending task (hpending ▸ List.mem_cons_of_mem _ htask)
  running p task hrun := by
    by_cases hne : p = pending.cu.sourceFilePath
    · subst hne
      refine ⟨pending.cu, pending.finishCallback, ?_, rfl, by simpa using hrun.symm⟩
      exact h.pending pending (hpending ▸ List.mem_cons_self)
    · exact h.running p task (by simpa [Finmap.lookup_insert_of_ne _ hne] using hrun)

/-- One small step; an event is recorded together with such a state. -/
theorem step (hstep : Step d (c, t) (c', t')) (h : HoldsRequested c t) :
    HoldsRequested c' t' ∧ ∀ c₀ e, t' = (c₀, e) :: t → HoldsRequested c₀ t := by
  have hsame : ∀ (c₁ : Compiler) (e : Event), HoldsRequested c₁ t →
      ∀ c₀ e', (c₁, e) :: t = (c₀, e') :: t → HoldsRequested c₀ t := by
    intro c₁ e h₁ c₀ e' heq
    rwa [← (Prod.mk.inj (List.cons.inj heq).1).1]
  have hrecord : ∀ (c₁ : Compiler) (e : Event), e.KeepsRequests → HoldsRequested c₁ t →
      HoldsRequested c₁ ((c₁, e) :: t) ∧
        ∀ c₀ e', (c₁, e) :: t = (c₀, e') :: t → HoldsRequested c₀ t :=
    fun c₁ e he h₁ => ⟨h₁.emit he c₁, hsame c₁ e h₁⟩
  have hnone : ∀ c₀ e, t = (c₀, e) :: t → HoldsRequested c₀ t := fun c₀ e heq =>
    absurd (congrArg List.length heq) (by simp)
  cases hstep with
  | note _ _ e he => exact hrecord _ _ he.keepsRequests h
  | compile _ _ cu callback _ _ => exact ⟨h.enqueue cu callback, hsame _ _ h⟩
  | remove _ _ order p _ => exact ⟨h.dequeue order p, hsame _ _ h⟩
  | link => exact ⟨{ h.emit (e := .link) trivial c with }, hsame _ _ h⟩
  | addReady => exact ⟨{ h with }, hnone⟩
  | dropReady => exact ⟨{ h with }, hnone⟩
  | succeed _ _ _ p task err _ _ hc' =>
      subst hc'
      exact hrecord _ _ trivial { h with }
  | fail _ _ _ p task status err _ _ hc' =>
      subst hc'
      exact hrecord _ _ trivial { h with }
  | reap _ _ p task status _ _ _ => exact ⟨h.reap p, hnone⟩
  | start _ _ pending rest hpending _ => exact ⟨h.start hpending, hnone⟩
  | takeRequest => exact ⟨{ h with }, hnone⟩
  | defer => exact ⟨{ h with }, hnone⟩
  | linkStart => exact ⟨{ h.emit (e := .linkStarted _) trivial c with }, hsame _ _ h⟩
  | refuse => exact ⟨{ h.emit (e := .linkRefused _) trivial c with }, hsame _ _ h⟩
  | report => exact hrecord _ _ trivial h
  | reset _ _ _ task status _ _ hc' =>
      subst hc'
      exact hrecord _ _ trivial { h with }

end HoldsRequested

/-- Also in the past the compiler has worked on requested units only. -/
theorem Reached.holdsRequested (h : Reached d c t) :
    HoldsRequested c t ∧ Always (fun c _ t => HoldsRequested c t) t := by
  refine h.invariant (I := fun c t => HoldsRequested c t ∧
    Always (fun c _ t => HoldsRequested c t) t) ⟨.initial, always_nil _⟩ ?_
  rintro c t c' t' hstep ⟨hholds, halways⟩
  obtain ⟨hholds', hrecorded⟩ := hholds.step hstep
  refine ⟨hholds', ?_⟩
  rcases hstep.emits with rfl | ⟨c₀, e, rfl, _⟩
  · exact halways
  · exact (always_cons _ _ _ _).mpr ⟨hrecorded c₀ e rfl, halways⟩

end JetLive

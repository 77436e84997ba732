import Mathlib.Data.List.Infix

/-!
# Traces of events

A trace lists the events of a run together with the state each of them happened
in, the most recent event first. `Always P t` says that every event of the trace
satisfies `P`, which may also speak about the state of the event and about the
trace before it. A property of whole runs is proved by adding one event at a
time (`always_cons`), and read off at any event of the run through the suffix
order.
-/

namespace EventTrace

/-- A trace, the most recent event first; every event carries the state it
happened in. -/
abbrev Trace (σ ε : Type*) := List (σ × ε)

variable {σ ε : Type*}

/-- Every event of the trace satisfies `P`, read at its state and at the trace
before it. -/
def Always (P : σ → ε → Trace σ ε → Prop) (t : Trace σ ε) : Prop :=
  ∀ s e t', (s, e) :: t' <:+ t → P s e t'

@[simp] theorem always_nil (P : σ → ε → Trace σ ε → Prop) : Always P [] := by
  intro s e t' h
  simp at h

@[simp] theorem always_cons (P : σ → ε → Trace σ ε → Prop) (s : σ) (e : ε)
    (t : Trace σ ε) : Always P ((s, e) :: t) ↔ P s e t ∧ Always P t := by
  constructor
  · intro h
    refine ⟨h s e t (List.suffix_refl _), ?_⟩
    intro s' e' t' hs
    exact h s' e' t' (hs.trans (List.suffix_cons _ _))
  · rintro ⟨hP, ht⟩ s' e' t' hs
    rcases List.suffix_cons_iff.mp hs with heq | hs
    · obtain ⟨⟨rfl, rfl⟩, rfl⟩ := by simpa using heq
      exact hP
    · exact ht s' e' t' hs

instance Always.decidable (P : σ → ε → Trace σ ε → Prop) [∀ s e t, Decidable (P s e t)] :
    ∀ t, Decidable (Always P t)
  | [] => isTrue (always_nil P)
  | (s, e) :: t =>
      have := Always.decidable P t
      decidable_of_iff (P s e t ∧ Always P t) (always_cons P s e t).symm

/-- Adding events that satisfy `P` after any trace. -/
theorem Always.append {P : σ → ε → Trace σ ε → Prop} {u t : Trace σ ε}
    (hu : ∀ x ∈ u, ∀ t', P x.1 x.2 t') (ht : Always P t) : Always P (u ++ t) := by
  induction u with
  | nil => exact ht
  | cons x u ih =>
      obtain ⟨hx, hu⟩ := List.forall_mem_cons.mp hu
      exact (always_cons P x.1 x.2 (u ++ t)).mpr ⟨hx _, ih hu⟩

theorem Always.of_suffix {P : σ → ε → Trace σ ε → Prop} {t t' : Trace σ ε}
    (h : Always P t) (hs : t' <:+ t) : Always P t' :=
  fun s e u hu => h s e u (hu.trans hs)

theorem Always.tail {P : σ → ε → Trace σ ε → Prop} {x : σ × ε} {t : Trace σ ε}
    (h : Always P (x :: t)) : Always P t :=
  h.of_suffix (List.suffix_cons _ _)

end EventTrace

import Mathlib.Data.Finset.Basic
import Mathlib.Data.Finset.Lattice.Lemmas
import Mathlib.Data.List.Basic
import Mathlib.Data.List.TakeWhile

/-!
# Loops with an output

A loop over a list carries a state, and every turn may add one element to its
output. An element of the output is traced back to its turn: the part of the list
before it, and hence the state in which it was reached.

A loop without a state that ends early, at the first element with some property, has the
output of the elements before it. Its output for two lists in a row is that of one after the
other exactly if it does not end within the first, or has no output for the second.
-/

namespace Loop

variable {σ α β : Type*} (step : σ → α → σ) (out : σ → α → Option β)

/-- The output of a loop that starts in the given state. -/
def outputs : σ → List α → List β
  | _, [] => []
  | s, a :: l => (out s a).toList ++ outputs (step s a) l

@[simp] theorem outputs_nil (s : σ) : outputs step out s [] = [] := rfl

@[simp] theorem outputs_cons (s : σ) (a : α) (l : List α) :
    outputs step out s (a :: l) = (out s a).toList ++ outputs step out (step s a) l := rfl

theorem outputs_append (s : σ) (l l' : List α) : outputs step out s (l ++ l') =
    outputs step out s l ++ outputs step out (l.foldl step s) l' := by
  induction l generalizing s with
  | nil => rfl
  | cons a l ih =>
      rw [List.cons_append, outputs_cons, outputs_cons, ih, List.append_assoc, List.foldl_cons]

theorem mem_outputs (s : σ) (l : List α) (b : β) :
    b ∈ outputs step out s l ↔
      ∃ pre a post, l = pre ++ a :: post ∧ out (pre.foldl step s) a = some b := by
  induction l generalizing s with
  | nil => simp
  | cons a l ih =>
      rw [outputs_cons, List.mem_append, Option.mem_toList, ih]
      constructor
      · rintro (ha | ⟨pre, a', post, rfl, ha'⟩)
        · exact ⟨[], a, l, rfl, ha⟩
        · exact ⟨a :: pre, a', post, rfl, ha'⟩
      · rintro ⟨pre, a', post, hl, ha'⟩
        cases pre with
        | nil =>
            obtain ⟨rfl, rfl⟩ := List.cons.inj hl
            exact Or.inl ha'
        | cons a'' pre =>
            obtain ⟨rfl, rfl⟩ := List.cons.inj hl
            exact Or.inr ⟨pre, a', post, rfl, ha'⟩

/-- A loop that keeps its output in its own state, which stays related to the other one. -/
theorem foldl_outputs {ρ γ : Type*} {run : ρ → α → ρ} {R : ρ → σ → Prop} (f : β → γ)
    (output : ρ → List γ) (hstep : ∀ r s a, R r s → R (run r a) (step s a))
    (hout : ∀ r s a, R r s → output (run r a) = output r ++ ((out s a).map f).toList)
    {r : ρ} {s : σ} (h : R r s) (l : List α) :
    output (l.foldl run r) = output r ++ (outputs step out s l).map f := by
  induction l generalizing r s with
  | nil => simp
  | cons a l ih =>
      rw [List.foldl_cons, ih (hstep r s a h), hout r s a h, outputs_cons, List.map_append,
        Option.toList_map, List.append_assoc]

/-- Two elements of the output with a property come from two turns. -/
theorem two_le_countP_outputs (s : σ) (l : List α) (p : β → Bool) :
    2 ≤ (outputs step out s l).countP p ↔
      ∃ pre a mid a' post, l = pre ++ a :: (mid ++ a' :: post) ∧
        (∃ b, out (pre.foldl step s) a = some b ∧ p b) ∧
        ∃ b, out ((pre ++ a :: mid).foldl step s) a' = some b ∧ p b := by
  induction l generalizing s with
  | nil => simp
  | cons a l ih =>
      have hsplit : 2 ≤ (outputs step out s (a :: l)).countP p ↔
          ((∃ b, out s a = some b ∧ p b) ∧ ∃ b ∈ outputs step out (step s a) l, p b) ∨
            2 ≤ (outputs step out (step s a) l).countP p := by
        rw [outputs_cons, List.countP_append, ← List.one_le_countP_iff]
        cases out s a with
        | none => simp
        | some b =>
            cases hb : p b
            · simp [hb]
            · simp only [Option.toList_some, List.countP_singleton, hb, if_true,
                Option.some.injEq, exists_eq_left', true_and]
              omega
      rw [hsplit, ih]
      constructor
      · rintro (⟨ha, b, hb, hpb⟩ | ⟨pre, a', mid, a'', post, rfl, ha', ha''⟩)
        · obtain ⟨mid, a', post, rfl, ha'⟩ := (mem_outputs step out _ _ b).mp hb
          exact ⟨[], a, mid, a', post, rfl, ha, b, ha', hpb⟩
        · exact ⟨a :: pre, a', mid, a'', post, rfl, ha', ha''⟩
      · rintro ⟨pre, a', mid, a'', post, hl, ha', b, hb, hpb⟩
        cases pre with
        | nil =>
            obtain ⟨rfl, rfl⟩ := List.cons.inj hl
            refine Or.inl ⟨ha', b, ?_, hpb⟩
            exact (mem_outputs step out _ _ b).mpr ⟨mid, a'', post, rfl, hb⟩
        | cons a₀ pre =>
            obtain ⟨rfl, rfl⟩ := List.cons.inj hl
            exact Or.inr ⟨pre, a', mid, a'', post, rfl, ha', b, hb, hpb⟩

/-- The output of a loop that ends early, for two lists in a row. -/
theorem flatMap_takeWhile_append_iff {α β : Type*} (p : α → Bool) (f : α → List β)
    (xs ys : List α) :
    ((xs ++ ys).takeWhile p).flatMap f =
        (xs.takeWhile p).flatMap f ++ (ys.takeWhile p).flatMap f ↔
      (∀ x ∈ xs, p x) ∨ ∀ y ∈ ys.takeWhile p, f y = [] := by
  by_cases hxs : ∀ x ∈ xs, p x
  · rw [List.takeWhile_append_of_pos hxs, List.takeWhile_eq_self_iff.mpr hxs, List.flatMap_append]
    exact iff_of_true rfl (Or.inl hxs)
  · have hend : (xs ++ ys).takeWhile p = xs.takeWhile p := by
      rw [List.takeWhile_append, if_neg]
      intro hlength
      apply hxs
      apply List.takeWhile_eq_self_iff.mp
      exact (List.takeWhile_sublist p).eq_of_length hlength
    rw [hend, List.self_eq_append_right, List.flatMap_eq_nil_iff]
    constructor
    · exact Or.inr
    · rintro (h | h)
      · exact absurd h hxs
      · exact h

/-- A loop that collects the images of the selected elements. -/
theorem foldl_collect {α β ρ : Type*} [DecidableEq β] (run : ρ → α → ρ)
    (collected : ρ → Finset β) (selects : α → Bool) (f : α → β)
    (hrun : ∀ r a, collected (run r a) =
      if selects a then insert (f a) (collected r) else collected r) (l : List α) (r : ρ) :
    collected (l.foldl run r) = collected r ∪ ((l.filter selects).map f).toFinset := by
  induction l generalizing r with
  | nil => simp
  | cons a l ih =>
      rw [List.foldl_cons, ih, hrun, List.filter_cons]
      split
      · rw [List.map_cons, List.toFinset_cons, Finset.insert_union_comm]
      · rfl

end Loop

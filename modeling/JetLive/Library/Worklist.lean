import Mathlib.Data.Finset.Basic
import Mathlib.Logic.Relation
import Mathlib.Order.Bounds.Basic

/-!
# Worklists

A search with a set of open requests and a set of found elements. A round takes any open
request; if the request is answered by an element that is not found yet, the element is found
and its own requests are opened. A request may be opened again after it was taken.

A search that has no open request left has found the least set that contains the elements it
began with and is closed under answering requests, whichever requests its rounds have taken.
-/

namespace Worklist

variable {α β : Type*} [DecidableEq α] [DecidableEq β]
variable (owner : α → Option β) (needs : β → Finset α)

/-- The requests of each element are answered by elements of the set. -/
def IsClosed (s : Set β) : Prop := ∀ b ∈ s, ∀ a ∈ needs b, ∀ c, owner a = some c → c ∈ s

inductive Round : Finset α × Finset β → Finset α × Finset β → Prop
  | settled {requests : Finset α} {found : Finset β} {a : α} (ha : a ∈ requests)
      (hc : ∀ c, owner a = some c → c ∈ found) :
      Round (requests, found) (requests.erase a, found)
  | discovered {requests : Finset α} {found : Finset β} {a : α} {c : β} (ha : a ∈ requests)
      (hc : owner a = some c) (hnew : c ∉ found) :
      Round (requests, found) (requests.erase a ∪ needs c, insert c found)

abbrev Rounds := Relation.ReflTransGen (Round owner needs)

variable {owner needs}

/-- The requests of the found elements are open or answered. -/
def Covered (owner : α → Option β) (needs : β → Finset α) (x : Finset α × Finset β) : Prop :=
  ∀ b ∈ x.2, ∀ a ∈ needs b, a ∈ x.1 ∨ ∀ c, owner a = some c → c ∈ x.2

/-- Everything found lies in the set, and so does every answer to an open request. -/
def Confined (owner : α → Option β) (s : Set β) (x : Finset α × Finset β) : Prop :=
  (∀ b ∈ x.2, b ∈ s) ∧ ∀ a ∈ x.1, ∀ c, owner a = some c → c ∈ s

theorem Round.subset {x y : Finset α × Finset β} (h : Round owner needs x y) : x.2 ⊆ y.2 := by
  cases h with
  | settled ha hc => exact Finset.Subset.refl _
  | discovered ha hc hnew => exact Finset.subset_insert _ _

theorem Round.covered {x y : Finset α × Finset β} (h : Round owner needs x y)
    (hx : Covered owner needs x) : Covered owner needs y := by
  cases h with
  | @settled requests found a ha hc =>
      intro b hb a' ha'
      by_cases heq : a' = a
      · subst heq
        exact Or.inr hc
      · rcases hx b hb a' ha' with hopen | hanswered
        · exact Or.inl (Finset.mem_erase.mpr ⟨heq, hopen⟩)
        · exact Or.inr hanswered
  | @discovered requests found a c ha hc hnew =>
      intro b hb a' ha'
      rcases Finset.mem_insert.mp hb with rfl | hb
      · exact Or.inl (Finset.mem_union_right _ ha')
      · by_cases heq : a' = a
        · subst heq
          right
          intro c' hc'
          rw [hc] at hc'
          obtain rfl := Option.some.inj hc'
          exact Finset.mem_insert_self _ _
        · rcases hx b hb a' ha' with hopen | hanswered
          · exact Or.inl (Finset.mem_union_left _ (Finset.mem_erase.mpr ⟨heq, hopen⟩))
          · right
            intro c' hc'
            exact Finset.mem_insert_of_mem (hanswered c' hc')

theorem Round.confined {s : Set β} (hs : IsClosed owner needs s) {x y : Finset α × Finset β}
    (h : Round owner needs x y) (hx : Confined owner s x) : Confined owner s y := by
  obtain ⟨hfound, hopen⟩ := hx
  cases h with
  | settled ha hc =>
      refine ⟨hfound, ?_⟩
      intro a' ha'
      exact hopen a' (Finset.mem_of_mem_erase ha')
  | @discovered requests found a c ha hc hnew =>
      have hmem : c ∈ s := hopen a ha c hc
      constructor
      · intro b hb
        rcases Finset.mem_insert.mp hb with rfl | hb
        · exact hmem
        · exact hfound b hb
      · intro a' ha'
        rcases Finset.mem_union.mp ha' with ha' | ha'
        · exact hopen a' (Finset.mem_of_mem_erase ha')
        · exact hs c hmem a' ha'

section Rounds

variable {x y : Finset α × Finset β}

theorem Rounds.subset (h : Rounds owner needs x y) : x.2 ⊆ y.2 := by
  induction h with
  | refl => exact Finset.Subset.refl _
  | tail _ hround ih => exact ih.trans hround.subset

theorem Rounds.covered (h : Rounds owner needs x y) (hx : Covered owner needs x) :
    Covered owner needs y := by
  induction h with
  | refl => exact hx
  | tail _ hround ih => exact hround.covered ih

theorem Rounds.confined {s : Set β} (hs : IsClosed owner needs s)
    (h : Rounds owner needs x y) (hx : Confined owner s x) : Confined owner s y := by
  induction h with
  | refl => exact hx
  | tail _ hround ih => exact hround.confined hs ih

/-- A search that begins with all requests of its elements ends with the least closed set. -/
theorem Rounds.isLeast {requests : Finset α} {start found : Finset β}
    (hstart : ∀ a, a ∈ requests ↔ ∃ b ∈ start, a ∈ needs b)
    (h : Rounds owner needs (requests, start) (∅, found)) :
    IsLeast {s : Set β | ↑start ⊆ s ∧ IsClosed owner needs s} ↑found := by
  constructor
  · refine ⟨Finset.coe_subset.mpr h.subset, ?_⟩
    have hcovered : Covered owner needs (∅, found) := by
      apply h.covered
      intro b hb a ha
      exact Or.inl ((hstart a).mpr ⟨b, hb, ha⟩)
    intro b hb a ha
    rcases hcovered b hb a ha with hopen | hanswered
    · exact absurd hopen (Finset.notMem_empty a)
    · exact hanswered
  · rintro s ⟨hsub, hs⟩
    have hconfined : Confined owner s (∅, found) := by
      apply h.confined hs
      refine ⟨fun b hb => hsub hb, ?_⟩
      intro a ha c hc
      obtain ⟨b, hb, hneeds⟩ := (hstart a).mp ha
      exact hs b (hsub hb) a hneeds c hc
    exact hconfined.1

end Rounds

end Worklist

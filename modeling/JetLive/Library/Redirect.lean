import Mathlib.Logic.Relation
import Mathlib.Data.List.Nodup

/-!
# Redirections

A list of redirections, the most recent one first, sends each of its sources to a
target. `Ends l a b` says that following the redirections from `a` ends at `b`.
Redirections are followed deterministically, so a chain that ends has no cycle.
`Ends.append` is the rule for adding redirections: if they start where chains end,
and lead to where nothing starts, then every chain is prolonged by at most one
link.
-/

namespace Redirect

open Relation

variable {α : Type*} [DecidableEq α]

/-- Where the most recent redirection from `a` leads. -/
def target (l : List (α × α)) (a : α) : Option α :=
  (l.find? fun e => e.1 = a).map Prod.snd

def Link (l : List (α × α)) (a b : α) : Prop := target l a = some b

def Ends (l : List (α × α)) (a b : α) : Prop :=
  ReflTransGen (Link l) a b ∧ target l b = none

variable {l new : List (α × α)} {a b c : α}

theorem target_eq_none_iff : target l a = none ↔ a ∉ l.map Prod.fst := by
  simp only [target, Option.map_eq_none_iff, List.find?_eq_none, decide_eq_true_eq,
    List.mem_map, not_exists, not_and]

theorem target_append : target (new ++ l) a = (target new a).or (target l a) := by
  simp [target, List.find?_append, Option.map_or]

theorem mem_of_target_eq_some (h : target l a = some b) : (a, b) ∈ l := by
  obtain ⟨e, he, rfl⟩ := Option.map_eq_some_iff.mp h
  have hfst : e.1 = a := by simpa using List.find?_some he
  rw [← hfst]
  exact List.mem_of_find?_eq_some he

theorem target_eq_some_of_mem (hnodup : (l.map Prod.fst).Nodup) (h : (a, b) ∈ l) :
    target l a = some b := by
  obtain ⟨c, hc⟩ : ∃ c, target l a = some c := by
    rw [← Option.ne_none_iff_exists']
    intro hnone
    exact target_eq_none_iff.mp hnone (List.mem_map_of_mem h)
  have heq := List.inj_on_of_nodup_map hnodup h (mem_of_target_eq_some hc) rfl
  rw [hc, (Prod.mk.inj heq).2]

theorem ends_nil (a : α) : Ends [] a a := ⟨.refl, rfl⟩

/-- Every point on a chain that ends leads to the end. -/
theorem Ends.of_reflTransGen (h : Ends l a b) (hc : ReflTransGen (Link l) a c) :
    ReflTransGen (Link l) c b := by
  induction hc with
  | refl => exact h.1
  | tail _ hlink ih =>
      rcases ih.cases_head with rfl | ⟨d, hd, hdb⟩
      · exact absurd (h.2.symm.trans hlink) (by simp)
      · obtain rfl := Option.some.inj (hd.symm.trans hlink)
        exact hdb

theorem Ends.unique (h : Ends l a b) (hc : Ends l a c) : b = c := by
  rcases (h.of_reflTransGen hc.1).cases_head with heq | ⟨d, hd, _⟩
  · exact heq.symm
  · exact absurd (hc.2.symm.trans hd) (by simp)

theorem not_transGen_self (hend : ReflTransGen (Link l) c b) (hb : target l b = none) :
    ¬ TransGen (Link l) c c := by
  induction hend using ReflTransGen.head_induction_on with
  | refl =>
      intro h
      obtain ⟨d, hd, _⟩ := TransGen.head'_iff.mp h
      exact absurd (hb.symm.trans hd) (by simp)
  | head hlink _ ih =>
      -- a cycle through a point is also one through the next point
      intro h
      obtain ⟨d, hd, hback⟩ := TransGen.head'_iff.mp h
      obtain rfl := Option.some.inj (hd.symm.trans hlink)
      exact ih (TransGen.tail' hback hlink)

/-- A chain that ends has no cycle. -/
theorem Ends.acyclic (h : Ends l a b) (hc : ReflTransGen (Link l) a c) :
    ¬ TransGen (Link l) c c :=
  not_transGen_self (h.of_reflTransGen hc) h.2

/-- Redirections that start at ends only prolong chains. -/
theorem Ends.append (h : Ends l a b) (new : List (α × α))
    (hstart : ∀ e ∈ new, target l e.1 = none) (hend : ∀ e ∈ new, target (new ++ l) e.2 = none) :
    Ends (new ++ l) a ((target new b).getD b) := by
  have hmono : ReflTransGen (Link (new ++ l)) a b := by
    refine ReflTransGen.mono ?_ a b h.1
    intro x y hxy
    cases hx : target new x with
    | none =>
        rw [Link, target_append, hx]
        exact hxy
    | some z =>
        have hnone := hstart _ (mem_of_target_eq_some hx)
        exact absurd (hnone.symm.trans hxy) (by simp)
  cases hb : target new b with
  | none =>
      refine ⟨hmono, ?_⟩
      rw [Option.getD_none, target_append, hb, h.2, Option.or_none]
  | some b' =>
      refine ⟨hmono.tail ?_, hend _ (mem_of_target_eq_some hb)⟩
      rw [Link, target_append, hb]
      rfl

end Redirect

import Mathlib.Data.List.Basic
import Mathlib.Data.Int.Order.Basic

/-!
# Collapsing events

Events come in the order of time. One is kept unless a kept event of the same key lies at most a
window before it. Whether it is kept depends only on the events of its key (`filter_keepAll`).

A table with one time for a key decides this as well, if it has the times of the kept events that
are not obsolete yet (`Tracks`), and obsolete times are removed before it is asked.
-/

namespace Debounce

variable {α κ : Type*} (key : α → κ) (time : α → ℤ) (window : ℤ)

/-- No kept event of the same key lies at most a window before the event. -/
def Fresh (kept : List α) (e : α) : Prop :=
  ∀ e' ∈ kept, key e' = key e → window < time e - time e'

section Keep

variable [DecidableEq κ]

instance (kept : List α) (e : α) : Decidable (Fresh key time window kept e) :=
  inferInstanceAs (Decidable (∀ e' ∈ kept, key e' = key e → window < time e - time e'))

def keep (kept : List α) (e : α) : List α :=
  if Fresh key time window kept e then kept ++ [e] else kept

def keepAll (kept l : List α) : List α := l.foldl (keep key time window) kept

variable {key time window} {kept : List α} {e : α} {k : κ}

theorem keepAll_append (kept l l' : List α) : keepAll key time window kept (l ++ l') =
    keepAll key time window (keepAll key time window kept l) l' :=
  List.foldl_append

theorem mem_of_mem_keepAll {l : List α} (h : e ∈ keepAll key time window kept l) :
    e ∈ kept ∨ e ∈ l := by
  induction l generalizing kept with
  | nil => exact .inl h
  | cons e' l ih =>
      rcases ih h with h | h
      · unfold keep at h
        split at h
        · rcases List.mem_append.mp h with h | h
          · exact .inl h
          · exact .inr (List.mem_cons.mpr (.inl (List.mem_singleton.mp h)))
        · exact .inl h
      · exact .inr (List.mem_cons_of_mem _ h)

theorem fresh_filter : Fresh key time window (kept.filter (key · = key e)) e ↔
    Fresh key time window kept e := by
  simp only [Fresh, List.mem_filter, decide_eq_true_eq]
  constructor
  · exact fun h e' he' hkey => h e' ⟨he', hkey⟩ hkey
  · exact fun h e' he' hkey => h e' he'.1 hkey

theorem filter_keep : (keep key time window kept e).filter (key · = k) =
    if key e = k then keep key time window (kept.filter (key · = k)) e
    else kept.filter (key · = k) := by
  unfold keep
  by_cases hk : key e = k
  · subst hk
    rw [if_pos rfl]
    by_cases hfresh : Fresh key time window kept e
    · rw [if_pos hfresh, if_pos (fresh_filter.mpr hfresh)]
      simp
    · rw [if_neg hfresh, if_neg (mt fresh_filter.mp hfresh)]
  · rw [if_neg hk]
    split
    · simp [hk]
    · rfl

/-- The events of a key are kept as if there were no others. -/
theorem filter_keepAll (kept l : List α) : (keepAll key time window kept l).filter (key · = k) =
    keepAll key time window (kept.filter (key · = k)) (l.filter (key · = k)) := by
  induction l generalizing kept with
  | nil => rfl
  | cons e l ih =>
      rw [keepAll, List.foldl_cons, ← keepAll, ih, filter_keep]
      by_cases hk : key e = k
      · rw [if_pos hk, List.filter_cons_of_pos (by simpa using hk)]
        rfl
      · rw [if_neg hk, List.filter_cons_of_neg (by simpa using hk)]

end Keep

/-! ## Tables of times -/

/-- The times of a table are those of kept events, and none of an event that is not obsolete is
missing. -/
structure Tracks (table : κ → Option ℤ) (kept : List α) (now : ℤ) : Prop where
  sound : ∀ k t, table k = some t → ∃ e ∈ kept, key e = k ∧ time e = t
  complete : ∀ e ∈ kept, now - time e ≤ window → table (key e) = some (time e)

namespace Tracks

variable {key time window} {kept : List α} {e : α} {table table' : κ → Option ℤ} {now now' : ℤ}

theorem nil (now : ℤ) : Tracks key time window (fun _ => none) [] now :=
  ⟨by simp, by simp⟩

theorem mono (h : Tracks key time window table kept now) (hle : now ≤ now') :
    Tracks key time window table kept now' :=
  ⟨h.sound, fun e he hwindow => h.complete e he (by omega)⟩

/-- Obsolete times are removed. -/
theorem purge (h : Tracks key time window table kept now)
    (htable : ∀ k, table' k = (table k).filter fun t => now - t ≤ window) :
    Tracks key time window table' kept now := by
  constructor
  · intro k t ht
    rw [htable, Option.filter_eq_some_iff] at ht
    exact h.sound k t ht.1
  · intro e he hwindow
    rw [htable, h.complete e he hwindow, Option.filter_some, if_pos (by simpa using hwindow)]

/-- Without obsolete times the table tells whether an event is kept. -/
theorem eq_none_iff (h : Tracks key time window table kept (time e))
    (htable : ∀ k t, table k = some t → time e - t ≤ window) :
    table (key e) = none ↔ Fresh key time window kept e := by
  constructor
  · intro hnone e' he' hkey
    by_contra hwindow
    have hsome := h.complete e' he' (not_lt.mp hwindow)
    rw [hkey, hnone] at hsome
    exact absurd hsome (by simp)
  · intro hfresh
    rw [Option.eq_none_iff_forall_ne_some]
    intro t ht
    obtain ⟨e', he', hkey, rfl⟩ := h.sound (key e) t ht
    exact absurd (hfresh e' he' hkey) (not_lt.mpr (htable _ _ ht))

/-- The time of a kept event is recorded. -/
theorem record [DecidableEq κ] (h : Tracks key time window table kept (time e))
    (hfresh : Fresh key time window kept e)
    (htable : ∀ k, table' k = if k = key e then some (time e) else table k) :
    Tracks key time window table' (kept ++ [e]) (time e) := by
  constructor
  · intro k t ht
    rw [htable] at ht
    split at ht
    · rename_i hk
      exact ⟨e, by simp, hk.symm, Option.some.inj ht⟩
    · obtain ⟨e', he', hkey⟩ := h.sound k t ht
      exact ⟨e', List.mem_append_left _ he', hkey⟩
  · intro e' he' hwindow
    rw [htable]
    rcases List.mem_append.mp he' with he' | he'
    · have hne : key e' ≠ key e := fun hkey => absurd (hfresh e' he' hkey) (not_lt.mpr hwindow)
      rw [if_neg hne, h.complete e' he' hwindow]
    · obtain rfl := List.mem_singleton.mp he'
      rw [if_pos rfl]

end Tracks

end Debounce

import Mathlib.Data.Finset.Max
import Mathlib.Order.WithBot

/-!
# Iterators of sorted keys

An iterator of a sorted container stands at a key, or at the end `⊤`, which is behind all keys. The
key that is at or below a value is found from `upperBound`, the first key above it, by one step
back. There is no step back from the first key: if all keys are above the value, the iterator is
left there (`floor`). It stands at the end only if there are no keys at all.
-/

namespace SortedKeys

variable {α : Type*} [LinearOrder α]

def first (s : Finset α) : WithTop α := s.min

def upperBound (s : Finset α) (a : α) : WithTop α := (s.filter (a < ·)).min

/-- The last key in front of an iterator, which stays where it is if there is none. -/
def stepBack (s : Finset α) (i : WithTop α) : WithTop α :=
  (s.filter fun b : α => (b : WithTop α) < i).max.recBotCoe i fun b => b

/-- One step back from `upperBound`, unless this is the first key. -/
def floor (s : Finset α) (a : α) : WithTop α :=
  if upperBound s a ≠ first s then stepBack s (upperBound s a) else upperBound s a

variable {s : Finset α} {a b c : α}

theorem upperBound_eq_top_iff : upperBound s a = ⊤ ↔ ∀ b ∈ s, b ≤ a := by
  rw [upperBound, Finset.min_eq_top, Finset.filter_eq_empty_iff]
  simp only [not_lt]

theorem upperBound_eq_coe_iff : upperBound s a = c ↔ IsLeast {b | b ∈ s ∧ a < b} c := by
  constructor
  · intro h
    refine ⟨Finset.mem_filter.mp (Finset.mem_of_min h), fun b hb => ?_⟩
    have hmem : b ∈ s.filter (a < ·) := Finset.mem_filter.mpr hb
    exact Finset.min_le_of_eq hmem h
  · intro h
    have hmem : c ∈ s.filter (a < ·) := Finset.mem_filter.mpr h.1
    obtain ⟨d, hd⟩ := Finset.min_of_mem hmem
    obtain ⟨hds, had⟩ := Finset.mem_filter.mp (Finset.mem_of_min hd)
    rw [upperBound, hd, le_antisymm (Finset.min_le_of_eq hmem hd) (h.2 ⟨hds, had⟩)]

/-- The first key above a value, or a given value if there is none. -/
theorem untopD_upperBound_cases (s : Finset α) (a d : α) :
    IsLeast {b | b ∈ s ∧ a < b} ((upperBound s a).untopD d) ∨
      (upperBound s a).untopD d = d ∧ ∀ b ∈ s, b ≤ a := by
  cases hupper : upperBound s a with
  | top => exact .inr ⟨rfl, upperBound_eq_top_iff.mp hupper⟩
  | coe c => exact .inl (upperBound_eq_coe_iff.mp hupper)

theorem untopD_upperBound_eq_iff {c d : α} : (upperBound s a).untopD d = c ↔
    IsLeast {b | b ∈ s ∧ a < b} c ∨ c = d ∧ ∀ b ∈ s, b ≤ a := by
  constructor
  · rintro rfl
    exact untopD_upperBound_cases s a d
  · rintro (hleast | ⟨rfl, hnone⟩)
    · rw [upperBound_eq_coe_iff.mpr hleast, WithTop.untopD_coe]
    · rw [upperBound_eq_top_iff.mpr hnone, WithTop.untopD_top]

theorem le_untopD_upperBound (s : Finset α) {d : α} (h : a ≤ d) :
    a ≤ (upperBound s a).untopD d := by
  rcases untopD_upperBound_cases s a d with ⟨⟨_, hlt⟩, _⟩ | ⟨heq, _⟩
  · exact hlt.le
  · exact h.trans_eq heq.symm

theorem coe_lt_upperBound_iff (hb : b ∈ s) : (b : WithTop α) < upperBound s a ↔ b ≤ a := by
  constructor
  · intro hlt
    by_contra hab
    have hmem : b ∈ s.filter (a < ·) := Finset.mem_filter.mpr ⟨hb, not_le.mp hab⟩
    exact absurd (Finset.min_le hmem) (not_le.mpr hlt)
  · intro hba
    unfold upperBound
    cases hmin : (s.filter (a < ·)).min with
    | top => exact WithTop.coe_lt_top b
    | coe c =>
        obtain ⟨_, hac⟩ := Finset.mem_filter.mp (Finset.mem_of_min hmin)
        exact WithTop.coe_lt_coe.mpr (hba.trans_lt hac)

/-- There is nothing in front of `upperBound` exactly if all keys are above the value. -/
theorem upperBound_eq_first_iff : upperBound s a = first s ↔ ∀ b ∈ s, a < b := by
  constructor
  · intro heq b hb
    by_contra hab
    have hlt := (coe_lt_upperBound_iff hb).mpr (not_lt.mp hab)
    rw [heq] at hlt
    exact absurd (Finset.min_le hb) (not_le.mpr hlt)
  · intro h
    rw [upperBound, Finset.filter_true_of_mem h, first]

theorem isGreatest_of_max_eq (h : (s.filter (· ≤ a)).max = c) :
    IsGreatest {b | b ∈ s ∧ b ≤ a} c := by
  refine ⟨Finset.mem_filter.mp (Finset.mem_of_max h), fun b hb => ?_⟩
  have hmem : b ∈ s.filter (· ≤ a) := Finset.mem_filter.mpr hb
  exact Finset.le_max_of_eq hmem h

theorem exists_isGreatest (h : ∃ b ∈ s, b ≤ a) : ∃ c, IsGreatest {b | b ∈ s ∧ b ≤ a} c := by
  obtain ⟨b, hb, hba⟩ := h
  have hmem : b ∈ s.filter (· ≤ a) := Finset.mem_filter.mpr ⟨hb, hba⟩
  obtain ⟨c, hc⟩ := Finset.max_of_mem hmem
  exact ⟨c, isGreatest_of_max_eq hc⟩

/-- The step back from `upperBound` leads to the greatest key that is not above the value. -/
theorem stepBack_upperBound (h : IsGreatest {b | b ∈ s ∧ b ≤ a} c) :
    stepBack s (upperBound s a) = c := by
  have hfilter : s.filter (fun b : α => (b : WithTop α) < upperBound s a) = s.filter (· ≤ a) :=
    Finset.filter_congr fun b hb => coe_lt_upperBound_iff hb
  have hmem : c ∈ s.filter (· ≤ a) := Finset.mem_filter.mpr h.1
  obtain ⟨d, hd⟩ := Finset.max_of_mem hmem
  rw [stepBack, hfilter, hd, WithBot.recBotCoe_coe, (isGreatest_of_max_eq hd).unique h]

/-- The iterator stands at the greatest key that is not above the value, if there is one. -/
theorem floor_of_isGreatest (h : IsGreatest {b | b ∈ s ∧ b ≤ a} c) : floor s a = c := by
  have hne : upperBound s a ≠ first s := by
    intro heq
    exact absurd (upperBound_eq_first_iff.mp heq c h.1.1) (not_lt.mpr h.1.2)
  rw [floor, if_pos hne, stepBack_upperBound h]

/-- Otherwise it stands at the first key. -/
theorem floor_of_forall_lt (h : ∀ b ∈ s, a < b) : floor s a = first s := by
  have heq := upperBound_eq_first_iff.mpr h
  rw [floor, if_neg (not_not.mpr heq), heq]

theorem floor_eq_top_iff : floor s a = ⊤ ↔ s = ∅ := by
  by_cases hex : ∃ b ∈ s, b ≤ a
  · obtain ⟨c, hc⟩ := exists_isGreatest hex
    rw [floor_of_isGreatest hc]
    exact iff_of_false WithTop.coe_ne_top (Finset.ne_empty_of_mem hc.1.1)
  · simp only [not_exists, not_and, not_le] at hex
    rw [floor_of_forall_lt hex]
    exact Finset.min_eq_top

theorem mem_of_floor_eq_coe (h : floor s a = c) : c ∈ s := by
  by_cases hex : ∃ b ∈ s, b ≤ a
  · obtain ⟨d, hd⟩ := exists_isGreatest hex
    obtain rfl := WithTop.coe_inj.mp ((floor_of_isGreatest hd).symm.trans h)
    exact hd.1.1
  · simp only [not_exists, not_and, not_le] at hex
    exact Finset.mem_of_min ((floor_of_forall_lt hex).symm.trans h)

/-- The key where the iterator stands is the greatest one that is not above the value, if it is not
above the value itself. -/
theorem isGreatest_of_floor_eq_coe (h : floor s a = c) (hca : c ≤ a) :
    IsGreatest {b | b ∈ s ∧ b ≤ a} c := by
  obtain ⟨d, hd⟩ := exists_isGreatest ⟨c, mem_of_floor_eq_coe h, hca⟩
  obtain rfl := WithTop.coe_inj.mp ((floor_of_isGreatest hd).symm.trans h)
  exact hd

end SortedKeys

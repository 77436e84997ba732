import Mathlib.Data.BitVec

/-!
# Words and their low halves

An address of 64 bits and its low half of 32 bits, read as a signed number. The low half
determines the address up to its window, the multiple of `2 ^ 32` that is closest to it. So
differences may be taken in the low halves exactly if both addresses lie in one window, and a
sum with a word of 32 bits is exact exactly if it fits into 32 bits.

The last part is about fields of some bits in a word, and what else is kept when one is written.
-/

namespace Words

/-- The number is a signed word of `n` bits. -/
def FitsInt (n : ℕ) (z : ℤ) : Prop := -2 ^ (n - 1) ≤ z ∧ z < 2 ^ (n - 1)

instance (n : ℕ) (z : ℤ) : Decidable (FitsInt n z) := inferInstanceAs (Decidable (_ ∧ _))

/-- The multiple of `2 ^ 32` that is closest to a word, without its trailing zeros. -/
def window (a : BitVec 64) : BitVec 64 := (a + 0x80000000#64) >>> 32

theorem toNat_window_lt (a : BitVec 64) : (window a).toNat < 2 ^ 32 := by
  have h := (a + 0x80000000#64).isLt
  rw [window, BitVec.toNat_ushiftRight, Nat.shiftRight_eq_div_pow]
  omega

theorem toNat_signExtend_truncate (a : BitVec 64) :
    ((a.truncate 32).signExtend 64).toNat =
      if a.toNat % 2 ^ 32 < 2 ^ 31 then a.toNat % 2 ^ 32
      else a.toNat % 2 ^ 32 + (2 ^ 64 - 2 ^ 32) := by
  rw [BitVec.toNat_signExtend]
  simp [BitVec.msb_eq_decide]
  split <;> split <;> omega

/-- A word is its window together with its signed low half. -/
theorem window_shiftLeft_add (a : BitVec 64) :
    window a <<< 32 + (a.truncate 32).signExtend 64 = a := by
  have hlt := a.isLt
  apply BitVec.eq_of_toNat_eq
  rw [BitVec.toNat_add, toNat_signExtend_truncate, BitVec.toNat_shiftLeft, window,
    BitVec.toNat_ushiftRight, BitVec.toNat_add, Nat.shiftRight_eq_div_pow, Nat.shiftLeft_eq]
  simp only [BitVec.toNat_ofNat]
  split <;> omega

theorem window_shiftLeft_inj {a b : BitVec 64} :
    window a <<< 32 = window b <<< 32 ↔ window a = window b := by
  have ha := toNat_window_lt a
  have hb := toNat_window_lt b
  rw [← BitVec.toNat_inj, ← BitVec.toNat_inj, BitVec.toNat_shiftLeft, BitVec.toNat_shiftLeft,
    Nat.shiftLeft_eq, Nat.shiftLeft_eq, Nat.mod_eq_of_lt (by omega), Nat.mod_eq_of_lt (by omega)]
  omega

/-- The difference of the signed low halves is the whole difference in one window only. -/
theorem signExtend_truncate_sub_iff (a b : BitVec 64) :
    (a.truncate 32).signExtend 64 - (b.truncate 32).signExtend 64 = a - b ↔
      window a = window b := by
  have ha := window_shiftLeft_add a
  have hb := window_shiftLeft_add b
  rw [← window_shiftLeft_inj]
  constructor
  · intro h
    bv_omega
  · intro h
    rw [h] at ha
    bv_omega

theorem bmod_eq_self_iff {z : ℤ} : z.bmod (2 ^ 32) = z ↔ FitsInt 32 z := by
  unfold FitsInt
  constructor
  · intro h
    have hlo := Int.le_bmod (x := z) (m := 2 ^ 32) (by decide)
    have hhi := Int.bmod_lt (x := z) (m := 2 ^ 32) (by decide)
    rw [h] at hlo hhi
    omega
  · rintro ⟨hlo, hhi⟩
    apply Int.bmod_eq_of_le <;> omega

theorem toInt_truncate {a : BitVec 64} (h : FitsInt 32 a.toInt) :
    (a.truncate 32).toInt = a.toInt := by
  rw [BitVec.truncate, BitVec.toInt_setWidth, ← bmod_eq_self_iff.mpr h,
    BitVec.toInt_eq_toNat_bmod, Int.bmod_bmod_of_dvd (by decide)]

theorem fitsInt_toInt (d : BitVec 32) : FitsInt 32 d.toInt := ⟨d.le_toInt, d.toInt_lt⟩

/-- The sum with a small difference is exact only if it fits. -/
theorem signExtend_add_truncate_iff (d : BitVec 32) {a : BitVec 64} (h : FitsInt 32 a.toInt) :
    (d + a.truncate 32).signExtend 64 = d.signExtend 64 + a ↔
      FitsInt 32 (d.toInt + a.toInt) := by
  have hsum : (d.toInt + a.toInt).bmod (2 ^ 64) = d.toInt + a.toInt := by
    obtain ⟨hlo, hhi⟩ := h
    obtain ⟨hlo', hhi'⟩ := fitsInt_toInt d
    apply Int.bmod_eq_of_le <;> omega
  rw [← BitVec.toInt_inj, BitVec.toInt_signExtend_of_le (by decide), BitVec.toInt_add,
    BitVec.toInt_add, BitVec.toInt_signExtend_of_le (by decide), toInt_truncate h, hsum]
  exact bmod_eq_self_iff

/-- In one window the difference of the signed low halves is the difference as a number. -/
theorem toInt_truncate_sub_iff (a b : BitVec 64) :
    (a.truncate 32).toInt - (b.truncate 32).toInt = (a - b).toInt ↔ window a = window b := by
  have hsub : ((a.truncate 32).toInt - (b.truncate 32).toInt).bmod (2 ^ 64) =
      (a.truncate 32).toInt - (b.truncate 32).toInt := by
    obtain ⟨hlo, hhi⟩ := fitsInt_toInt (a.truncate 32)
    obtain ⟨hlo', hhi'⟩ := fitsInt_toInt (b.truncate 32)
    apply Int.bmod_eq_of_le <;> omega
  have hhalves : ((a.truncate 32).signExtend 64 - (b.truncate 32).signExtend 64).toInt =
      (a.truncate 32).toInt - (b.truncate 32).toInt := by
    rw [BitVec.toInt_sub, BitVec.toInt_signExtend_of_le (by decide),
      BitVec.toInt_signExtend_of_le (by decide), hsub]
  rw [← signExtend_truncate_sub_iff, ← BitVec.toInt_inj, hhalves]

theorem truncate_sub (a b : BitVec 64) :
    (a - b).truncate 32 = a.truncate 32 - b.truncate 32 := by
  apply BitVec.eq_of_toNat_eq
  have ha := a.isLt
  have hb := b.isLt
  simp only [BitVec.truncate, BitVec.toNat_setWidth, BitVec.toNat_sub]
  omega

theorem saddOverflow_eq_false_iff (a b : BitVec 32) :
    BitVec.saddOverflow a b = false ↔ FitsInt 32 (a.toInt + b.toInt) := by
  simp [BitVec.saddOverflow, FitsInt]
  omega

theorem ssubOverflow_eq_false_iff (a b : BitVec 32) :
    BitVec.ssubOverflow a b = false ↔ FitsInt 32 (a.toInt - b.toInt) := by
  simp [BitVec.ssubOverflow, FitsInt]
  omega

/-! ## Fields of words -/

section Fields

variable {w : ℕ}

theorem and_not_add_and (a m : BitVec w) : (a &&& ~~~m) + (a &&& m) = a := by
  rw [BitVec.add_eq_or_of_and_eq_zero]
  · ext i
    cases hm : m[i] <;> simp [hm]
  · ext i
    cases hm : m[i] <;> simp [hm]

def mask (s n : ℕ) : BitVec w := (BitVec.allOnes n).setWidth w <<< s

def setField (a : BitVec w) (s : ℕ) {n : ℕ} (v : BitVec n) : BitVec w :=
  (a &&& ~~~mask s n) ||| v.setWidth w <<< s

theorem getLsbD_mask (s n i : ℕ) :
    (mask s n : BitVec w).getLsbD i = (decide (i < w) && decide (s ≤ i ∧ i < s + n)) := by
  rw [mask, BitVec.getLsbD_shiftLeft, BitVec.getLsbD_setWidth, BitVec.getLsbD_allOnes]
  by_cases hi : i < w
  · by_cases hs : s ≤ i
    · have hfield : i - s < n ↔ i < s + n := by omega
      have hword : i - s < w := by omega
      simp [hi, hs, not_lt.mpr hs, hfield, hword]
    · simp [hi, hs, not_le.mp hs]
  · simp [hi]

theorem getLsbD_setField (a : BitVec w) (s : ℕ) {n : ℕ} (v : BitVec n) (i : ℕ) :
    (setField a s v).getLsbD i =
      (decide (i < w) && if s ≤ i ∧ i < s + n then v.getLsbD (i - s) else a.getLsbD i) := by
  rw [setField, BitVec.getLsbD_or, BitVec.getLsbD_and, BitVec.getLsbD_not, getLsbD_mask,
    BitVec.getLsbD_shiftLeft, BitVec.getLsbD_setWidth]
  by_cases hi : i < w
  · by_cases hs : s ≤ i
    · by_cases hn : i < s + n
      · simp [hi, hs, hn, not_lt.mpr hs]
        omega
      · have hv : v.getLsbD (i - s) = false := BitVec.getLsbD_of_ge _ _ (by omega)
        simp [hi, hs, hn, hv]
    · simp [hi, hs, not_le.mp hs]
  · simp [hi]

theorem extractLsb'_setField (a : BitVec w) {s n : ℕ} (v : BitVec n) (h : s + n ≤ w) :
    (setField a s v).extractLsb' s n = v := by
  apply BitVec.eq_of_getLsbD_eq
  intro i hi
  rw [BitVec.getLsbD_extractLsb', getLsbD_setField]
  simp [hi, show s + i < w by omega]

/-- Two fields without a common bit. -/
theorem extractLsb'_setField_of_disjoint (a : BitVec w) {s n s' n' : ℕ} (v : BitVec n)
    (h : s + n ≤ s' ∨ s' + n' ≤ s) :
    (setField a s v).extractLsb' s' n' = a.extractLsb' s' n' := by
  apply BitVec.eq_of_getLsbD_eq
  intro i hi
  rw [BitVec.getLsbD_extractLsb', BitVec.getLsbD_extractLsb', getLsbD_setField, if_neg (by omega)]
  by_cases hw : s' + i < w
  · simp [hi, hw]
  · simp [hi, hw, BitVec.getLsbD_of_ge _ _ (not_lt.mp hw)]

/-- A part of a field. -/
theorem extractLsb'_setField_of_within (a : BitVec w) {s n s' n' : ℕ} (v : BitVec n)
    (hs : s ≤ s') (hn : s' + n' ≤ s + n) (hw : s + n ≤ w) :
    (setField a s v).extractLsb' s' n' = v.extractLsb' (s' - s) n' := by
  apply BitVec.eq_of_getLsbD_eq
  intro i hi
  rw [BitVec.getLsbD_extractLsb', BitVec.getLsbD_extractLsb', getLsbD_setField,
    if_pos (by omega), Nat.sub_add_comm hs]
  simp [hi, show s' + i < w by omega]

theorem getLsbD_setField_of_not_within (a : BitVec w) {s n i : ℕ} (v : BitVec n)
    (h : ¬ (s ≤ i ∧ i < s + n)) : (setField a s v).getLsbD i = a.getLsbD i := by
  rw [getLsbD_setField, if_neg h]
  by_cases hi : i < w
  · simp [hi]
  · simp [hi, BitVec.getLsbD_of_ge _ _ (not_lt.mp hi)]

/-- Bits outside of the field are kept. -/
theorem setField_and (a : BitVec w) {s n : ℕ} (v : BitVec n) {m : BitVec w}
    (h : m &&& mask s n = 0) : setField a s v &&& m = a &&& m := by
  apply BitVec.eq_of_getLsbD_eq
  intro i hi
  have hbit := congrArg (fun b => b.getLsbD i) h
  simp only [BitVec.getLsbD_and, getLsbD_mask, hi, decide_true, Bool.true_and,
    BitVec.ofNat_eq_ofNat, BitVec.getLsbD_zero] at hbit
  rw [BitVec.getLsbD_and, BitVec.getLsbD_and, getLsbD_setField]
  by_cases hfield : s ≤ i ∧ i < s + n
  · simp only [hfield, and_self, decide_true, Bool.and_true] at hbit
    rw [hbit, Bool.and_false, Bool.and_false]
  · simp [hi, hfield]

theorem setField_eq_self_iff (a : BitVec w) {s n : ℕ} (v : BitVec n) (h : s + n ≤ w) :
    setField a s v = a ↔ a.extractLsb' s n = v := by
  constructor
  · intro heq
    rw [← heq, extractLsb'_setField a v h]
  · rintro rfl
    apply BitVec.eq_of_getLsbD_eq
    intro i hi
    rw [getLsbD_setField]
    split
    · rename_i hfield
      rw [BitVec.getLsbD_extractLsb', Nat.add_sub_cancel' hfield.1]
      simp [hi, show i - s < n by omega]
    · simp [hi]

/-! ### Tests of some bits -/

/-- Two tests of one word agree on the bits that both look at. -/
theorem and_overlap {a m v m' v' : BitVec w} (h : a &&& m = v) (h' : a &&& m' = v') :
    v &&& m' = v' &&& m := by
  rw [← h, ← h', BitVec.and_assoc, BitVec.and_assoc, BitVec.and_comm m]

/-- A test tells the bits of a smaller mask. -/
theorem and_eq_of_and_eq {a m v m' : BitVec w} (h : a &&& m = v) (hm : m &&& m' = m') :
    a &&& m' = v &&& m' := by
  rw [← h, BitVec.and_assoc, hm]

/-- A test of the bits of two masks. -/
theorem and_or_eq_iff {a v : BitVec w} (m m' : BitVec w) (hv : v &&& (m ||| m') = v) :
    a &&& (m ||| m') = v ↔ a &&& m = v &&& m ∧ a &&& m' = v &&& m' := by
  constructor
  · rintro rfl
    rw [BitVec.and_assoc, BitVec.and_assoc]
    constructor <;> ext i <;> simp <;> grind
  · rintro ⟨hm, hm'⟩
    rw [← hv, BitVec.and_or_distrib_left, BitVec.and_or_distrib_left, hm, hm']

end Fields

end Words

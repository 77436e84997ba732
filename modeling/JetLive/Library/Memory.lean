import Mathlib.Data.BitVec

/-!
# Byte memory

A memory is a function from addresses to bytes. The addresses are words, so a
range of addresses may wrap around; whether an address lies in a range is decided
by its distance from the start. Copying and writing words only change the bytes
of their target range.
-/

namespace ByteMemory

variable {w : ℕ}

abbrev Byte := BitVec 8

abbrev Memory (w : ℕ) := BitVec w → Byte

/-- The address `x` is one of the `n` addresses from `a` on. -/
def Within (a : BitVec w) (n : ℕ) (x : BitVec w) : Prop := (x - a).toNat < n

instance (a : BitVec w) (n : ℕ) (x : BitVec w) : Decidable (Within a n x) :=
  inferInstanceAs (Decidable (_ < _))

@[simp] theorem within_add (a o : BitVec w) (n : ℕ) : Within a n (a + o) ↔ o.toNat < n := by
  rw [Within, BitVec.add_comm, BitVec.add_sub_cancel]

theorem Within.mono {a x : BitVec w} {n n' : ℕ} (h : Within a n x) (hn : n ≤ n') :
    Within a n' x :=
  lt_of_lt_of_le h hn

def Apart (a : BitVec w) (n : ℕ) (b : BitVec w) (k : ℕ) : Prop :=
  ∀ x, Within a n x → ¬ Within b k x

theorem Apart.symm {a b : BitVec w} {n k : ℕ} (h : Apart a n b k) : Apart b k a n :=
  fun x hb ha => h x ha hb

/-- Two ranges that do not wrap around are apart if one ends before the other begins. -/
theorem apart_of_le {a b : BitVec w} {n k : ℕ} (hab : a.toNat + n ≤ b.toNat)
    (hb : b.toNat + k ≤ 2 ^ w) : Apart a n b k := by
  intro x ha hb'
  have hx := x.isLt
  have hsub : ∀ c : BitVec w, (x - c).toNat =
      if c.toNat ≤ x.toNat then x.toNat - c.toNat else 2 ^ w + x.toNat - c.toNat := by
    intro c
    have hc := c.isLt
    rw [BitVec.toNat_sub]
    split
    · have heq : 2 ^ w - c.toNat + x.toNat = x.toNat - c.toNat + 2 ^ w := by omega
      rw [heq, Nat.add_mod_right, Nat.mod_eq_of_lt (by omega)]
    · rw [Nat.mod_eq_of_lt (by omega)]
      omega
  rw [Within, hsub] at ha hb'
  split at ha <;> split at hb' <;> omega

namespace Memory

/-- `memcpy`: the `n` bytes from `src` on, all read before the first is written. -/
def copy (m : Memory w) (dst src : BitVec w) (n : ℕ) : Memory w :=
  fun x => if Within dst n x then m (src + (x - dst)) else m x

/-- The `n` bytes from `a` on as a number, the least significant byte first. -/
def readWord (m : Memory w) (a : BitVec w) : ℕ → ℕ
  | 0 => 0
  | n + 1 => (m a).toNat + 256 * readWord m (a + 1) n

/-- Write the number `v` as `n` bytes from `a` on. -/
def writeWord (m : Memory w) (a : BitVec w) (n v : ℕ) : Memory w :=
  fun x => if Within a n x then BitVec.ofNat 8 (v / 256 ^ (x - a).toNat) else m x

theorem copy_within (m : Memory w) (dst src : BitVec w) {n : ℕ} {o : BitVec w}
    (h : o.toNat < n) : m.copy dst src n (dst + o) = m (src + o) := by
  have hsub : dst + o - dst = o := by
    rw [BitVec.add_comm, BitVec.add_sub_cancel]
  rw [copy, if_pos ((within_add dst o n).mpr h), hsub]

theorem copy_of_not_within (m : Memory w) (dst src : BitVec w) {n : ℕ} {x : BitVec w}
    (h : ¬ Within dst n x) : m.copy dst src n x = m x :=
  if_neg h

theorem writeWord_of_not_within (m : Memory w) {a x : BitVec w} {n : ℕ} (v : ℕ)
    (h : ¬ Within a n x) : m.writeWord a n v x = m x :=
  if_neg h

/-- A word depends on its own bytes only. -/
theorem readWord_congr {m m' : Memory w} {a : BitVec w} {n : ℕ}
    (h : ∀ i < n, m (a + BitVec.ofNat w i) = m' (a + BitVec.ofNat w i)) :
    m.readWord a n = m'.readWord a n := by
  induction n generalizing a with
  | zero => rfl
  | succ n ih =>
      have h0 := h 0 (Nat.succ_pos n)
      rw [BitVec.add_zero] at h0
      rw [readWord, readWord, h0, ih]
      intro i hi
      have hi' := h (i + 1) (Nat.succ_lt_succ hi)
      rw [BitVec.ofNat_add, BitVec.add_comm (BitVec.ofNat w i), ← BitVec.add_assoc] at hi'
      exact hi'

/-- The number that has the given bytes. -/
theorem readWord_eq_mod {m : Memory w} {a : BitVec w} {n v : ℕ}
    (h : ∀ i < n, m (a + BitVec.ofNat w i) = BitVec.ofNat 8 (v / 256 ^ i)) :
    m.readWord a n = v % 256 ^ n := by
  induction n generalizing a v with
  | zero => rw [readWord, pow_zero, Nat.mod_one]
  | succ n ih =>
      have h0 := h 0 (Nat.succ_pos n)
      rw [BitVec.add_zero, pow_zero, Nat.div_one] at h0
      have hrest : m.readWord (a + 1) n = v / 256 % 256 ^ n := by
        apply ih
        intro i hi
        have hi' := h (i + 1) (Nat.succ_lt_succ hi)
        rw [BitVec.ofNat_add, BitVec.add_comm (BitVec.ofNat w i), ← BitVec.add_assoc,
          Nat.pow_succ', ← Nat.div_div_eq_div_mul] at hi'
        exact hi'
      have hmod : v % 256 ^ (n + 1) = v % 256 + 256 * (v / 256 % 256 ^ n) := by
        rw [Nat.pow_succ', Nat.mod_mul]
      rw [readWord, h0, hrest, BitVec.toNat_ofNat]
      exact hmod.symm

/-- A written word is read back. -/
theorem readWord_writeWord (m : Memory w) (a : BitVec w) {n : ℕ} (v : ℕ) (hn : n ≤ 2 ^ w) :
    (m.writeWord a n v).readWord a n = v % 256 ^ n := by
  apply readWord_eq_mod
  intro i hi
  have hlt : (BitVec.ofNat w i).toNat = i := by
    rw [BitVec.toNat_ofNat, Nat.mod_eq_of_lt (lt_of_lt_of_le hi hn)]
  have hsub : a + BitVec.ofNat w i - a = BitVec.ofNat w i := by
    rw [BitVec.add_comm, BitVec.add_sub_cancel]
  rw [writeWord, if_pos ((within_add a _ n).mpr (hlt.symm ▸ hi)), hsub, hlt]

end Memory

end ByteMemory

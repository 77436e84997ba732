import JetLive.Library.Words

/-!
# Addresses in arm64 code

Code refers to data by a pair of instructions. An `adrp` computes the page of the address from
its own page and a signed number of pages, which has 21 bits in two fields. An `add`, a load or a
store then adds the offset in the page, an immediate of 12 bits that is scaled by the size of the
access. So the pages in reach are those within 4 GiB, and the number of pages in an `adrp`
determines the page up to multiples of 8 GiB.
-/

namespace Arm64

open Words

def page (a : BitVec 64) : BitVec 64 := a &&& ~~~0xFFF#64

def pageOffset (a : BitVec 64) : BitVec 64 := a &&& 0xFFF#64

/-! ## Decoding -/

def isAdrp (w : BitVec 32) : Bool := w &&& 0x9F000000#32 = 0x90000000#32

/-- The number of pages in an `adrp`, `immhi` and `immlo`. -/
def pageImm (w : BitVec 32) : BitVec 21 := w.extractLsb' 5 19 ++ w.extractLsb' 29 2

/-- The page that an `adrp` at the given address computes. -/
def adrpPage (w : BitVec 32) (pc : BitVec 64) : BitVec 64 :=
  page pc + (pageImm w).signExtend 64 <<< 12

/-- The immediate of an `add`, a load or a store. -/
def imm12 (w : BitVec 32) : BitVec 12 := w.extractLsb' 10 12

/-- The size of the access of a load or store, of a power of two bytes, if there is such an
instruction. For vector registers the size goes on in the opcode. -/
def accessSize (w : BitVec 32) : Option ℕ :=
  let size := (w.extractLsb' 30 2).toNat
  if w &&& 0x04000000#32 = 0 then
    if w &&& 0x80C00000#32 = 0x80C00000#32 then none else some size
  else if w &&& 0x00800000#32 = 0 then some size
  else if size = 0 then some 4 else none

inductive OffsetForm
  /-- An `add` of an immediate of 12 bits, shifted by `0` or `12`. -/
  | add (shift : ℕ)
  /-- An `addg`, which adds a multiple of 16. -/
  | addTag
  /-- A load or store with an unsigned offset, counted in accesses. -/
  | unsigned (scale : ℕ)
  /-- A load or store with a signed offset of 9 bits, counted in bytes. -/
  | unscaled
  deriving DecidableEq, Repr

def offsetForm (w : BitVec 32) : Option OffsetForm :=
  if w &&& 0x7F800000#32 = 0x11000000#32 then
    some (.add (if w &&& 0x00400000#32 = 0 then 0 else 12))
  else if w &&& 0xFFC00000#32 = 0x91800000#32 then some .addTag
  else if w &&& 0x3B000000#32 = 0x39000000#32 then (accessSize w).map .unsigned
  else if w &&& 0x3B000000#32 = 0x38000000#32 ∧ w.extractLsb' 21 1 = 0 ∧
      w.extractLsb' 10 2 = 0 then
    (accessSize w).map fun _ => .unscaled
  else none

/-- The scale of the immediate of an `add` of 64 bits, which may be shifted, or of a load or
store with an unsigned offset. -/
def accessScale (w : BitVec 32) : Option ℕ :=
  match offsetForm w with
  | some (.add shift) => if w &&& 0x80000000#32 = 0x80000000#32 then some shift else none
  | some (.unsigned scale) => some scale
  | some .addTag | some .unscaled | none => none

def scaled (imm : BitVec 12) (scale : ℕ) : BitVec 64 := imm.setWidth 64 <<< scale

/-- The address of a pair: the second instruction has the register of the `adrp` as its base. -/
def pairAddress (adrp : BitVec 32) (pc : BitVec 64) (access : BitVec 32) : Option (BitVec 64) :=
  if isAdrp adrp ∧ adrp.extractLsb' 0 5 = access.extractLsb' 5 5 then
    (accessScale access).map fun scale => adrpPage adrp pc + scaled (imm12 access) scale
  else none

/-! ## Writing immediates -/

def setPageImm (w : BitVec 32) (imm : BitVec 21) : BitVec 32 :=
  setField (setField w 29 (imm.extractLsb' 0 2)) 5 (imm.extractLsb' 2 19)

def setImm12 (w : BitVec 32) (imm : BitVec 12) : BitVec 32 := setField w 10 imm

theorem extractLsb'_append_extractLsb' (imm : BitVec 21) :
    imm.extractLsb' 2 19 ++ imm.extractLsb' 0 2 = imm := by
  apply BitVec.eq_of_getLsbD_eq
  intro i hi
  rw [BitVec.getLsbD_append, BitVec.getLsbD_extractLsb', BitVec.getLsbD_extractLsb']
  split
  · simp [*]
  · simp [show i - 2 < 19 by omega, show 2 + (i - 2) = i by omega]

@[simp] theorem pageImm_setPageImm (w : BitVec 32) (imm : BitVec 21) :
    pageImm (setPageImm w imm) = imm := by
  rw [pageImm, setPageImm, extractLsb'_setField _ _ (by decide),
    extractLsb'_setField_of_disjoint _ _ (by decide), extractLsb'_setField _ _ (by decide),
    extractLsb'_append_extractLsb']

@[simp] theorem isAdrp_setPageImm (w : BitVec 32) (imm : BitVec 21) :
    isAdrp (setPageImm w imm) = isAdrp w := by
  rw [isAdrp, setPageImm, setField_and _ _ (by decide), setField_and _ _ (by decide), isAdrp]

theorem setPageImm_eq_self_iff (w : BitVec 32) (imm : BitVec 21) :
    setPageImm w imm = w ↔ pageImm w = imm := by
  constructor
  · intro h
    rw [← h, pageImm_setPageImm]
  · rintro rfl
    have hhi : (pageImm w).extractLsb' 2 19 = w.extractLsb' 5 19 :=
      BitVec.extractLsb'_append_eq_left
    have hlo : (pageImm w).extractLsb' 0 2 = w.extractLsb' 29 2 :=
      BitVec.extractLsb'_append_eq_right
    rw [setPageImm, hlo, (setField_eq_self_iff w _ (by decide)).mpr rfl, hhi,
      (setField_eq_self_iff w _ (by decide)).mpr rfl]

@[simp] theorem imm12_setImm12 (w : BitVec 32) (imm : BitVec 12) : imm12 (setImm12 w imm) = imm :=
  extractLsb'_setField _ _ (by decide)

theorem setImm12_eq_self_iff (w : BitVec 32) (imm : BitVec 12) :
    setImm12 w imm = w ↔ imm12 w = imm :=
  setField_eq_self_iff w imm (by decide)

@[simp] theorem accessSize_setImm12 (w : BitVec 32) (imm : BitVec 12) :
    accessSize (setImm12 w imm) = accessSize w := by
  unfold accessSize setImm12
  rw [setField_and _ _ (by decide), setField_and _ _ (by decide), setField_and _ _ (by decide),
    extractLsb'_setField_of_disjoint _ _ (by decide)]

/-- The immediate counts for the form only among the loads and stores without an unsigned
offset. -/
theorem offsetForm_setImm12 (w : BitVec 32) (imm : BitVec 12) :
    offsetForm (setImm12 w imm) =
      if w &&& 0x7F800000#32 = 0x11000000#32 then
        some (.add (if w &&& 0x00400000#32 = 0 then 0 else 12))
      else if w &&& 0xFFC00000#32 = 0x91800000#32 then some .addTag
      else if w &&& 0x3B000000#32 = 0x39000000#32 then (accessSize w).map .unsigned
      else if w &&& 0x3B000000#32 = 0x38000000#32 ∧ imm.extractLsb' 11 1 = 0 ∧
          imm.extractLsb' 0 2 = 0 then
        (accessSize w).map fun _ => .unscaled
      else none := by
  unfold offsetForm
  rw [accessSize_setImm12]
  unfold setImm12
  rw [setField_and _ _ (by decide), setField_and _ _ (by decide), setField_and _ _ (by decide),
    setField_and _ _ (by decide), extractLsb'_setField_of_within _ _ (by decide) (by decide)
    (by decide), extractLsb'_setField_of_within _ _ (by decide) (by decide) (by decide)]

@[simp] theorem accessScale_setImm12 (w : BitVec 32) (imm : BitVec 12) :
    accessScale (setImm12 w imm) = accessScale w := by
  have hbit : setImm12 w imm &&& 0x80000000#32 = w &&& 0x80000000#32 :=
    setField_and _ _ (by decide)
  unfold accessScale
  rw [offsetForm_setImm12, hbit]
  unfold offsetForm
  split_ifs <;> cases accessSize w <;> rfl

theorem accessSize_le {w : BitVec 32} {size : ℕ} (h : accessSize w = some size) : size ≤ 4 := by
  have hsize := (w.extractLsb' 30 2).isLt
  unfold accessSize at h
  split_ifs at h <;> simp at h <;> omega

/-- The registers of a pair stay the same. -/
theorem base_setPageImm (w : BitVec 32) (imm : BitVec 21) :
    (setPageImm w imm).extractLsb' 0 5 = w.extractLsb' 0 5 := by
  rw [setPageImm, extractLsb'_setField_of_disjoint _ _ (by decide),
    extractLsb'_setField_of_disjoint _ _ (by decide)]

theorem base_setImm12 (w : BitVec 32) (imm : BitVec 12) :
    (setImm12 w imm).extractLsb' 5 5 = w.extractLsb' 5 5 :=
  extractLsb'_setField_of_disjoint _ _ (by decide)

theorem accessScale_le {w : BitVec 32} {scale : ℕ} (h : accessScale w = some scale) :
    scale ≤ 12 := by
  unfold accessScale offsetForm at h
  cases hsize : accessSize w with
  | none =>
      rw [hsize] at h
      split_ifs at h <;> simp at h <;> omega
  | some size =>
      have hle := accessSize_le hsize
      rw [hsize] at h
      split_ifs at h <;> simp at h <;> omega

theorem mul_two_pow_lt (imm : BitVec 12) {scale : ℕ} (h : scale ≤ 12) :
    imm.toNat * 2 ^ scale < 2 ^ 24 :=
  calc imm.toNat * 2 ^ scale
    _ < 2 ^ 12 * 2 ^ 12 :=
      Nat.mul_lt_mul_of_lt_of_le imm.isLt (Nat.pow_le_pow_right (by decide) h) (by decide)
    _ = 2 ^ 24 := by decide

theorem toNat_scaled (imm : BitVec 12) {scale : ℕ} (h : scale ≤ 12) :
    (scaled imm scale).toNat = imm.toNat * 2 ^ scale := by
  have himm := imm.isLt
  have hlt := mul_two_pow_lt imm h
  rw [scaled, BitVec.toNat_shiftLeft, BitVec.toNat_setWidth, Nat.shiftLeft_eq,
    Nat.mod_eq_of_lt (show imm.toNat < 2 ^ 64 by omega), Nat.mod_eq_of_lt (by omega)]

theorem toNat_scaled_lt (imm : BitVec 12) {scale : ℕ} (h : scale ≤ 12) :
    (scaled imm scale).toNat < 2 ^ 32 := by
  have hlt := mul_two_pow_lt imm h
  rw [toNat_scaled imm h]
  omega

theorem scaled_inj {u v : BitVec 12} {scale : ℕ} (h : scale ≤ 12) :
    scaled u scale = scaled v scale ↔ u = v := by
  rw [← BitVec.toNat_inj, toNat_scaled u h, toNat_scaled v h, ← BitVec.toNat_inj]
  exact Nat.mul_left_inj (Nat.two_pow_pos scale).ne'

/-! ## Pages in reach -/

/-- The number of pages from the page of an `adrp` to the page of an address, as far as it can be
held. -/
def pageDistance (pc a : BitVec 64) : BitVec 21 := (page a - page pc).extractLsb' 12 21

def InPageReach (pc a : BitVec 64) : Prop := FitsInt 33 (page a - page pc).toInt

instance (pc a : BitVec 64) : Decidable (InPageReach pc a) :=
  inferInstanceAs (Decidable (FitsInt _ _))

theorem toNat_pageOffset (a : BitVec 64) : (pageOffset a).toNat = a.toNat % 4096 := by
  rw [pageOffset, BitVec.toNat_and]
  exact Nat.and_two_pow_sub_one_eq_mod a.toNat 12

theorem page_add_pageOffset (a : BitVec 64) : page a + pageOffset a = a := and_not_add_and a _

theorem toNat_page (a : BitVec 64) : (page a).toNat = a.toNat - a.toNat % 4096 := by
  have hsum := congrArg BitVec.toNat (page_add_pageOffset a)
  have hle : (page a).toNat ≤ a.toNat := by
    rw [page, BitVec.toNat_and]
    exact Nat.and_le_left
  have ha := a.isLt
  rw [BitVec.toNat_add, toNat_pageOffset] at hsum
  omega

theorem toNat_page_sub_mod (a b : BitVec 64) : (page a - page b).toNat % 4096 = 0 := by
  have ha := a.isLt
  have hb := b.isLt
  rw [BitVec.toNat_sub, toNat_page, toNat_page]
  omega

theorem toNat_pageDistance (pc a : BitVec 64) :
    (pageDistance pc a).toNat = (page a - page pc).toNat / 4096 % 2 ^ 21 := by
  rw [pageDistance, BitVec.extractLsb'_toNat, Nat.shiftRight_eq_div_pow]

/-- A signed number of pages as a distance. -/
theorem toNat_signExtend_shiftLeft (imm : BitVec 21) : (imm.signExtend 64 <<< 12).toNat =
    if imm.toNat < 2 ^ 20 then imm.toNat * 4096 else imm.toNat * 4096 + (2 ^ 64 - 2 ^ 33) := by
  have himm := imm.isLt
  rw [BitVec.toNat_shiftLeft, BitVec.toNat_signExtend]
  simp [BitVec.msb_eq_decide, Nat.shiftLeft_eq]
  split <;> split <;> omega

section

variable {w : BitVec 32} {pc a : BitVec 64}

/-- The immediate determines the page up to multiples of 8 GiB. -/
theorem pageImm_eq_iff : pageImm w = pageDistance pc a ↔
    (adrpPage w pc).toNat % 2 ^ 33 = (page a).toNat % 2 ^ 33 := by
  have himm := (pageImm w).isLt
  have hdistance := toNat_page_sub_mod a pc
  have hpc := (page pc).isLt
  have ha := (page a).isLt
  rw [← BitVec.toNat_inj, toNat_pageDistance, adrpPage, BitVec.toNat_add,
    toNat_signExtend_shiftLeft]
  rw [BitVec.toNat_sub] at hdistance ⊢
  split <;> omega

/-- The distance of a page in reach is held. -/
theorem signExtend_pageDistance_iff :
    (pageDistance pc a).signExtend 64 <<< 12 = page a - page pc ↔ InPageReach pc a := by
  have hdistance := toNat_page_sub_mod a pc
  have hlt := (page a - page pc).isLt
  rw [← BitVec.toNat_inj, toNat_signExtend_shiftLeft, toNat_pageDistance, InPageReach, FitsInt,
    BitVec.toInt_eq_toNat_cond]
  split <;> split <;> omega

/-- A small number of bytes after the page of an `adrp`. -/
theorem adrpPage_add_eq_iff (h : pageImm w = pageDistance pc a) {u v : BitVec 64}
    (hu : u.toNat < 2 ^ 32) (hv : FitsInt 32 v.toInt) :
    adrpPage w pc + u = page a + v ↔ InPageReach pc a ∧ u = v := by
  have hmod := pageImm_eq_iff.mp h
  have hpage : adrpPage w pc = page a ↔ InPageReach pc a := by
    rw [← signExtend_pageDistance_iff, adrpPage, h]
    constructor
    · intro heq
      rw [← heq, BitVec.add_comm, BitVec.add_sub_cancel]
    · intro heq
      rw [heq, BitVec.add_comm, BitVec.sub_add_cancel]
  rw [← hpage]
  constructor
  · intro hsum
    -- the pages differ by a multiple of `2 ^ 33`, and the bytes by less
    have hsame : adrpPage w pc = page a := by
      have hnat := congrArg BitVec.toNat hsum
      rw [BitVec.toNat_add, BitVec.toNat_add] at hnat
      have hw := (adrpPage w pc).isLt
      have ha := (page a).isLt
      have hvlt := v.isLt
      rw [FitsInt, BitVec.toInt_eq_toNat_cond] at hv
      apply BitVec.eq_of_toNat_eq
      split at hv <;> omega
    refine ⟨hsame, ?_⟩
    rw [hsame, BitVec.add_right_inj] at hsum
    exact hsum
  · rintro ⟨hsame, rfl⟩
    rw [hsame]

end

/-! ## Offsets in a page -/

/-- The offset in the page as it is written with a shift. -/
def shiftedOffset (a : BitVec 64) (s : ℕ) : BitVec 12 := (pageOffset a >>> s).truncate 12

theorem toNat_shiftedOffset (a : BitVec 64) (s : ℕ) :
    (shiftedOffset a s).toNat = (pageOffset a).toNat / 2 ^ s := by
  have hlt : (pageOffset a).toNat < 4096 := by
    rw [toNat_pageOffset]
    omega
  have hle : (pageOffset a).toNat / 2 ^ s ≤ (pageOffset a).toNat := Nat.div_le_self _ _
  rw [shiftedOffset, BitVec.truncate, BitVec.toNat_setWidth, BitVec.toNat_ushiftRight,
    Nat.shiftRight_eq_div_pow]
  exact Nat.mod_eq_of_lt (by omega)

/-- A scale larger than the shift only fits the offset `0`. -/
theorem div_mul_eq_self_iff {o s k : ℕ} (h : s < k) : o / 2 ^ s * 2 ^ k = o ↔ o = 0 := by
  obtain ⟨d, rfl⟩ := Nat.exists_eq_add_of_lt h
  constructor
  · intro heq
    have hdvd : 2 ^ s ∣ o := by
      rw [← heq, Nat.add_assoc, Nat.pow_add]
      exact Dvd.intro _ (Nat.mul_left_comm _ _ _)
    rw [Nat.add_assoc, Nat.pow_add, ← Nat.mul_assoc, Nat.div_mul_cancel hdvd, Nat.pow_succ] at heq
    have hpow : 0 < 2 ^ d := Nat.two_pow_pos d
    have hle : o * 2 ≤ o * (2 ^ d * 2) := Nat.mul_le_mul_left o (by omega)
    omega
  · rintro rfl
    simp

section

variable {a : BitVec 64} {s k : ℕ}

theorem scaled_shiftedOffset_iff (hk : k ≤ 12) :
    scaled (shiftedOffset a s) k = pageOffset a ↔
      (pageOffset a).toNat / 2 ^ s * 2 ^ k = (pageOffset a).toNat := by
  rw [← BitVec.toNat_inj, toNat_scaled _ hk, toNat_shiftedOffset]

theorem scaled_shiftedOffset (hs : s ≤ 12) (h : 2 ^ s ∣ a.toNat) :
    scaled (shiftedOffset a s) s = pageOffset a := by
  have hdvd : 2 ^ s ∣ (pageOffset a).toNat := by
    rw [toNat_pageOffset]
    exact (Nat.dvd_mod_iff (Nat.pow_dvd_pow 2 hs)).mpr h
  rw [scaled_shiftedOffset_iff hs, Nat.div_mul_cancel hdvd]

theorem scaled_shiftedOffset_iff_of_lt (hk : k ≤ 12) (h : s < k) :
    scaled (shiftedOffset a s) k = pageOffset a ↔ pageOffset a = 0 := by
  rw [scaled_shiftedOffset_iff hk, div_mul_eq_self_iff h, ← BitVec.toNat_inj]
  rfl

end

/-! ## The offset of one instruction

An instruction that adds an offset of its own to a base register. Words that are no instruction
have no offset. -/

namespace OffsetForm

def offset (w : BitVec 32) : OffsetForm → BitVec 64
  | add shift => scaled (imm12 w) shift
  | addTag => (w.extractLsb' 16 6).setWidth 64 <<< 4
  | unsigned scale => scaled (imm12 w) scale
  | unscaled => (w.extractLsb' 12 9).signExtend 64

end OffsetForm

/-- The number of bytes that the instruction adds to its base register. -/
def byteOffset (w : BitVec 32) : Option (BitVec 64) := (offsetForm w).map (·.offset w)

/-- The offset after the immediate was written. -/
theorem offset_setImm12 (w : BitVec 32) (imm : BitVec 12) (form : OffsetForm) :
    form.offset (setImm12 w imm) =
      match form with
      | .add shift => scaled imm shift
      | .addTag => (imm.extractLsb' 6 6).setWidth 64 <<< 4
      | .unsigned scale => scaled imm scale
      | .unscaled => (imm.extractLsb' 2 9).signExtend 64 := by
  cases form with
  | add shift => rw [OffsetForm.offset, imm12_setImm12]
  | addTag =>
      rw [OffsetForm.offset, setImm12,
        extractLsb'_setField_of_within _ _ (by decide) (by decide) (by decide)]
  | unsigned scale => rw [OffsetForm.offset, imm12_setImm12]
  | unscaled =>
      rw [OffsetForm.offset, setImm12,
        extractLsb'_setField_of_within _ _ (by decide) (by decide) (by decide)]

end Arm64

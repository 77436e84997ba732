import JetLive.Reload.PageReferences

/-!
# Patched instructions

What the words say that the step writes on `aarch64`, each read on its own. An `adrp` gets the
page of the old variable, and the distances that the step allows are within its reach. The other
instructions get the offset in the page. The step tells them apart by three tests, of which the
last accepts loads and stores without a field for such an offset, and it takes the scale from the
size bits and from the shift field as they are. So it is wrong for vector registers of 16 bytes
and for an `add` with a shift.
-/

namespace JetLive

open Words Arm64

/-! ## Pages -/

theorem page_sub_page (a b : Address) :
    page a - page b = (a - b) - (pageOffset a - pageOffset b) := by
  rw [eq_sub_of_add_eq (page_add_pageOffset a), eq_sub_of_add_eq (page_add_pageOffset b),
    sub_sub_sub_comm]

/-- Two addresses with some pages less than 4 GiB between them are in reach of each other. -/
theorem inPageReach_of_natAbs_le {pc a : Address}
    (h : (a - pc).toInt.natAbs ≤ 2 ^ 32 - 2 ^ 13 - 1) : InPageReach pc a := by
  have hoffset (b : Address) : (pageOffset b).toInt = b.toNat % 4096 := by
    have hb := toNat_pageOffset b
    rw [BitVec.toInt_eq_toNat_of_lt (by omega), hb]
    rfl
  have hoffsets : (pageOffset a - pageOffset pc).toInt = a.toNat % 4096 - pc.toNat % 4096 := by
    rw [BitVec.toInt_sub, hoffset, hoffset, Int.bmod_eq_of_le (by omega) (by omega)]
  rw [InPageReach, FitsInt, page_sub_page, BitVec.toInt_sub, hoffsets,
    Int.bmod_eq_of_le (by omega) (by omega)]
  omega

theorem toInt_sub_eq (a b c : Address) (hab : (a - b).toInt.natAbs ≤ 2 ^ 31)
    (hbc : (b - c).toInt.natAbs ≤ 2 ^ 31) :
    (a - c).toInt = (a - b).toInt + (b - c).toInt := by
  rw [← sub_add_sub_cancel a b c, BitVec.toInt_add, Int.bmod_eq_of_le (by omega) (by omega)]

/-- An `adrp` that is patched within the distances that the step allows computes the page of the
old variable, if the new variable is in reach of it. -/
theorem page21_computes_page {w : BitVec 32} (hw : isAdrp w) {relocAddress new old : Address}
    (hguard : (old - new).toInt.natAbs ≤ 2 ^ 31 - 1)
    (himage : (new - relocAddress).toInt.natAbs ≤ 2 ^ 31 - 2 ^ 13) :
    isAdrp (page21 w old relocAddress) ∧
      (∀ i, ¬ (29 ≤ i ∧ i < 31) → ¬ (5 ≤ i ∧ i < 24) →
        (page21 w old relocAddress).getLsbD i = w.getLsbD i) ∧
      adrpPage (page21 w old relocAddress) relocAddress = page old := by
  have hreach : InPageReach relocAddress old := by
    apply inPageReach_of_natAbs_le
    rw [toInt_sub_eq old new relocAddress (by omega) (by omega)]
    omega
  rw [page21_eq, isAdrp_setPageImm]
  refine ⟨hw, ?_, ?_⟩
  · intro i hlo hhi
    rw [setPageImm, getLsbD_setField_of_not_within _ _ (by omega),
      getLsbD_setField_of_not_within _ _ (by omega)]
  · rw [adrpPage, pageImm_setPageImm, signExtend_pageDistance_iff.mpr hreach, add_sub_cancel]

/-- The page of the old variable is reached over the distance to the new one. -/
theorem page21_computes_page_far : adrpPage (page21 0x90000000 0x11 0xFFFFE004) 0xFFFFE004 = 0 :=
  (page21_computes_page (by decide : isAdrp 0x90000000)
    (by decide : ((0x11 : Address) - 0x80000010).toInt.natAbs ≤ 2 ^ 31 - 1)
    (by decide : ((0x80000010 : Address) - 0xFFFFE004).toInt.natAbs ≤ 2 ^ 31 - 2 ^ 13)).2.2

/-! ## Offsets in a page -/

/-- A load or store accesses aligned variables. -/
def AlignedFor (w : BitVec 32) (a : Address) : Prop :=
  w &&& 0x3A000000#32 = 0x38000000#32 → ∀ size ∈ accessSize w, 2 ^ size ∣ a.toNat

instance (w : BitVec 32) (a : Address) : Decidable (AlignedFor w a) :=
  inferInstanceAs (Decidable (_ → _))

/-- The step rejects the word, or it writes nothing but the immediate, and then the instruction
adds the offset in the page of the old variable. -/
def WritesOffset (w : BitVec 32) (a : Address) : Prop :=
  ∀ w', pageoff12 w a = some w' →
    (∀ i, ¬ (10 ≤ i ∧ i < 22) → w'.getLsbD i = w.getLsbD i) ∧ byteOffset w' = some (pageOffset a)

/-- The words and addresses that the step is right about. -/
inductive OffsetFits (w : BitVec 32) (a : Address) : Prop
  /-- None of the three tests accepts the word. -/
  | rejected (loadStore : w &&& 0x3B000000#32 ≠ 0x39000000#32)
      (add : w &&& 0x7F000000#32 ≠ 0x11000000#32)
      (other : w &&& 0x3F800000#32 ≠ 0x38000000#32)
  /-- A load or store whose size is what its size bits say. -/
  | loadStore (class_eq : w &&& 0x3B000000#32 = 0x39000000#32)
      (size_eq : accessSize w = some (w.extractLsb' 30 2).toNat)
  /-- An `add` without a shift. -/
  | add (class_eq : w &&& 0x7FC00000#32 = 0x11000000#32)
  /-- The variable begins a page, and there is an instruction with the immediate `0`. -/
  | first (offset_eq : pageOffset a = 0) (form_ne : offsetForm (setImm12 w 0) ≠ none)

section

variable {w : BitVec 32} {a : Address} {s : ℕ}

theorem toNat_ushiftRight_and (w : BitVec 32) :
    ((w >>> 30) &&& 0x3#32).toNat = (w.extractLsb' 30 2).toNat := by
  rw [BitVec.toNat_and, BitVec.toNat_ushiftRight, BitVec.extractLsb'_toNat]
  exact Nat.and_two_pow_sub_one_eq_mod _ 2

theorem writesOffset_iff_byteOffset (h : patchShift w = some s) :
    WritesOffset w a ↔ byteOffset (setImm12 w (shiftedOffset a s)) = some (pageOffset a) := by
  have hpatch : pageoff12 w a = some (setImm12 w (shiftedOffset a s)) := by
    rw [pageoff12_eq_map, h]
    rfl
  constructor
  · intro hwrites
    exact (hwrites _ hpatch).2
  · intro hbyte w' hw'
    obtain rfl := Option.some.inj (hpatch.symm.trans hw')
    exact ⟨fun i hi => getLsbD_setField_of_not_within _ _ (by omega), hbyte⟩

theorem accessSize_cases {size : ℕ} (h : accessSize w = some size) :
    size = (w.extractLsb' 30 2).toNat ∨ (w.extractLsb' 30 2).toNat = 0 ∧ size = 4 := by
  unfold accessSize at h
  dsimp only at h
  split at h
  · split at h <;> simp at h
    exact Or.inl h.symm
  · split at h
    · simp at h
      exact Or.inl h.symm
    · split at h <;> simp at h
      exact Or.inr ⟨‹_›, h.symm⟩

theorem writesOffset_iff_of_loadStore (hclass : w &&& 0x3B000000#32 = 0x39000000#32)
    (haligned : AlignedFor w a) :
    WritesOffset w a ↔ accessSize w = some (w.extractLsb' 30 2).toNat ∨
      pageOffset a = 0 ∧ offsetForm (setImm12 w 0) ≠ none := by
  have hshift : patchShift w = some (w.extractLsb' 30 2).toNat := by
    rw [patchShift, if_pos hclass, toNat_ushiftRight_and]
  have hform (imm : BitVec 12) : offsetForm (setImm12 w imm) = (accessSize w).map .unsigned := by
    rw [offsetForm_setImm12, if_neg fun h => absurd (and_overlap hclass h) (by decide),
      if_neg fun h => absurd (and_overlap hclass h) (by decide), if_pos hclass]
  rw [writesOffset_iff_byteOffset hshift, byteOffset, hform, hform]
  cases hsize : accessSize w with
  | none => simp
  | some size =>
      simp only [Option.map_some, offset_setImm12, Option.some.injEq, ne_eq, reduceCtorEq,
        not_false_eq_true, and_true]
      rcases accessSize_cases hsize with rfl | ⟨hzero, rfl⟩
      · have hlt := (w.extractLsb' 30 2).isLt
        have hdvd := haligned (and_eq_of_and_eq hclass rfl) _ hsize
        exact iff_of_true (scaled_shiftedOffset (by omega) hdvd) (Or.inl rfl)
      · rw [hzero, scaled_shiftedOffset_iff_of_lt (by decide) (by decide)]
        simp

theorem patchShift_of_add (hclass : w &&& 0x7F000000#32 = 0x11000000#32) :
    patchShift w = some ((w &&& 0x00C00000#32) >>> 22).toNat := by
  rw [patchShift, if_neg fun h => absurd (and_overlap hclass h) (by decide), if_pos hclass]

theorem writesOffset_iff_of_add (hclass : w &&& 0x7F800000#32 = 0x11000000#32) :
    WritesOffset w a ↔ w &&& 0x00400000#32 = 0 ∨ pageOffset a = 0 := by
  have hshift := patchShift_of_add (and_eq_of_and_eq hclass rfl)
  rw [writesOffset_iff_byteOffset hshift, byteOffset, offsetForm_setImm12, if_pos hclass,
    Option.map_some, offset_setImm12, Option.some.injEq]
  by_cases hplain : w &&& 0x00400000#32 = 0
  · have hnext : w &&& 0x00800000#32 = 0 := and_eq_of_and_eq hclass rfl
    have hfield : w &&& 0x00C00000#32 = 0 :=
      (and_or_eq_iff 0x00800000#32 0x00400000#32 rfl).mpr ⟨hnext, hplain⟩
    rw [if_pos hplain, hfield]
    exact iff_of_true (scaled_shiftedOffset (s := 0) (by decide) (by simp)) (Or.inl hplain)
  · have hlt : ((w &&& 0x00C00000#32) >>> 22).toNat < 12 := by
      have hle : (w &&& 0x00C00000#32).toNat ≤ (0x00C00000#32).toNat := by
        rw [BitVec.toNat_and]
        exact Nat.and_le_right
      rw [BitVec.toNat_ushiftRight, Nat.shiftRight_eq_div_pow]
      simp only [BitVec.toNat_ofNat] at hle
      omega
    rw [if_neg hplain, scaled_shiftedOffset_iff_of_lt le_rfl hlt, or_iff_right hplain]

/-- The immediate of an `addg` has its offset in the upper half. -/
theorem addTag_shiftedOffset_iff :
    ((shiftedOffset a s).extractLsb' 6 6).setWidth 64 <<< 4 = pageOffset a ↔ pageOffset a = 0 := by
  have himm := toNat_shiftedOffset a s
  have hle : (pageOffset a).toNat / 2 ^ s ≤ (pageOffset a).toNat := Nat.div_le_self _ _
  have hlt : (pageOffset a).toNat < 4096 := by
    rw [toNat_pageOffset]
    omega
  rw [← himm] at hle
  rw [← BitVec.toNat_inj, ← BitVec.toNat_inj]
  simp [BitVec.toNat_shiftLeft, BitVec.extractLsb'_toNat, Nat.shiftRight_eq_div_pow,
    Nat.shiftLeft_eq]
  omega

/-- The second test also accepts words with the next bit set: `addg`, and no instruction. -/
theorem writesOffset_iff_of_addTag (hclass : w &&& 0x7F800000#32 = 0x11800000#32) :
    WritesOffset w a ↔ pageOffset a = 0 ∧ offsetForm (setImm12 w 0) ≠ none := by
  have hshift := patchShift_of_add (and_eq_of_and_eq hclass rfl)
  have hform (imm : BitVec 12) : offsetForm (setImm12 w imm) =
      if w &&& 0xFFC00000#32 = 0x91800000#32 then some .addTag else none := by
    have hadd : ¬ w &&& 0x7F800000#32 = 0x11000000#32 :=
      fun h => absurd (hclass.symm.trans h) (by decide)
    have hload : ¬ w &&& 0x3B000000#32 = 0x39000000#32 :=
      fun h => absurd (and_overlap hclass h) (by decide)
    have hother : ¬ w &&& 0x3B000000#32 = 0x38000000#32 :=
      fun h => absurd (and_overlap hclass h) (by decide)
    rw [offsetForm_setImm12, if_neg hadd, if_neg hload]
    simp only [hother, false_and, if_false]
  rw [writesOffset_iff_byteOffset hshift, byteOffset, hform, hform]
  split
  · simp only [Option.map_some, offset_setImm12, Option.some.injEq, addTag_shiftedOffset_iff]
    simp
  · simp

/-- The immediate of 9 bits has other bits than the one of 12 bits. -/
theorem unscaled_shiftedOffset_iff :
    ((shiftedOffset a s).extractLsb' 2 9).signExtend 64 = pageOffset a ↔ pageOffset a = 0 := by
  have himm := toNat_shiftedOffset a s
  have hle : (pageOffset a).toNat / 2 ^ s ≤ (pageOffset a).toNat := Nat.div_le_self _ _
  have hlt : (pageOffset a).toNat < 4096 := by
    rw [toNat_pageOffset]
    omega
  rw [← himm] at hle
  rw [← BitVec.toNat_inj, ← BitVec.toNat_inj, BitVec.toNat_signExtend]
  simp [BitVec.msb_eq_decide, BitVec.extractLsb'_toNat, Nat.shiftRight_eq_div_pow]
  split <;> omega

theorem accessSize_of_unscaled (hclass : w &&& 0x3F800000#32 = 0x38000000#32) :
    accessSize w = some (w.extractLsb' 30 2).toNat := by
  have hinteger : w &&& 0x04000000#32 = 0 := and_eq_of_and_eq hclass rfl
  rw [accessSize, if_pos hinteger, if_neg fun h => absurd (and_overlap hclass h) (by decide)]

/-- The third test accepts loads and stores with an offset of 9 bits. -/
theorem writesOffset_iff_of_unscaled (hclass : w &&& 0x3F800000#32 = 0x38000000#32) :
    WritesOffset w a ↔ pageOffset a = 0 ∧ offsetForm (setImm12 w 0) ≠ none := by
  have hload : w &&& 0x3B000000#32 = 0x38000000#32 := and_eq_of_and_eq hclass rfl
  have hshift : patchShift w = some ((w &&& 0xC0000000#32) >>> 30).toNat := by
    rw [patchShift, if_neg fun h => absurd (hload.symm.trans h) (by decide),
      if_neg fun h => absurd (and_overlap hclass h) (by decide), if_pos hclass]
  have hform (imm : BitVec 12) : offsetForm (setImm12 w imm) =
      if imm.extractLsb' 11 1 = 0 ∧ imm.extractLsb' 0 2 = 0 then some .unscaled else none := by
    rw [offsetForm_setImm12, if_neg fun h => absurd (and_overlap hclass h) (by decide),
      if_neg fun h => absurd (and_overlap hclass h) (by decide),
      if_neg fun h => absurd (hload.symm.trans h) (by decide), accessSize_of_unscaled hclass]
    simp only [hload, true_and, Option.map_some]
  have hinstruction : offsetForm (setImm12 w 0) ≠ none := by
    simp [hform]
  rw [writesOffset_iff_byteOffset hshift, and_iff_left hinstruction, byteOffset, hform]
  constructor
  · intro hbyte
    split at hbyte
    · simp only [Option.map_some, offset_setImm12, Option.some.injEq] at hbyte
      exact unscaled_shiftedOffset_iff.mp hbyte
    · simp at hbyte
  · intro hzero
    have himm : shiftedOffset a ((w &&& 0xC0000000#32) >>> 30).toNat = 0 := by
      simp [shiftedOffset, hzero]
    rw [himm, hzero]
    simp [offset_setImm12]

/-- The bit that the second test does not look at. -/
theorem add_class_cases (hclass : w &&& 0x7F000000#32 = 0x11000000#32) :
    w &&& 0x7F800000#32 = 0x11000000#32 ∨ w &&& 0x7F800000#32 = 0x11800000#32 := by
  have hbit : w &&& 0x00800000#32 = 0 ∨ w &&& 0x00800000#32 = 0x00800000#32 := by
    have htwoPow := BitVec.and_twoPow w 23
    change w &&& 0x00800000#32 = _ at htwoPow
    rw [htwoPow]
    split
    · exact Or.inr rfl
    · exact Or.inl rfl
  rcases hbit with hbit | hbit
  · exact Or.inl ((and_or_eq_iff 0x7F000000#32 0x00800000#32 rfl).mpr
      ⟨hclass, hbit⟩)
  · exact Or.inr ((and_or_eq_iff 0x7F000000#32 0x00800000#32 rfl).mpr
      ⟨hclass, hbit⟩)

theorem writesOffset_of_rejected (hload : w &&& 0x3B000000#32 ≠ 0x39000000#32)
    (hadd : w &&& 0x7F000000#32 ≠ 0x11000000#32)
    (hother : w &&& 0x3F800000#32 ≠ 0x38000000#32) : WritesOffset w a := by
  intro w' hw'
  rw [pageoff12_eq_map, patchShift, if_neg hload, if_neg hadd, if_neg hother] at hw'
  cases hw'

/-- The step is right about the words and addresses of `OffsetFits` and about no others. -/
theorem writesOffset_iff_offsetFits (haligned : AlignedFor w a) :
    WritesOffset w a ↔ OffsetFits w a := by
  constructor
  · intro hwrites
    by_cases hload : w &&& 0x3B000000#32 = 0x39000000#32
    · rcases (writesOffset_iff_of_loadStore hload haligned).mp hwrites with hsize | ⟨hzero, hform⟩
      · exact .loadStore hload hsize
      · exact .first hzero hform
    by_cases hadd : w &&& 0x7F000000#32 = 0x11000000#32
    · rcases add_class_cases hadd with hclass | hclass
      · rcases (writesOffset_iff_of_add hclass).mp hwrites with hplain | hzero
        · exact .add ((and_or_eq_iff 0x7F800000#32 0x00400000#32 rfl).mpr
            ⟨hclass, hplain⟩)
        · exact .first hzero (by simp [offsetForm_setImm12, hclass])
      · obtain ⟨hzero, hform⟩ := (writesOffset_iff_of_addTag hclass).mp hwrites
        exact .first hzero hform
    by_cases hother : w &&& 0x3F800000#32 = 0x38000000#32
    · obtain ⟨hzero, hform⟩ := (writesOffset_iff_of_unscaled hother).mp hwrites
      exact .first hzero hform
    · exact .rejected hload hadd hother
  · rintro (⟨hload, hadd, hother⟩ | ⟨hload, hsize⟩ | hclass | ⟨hzero, hform⟩)
    · exact writesOffset_of_rejected hload hadd hother
    · exact (writesOffset_iff_of_loadStore hload haligned).mpr (Or.inl hsize)
    · exact (writesOffset_iff_of_add (and_eq_of_and_eq hclass rfl)).mpr
        (Or.inl (and_eq_of_and_eq hclass rfl))
    · by_cases hload : w &&& 0x3B000000#32 = 0x39000000#32
      · exact (writesOffset_iff_of_loadStore hload haligned).mpr (Or.inr ⟨hzero, hform⟩)
      by_cases hadd : w &&& 0x7F000000#32 = 0x11000000#32
      · rcases add_class_cases hadd with hclass | hclass
        · exact (writesOffset_iff_of_add hclass).mpr (Or.inr hzero)
        · exact (writesOffset_iff_of_addTag hclass).mpr ⟨hzero, hform⟩
      by_cases hother : w &&& 0x3F800000#32 = 0x38000000#32
      · exact (writesOffset_iff_of_unscaled hother).mpr ⟨hzero, hform⟩
      · exact writesOffset_of_rejected hload hadd hother

end

/-- `ldr x0, [x0]` of a variable at `0x5018`. -/
theorem loadDoubleWord_writesOffset :
    pageoff12 0xF9400000 0x5018 = some 0xF9400C00 ∧ WritesOffset 0xF9400000 0x5018 := by
  refine ⟨by decide, (writesOffset_iff_offsetFits (by decide)).mpr ?_⟩
  exact .loadStore (by decide) (by decide)

/-- `ldr q0, [x0]` of a variable at `0x5010` gets the offset `0x100`. -/
theorem loadVector_not_writesOffset :
    AlignedFor 0x3DC00000 0x5010 ∧ ¬ WritesOffset 0x3DC00000 0x5010 ∧
      pageoff12 0x3DC00000 0x5010 = some 0x3DC04000 ∧ byteOffset 0x3DC04000 = some 0x100 := by
  have hpatch : pageoff12 0x3DC00000 0x5010 = some 0x3DC04000 := by decide
  have hbyte : byteOffset 0x3DC04000 = some 0x100 := by decide
  refine ⟨by decide, ?_, hpatch, hbyte⟩
  intro hwrites
  exact absurd (hbyte.symm.trans (hwrites _ hpatch).2) (by decide)

end JetLive

import JetLive.Library.Words
import JetLive.Reload.Transfer
import Mathlib.Tactic.Ring

/-!
# Displacements on x86-64

A relocation that is applied adds the distance from the new variable to the old one to the field
it patches. The source computes the sum from the low halves of the two addresses. A field of
four bytes then holds the right displacement exactly if that fits into four bytes, and the sum
is free of overflows only if the addresses lie in one window of `2 ^ 32` bytes. A field of eight
bytes moves by the exact distance only then.
-/

namespace JetLive

open ByteMemory Words

namespace RelocationContext

/-- What the lookups of a relocation find: the function to patch, the variable of the new
program and the one of the oldest loaded program. -/
structure Resolves (x : RelocationContext) (reloc : Relocation) (target new old : Symbol) :
    Prop where
  target : findFunction x.newProgram.symbols reloc.targetSymbolName reloc.targetSymbolHash =
    some target
  new : findVariable x.newProgram.symbols reloc.relocationSymbolName reloc.relocationSymbolHash =
    some new
  old : oldVariable x.programs reloc.relocationSymbolName reloc.relocationSymbolHash = some old

def fieldAddress (reloc : Relocation) (target : Symbol) : Address :=
  target.runtimeAddress + reloc.relocationOffsetRelativeTargetSymbolAddress

/-- The distance between the variables is one that the relocation can bridge. -/
def Bridges (reloc : Relocation) (old new : Symbol) : Prop :=
  ∃ maxDistance, maxAllowedDistance reloc.size = some maxDistance ∧
    (old.runtimeAddress - new.runtimeAddress).toInt.natAbs ≤ maxDistance

variable {x : RelocationContext} {s : RelocationState} {reloc : Relocation}
  {target new old : Symbol}

theorem checkRelocation_of_bridges (hr : x.Resolves reloc target new old)
    (hbridges : Bridges reloc old new) (mem : ProcessMemory) :
    checkRelocation x.arch x.programs x.newProgram.symbols mem reloc =
      (patchField x.arch mem reloc (fieldAddress reloc target) old.runtimeAddress
        new.runtimeAddress).map fun field => ⟨new, fieldAddress reloc target, field⟩ := by
  obtain ⟨maxDistance, hmax, hle⟩ := hbridges
  unfold checkRelocation
  rw [hr.target]
  dsimp only
  rw [hr.new]
  dsimp only
  rw [hr.old]
  dsimp only
  rw [hmax]
  dsimp only
  rw [if_neg (not_lt.mpr hle)]
  rfl

theorem bridges_of_checkRelocation (hr : x.Resolves reloc target new old) {mem : ProcessMemory}
    {patch : Patch}
    (h : checkRelocation x.arch x.programs x.newProgram.symbols mem reloc = .ok patch) :
    Bridges reloc old new := by
  unfold checkRelocation at h
  rw [hr.target] at h
  dsimp only at h
  rw [hr.new] at h
  dsimp only at h
  rw [hr.old] at h
  dsimp only at h
  cases hmax : maxAllowedDistance reloc.size with
  | none => simp [hmax] at h
  | some maxDistance =>
      refine ⟨maxDistance, hmax, ?_⟩
      rw [hmax] at h
      dsimp only at h
      split at h
      · simp at h
      · rename_i hle
        exact not_lt.mp hle

/-- A relocation passes if it can bridge the distance, knows how to patch the field and can
write it. -/
theorem passes_iff (hr : x.Resolves reloc target new old) :
    x.Passes s reloc ↔ Bridges reloc old new ∧ ∃ field,
      patchField x.arch s.memory reloc (fieldAddress reloc target) old.runtimeAddress
        new.runtimeAddress = .ok field ∧ (field = none ∨ x.status s.index = 0) := by
  constructor
  · rintro ⟨patch, hcheck, hstatus⟩
    have hbridges := bridges_of_checkRelocation hr hcheck
    refine ⟨hbridges, ?_⟩
    rw [checkRelocation_of_bridges hr hbridges] at hcheck
    cases hfield : patchField x.arch s.memory reloc (fieldAddress reloc target)
        old.runtimeAddress new.runtimeAddress with
    | error logs => simp [hfield, Except.map] at hcheck
    | ok field =>
        rw [hfield] at hcheck
        obtain rfl := Except.ok.inj hcheck
        exact ⟨field, rfl, hstatus⟩
  · rintro ⟨hbridges, field, hfield, hstatus⟩
    refine ⟨⟨new, fieldAddress reloc target, field⟩, ?_, hstatus⟩
    rw [checkRelocation_of_bridges hr hbridges, hfield]
    rfl

/-- A relocation that passes has found its symbols. -/
theorem exists_resolves_of_passes (h : x.Passes s reloc) :
    ∃ target new old, x.Resolves reloc target new old := by
  obtain ⟨patch, hcheck, _⟩ := h
  obtain ⟨target, old, htarget, hnew, hold, _⟩ := checkRelocation_ok hcheck
  exact ⟨target, patch.symbol, old, htarget, hnew, hold⟩

def field32 (mem : ProcessMemory) (a : Address) : BitVec 32 := BitVec.ofNat 32 (mem.readWord a 4)

def field64 (mem : ProcessMemory) (a : Address) : BitVec 64 := BitVec.ofNat 64 (mem.readWord a 8)

/-! ## Relocations that can be applied -/

/-- The instruction is one whose page offset can be patched. -/
def takesOffset (instr : BitVec 32) : Bool := (pageoff12 instr 0).isSome

theorem isSome_pageoff12 (instr : BitVec 32) (old : Address) :
    (pageoff12 instr old).isSome = takesOffset instr := by
  unfold takesOffset pageoff12
  dsimp only
  split_ifs <;> rfl

/-- The code is written for a relocation of this type. -/
def HasField (x : RelocationContext) (reloc : Relocation) : Prop :=
  x.arch = .x86_64 ∨ reloc.type = arm64RelocUnsigned ∨ reloc.type = arm64RelocPage21 ∨
    reloc.type = arm64RelocPageoff12

/-- The `i`-th relocation finds its symbols, bridges their distance, has an instruction that can be
patched, and the patch succeeds. `mem` is the memory before the first relocation. -/
def Applicable (x : RelocationContext) (mem : ProcessMemory) (i : ℕ) (reloc : Relocation) : Prop :=
  ∃ target new old, x.Resolves reloc target new old ∧ Bridges reloc old new ∧
    (x.arch = .aarch64 → reloc.type = arm64RelocPageoff12 →
      takesOffset (field32 mem (fieldAddress reloc target))) ∧
    (x.HasField reloc → x.status i = 0)

/-- The relocations that name one variable can all be applied or none of them, and where two of them
can, it is the only variable with its name and hash. -/
structure Uniform (x : RelocationContext) (mem : ProcessMemory) (relocs : List Relocation) :
    Prop where
  together : ∀ i j reloc reloc' v, relocs[i]? = some reloc → relocs[j]? = some reloc' →
    x.Names reloc v → x.Names reloc' v → x.Applicable mem i reloc → x.Applicable mem j reloc'
  single : ∀ i j reloc reloc' v, i < j → relocs[i]? = some reloc → relocs[j]? = some reloc' →
    x.Names reloc v → x.Names reloc' v → x.Applicable mem i reloc → x.Applicable mem j reloc' →
    ∀ w ∈ x.newProgram.symbols.vars, w.key = v.key → w = v

theorem exists_patchField_iff {mem : ProcessMemory} {a o n : Address} {status : ℤ} :
    (∃ field, patchField x.arch mem reloc a o n = .ok field ∧ (field = none ∨ status = 0)) ↔
      (x.arch = .aarch64 → reloc.type = arm64RelocPageoff12 →
        takesOffset (field32 mem a)) ∧ (x.HasField reloc → status = 0) := by
  unfold HasField
  cases x.arch with
  | x86_64 => by_cases hsize : reloc.size = 4 <;> simp [patchField, hsize]
  | aarch64 =>
      by_cases hunsigned : reloc.type = arm64RelocUnsigned
      · simp [patchField, hunsigned, arm64RelocUnsigned, arm64RelocPageoff12]
      by_cases hpage : reloc.type = arm64RelocPage21
      · simp [patchField, hpage, arm64RelocUnsigned, arm64RelocPage21, arm64RelocPageoff12]
      by_cases hoffset : reloc.type = arm64RelocPageoff12
      · rw [← isSome_pageoff12 _ o, field32]
        cases hpatch : pageoff12 (BitVec.ofNat 32 (mem.readWord a 4)) o <;>
          simp [patchField, hoffset, hpatch, arm64RelocUnsigned, arm64RelocPage21,
            arm64RelocPageoff12]
      · simp [patchField, hunsigned, hpage, hoffset]

/-- A relocation passes if it can be applied, and the instruction is still there. -/
theorem passes_iff_applicable {mem : ProcessMemory}
    (hinstr : x.arch = .aarch64 → reloc.type = arm64RelocPageoff12 → ∀ target,
      findFunction x.newProgram.symbols reloc.targetSymbolName reloc.targetSymbolHash =
        some target → field32 s.memory (fieldAddress reloc target) =
          field32 mem (fieldAddress reloc target)) :
    x.Passes s reloc ↔ x.Applicable mem s.index reloc := by
  have hsupported : ∀ {target}, findFunction x.newProgram.symbols reloc.targetSymbolName
      reloc.targetSymbolHash = some target →
      ((x.arch = .aarch64 → reloc.type = arm64RelocPageoff12 →
          takesOffset (field32 s.memory (fieldAddress reloc target))) ↔
        (x.arch = .aarch64 → reloc.type = arm64RelocPageoff12 →
          takesOffset (field32 mem (fieldAddress reloc target)))) := by
    intro target htarget
    refine forall_congr' fun harch => forall_congr' fun htype => ?_
    rw [hinstr harch htype target htarget]
  constructor
  · intro h
    obtain ⟨target, new, old, hr⟩ := exists_resolves_of_passes h
    obtain ⟨hbridges, hfield⟩ := (passes_iff hr).mp h
    obtain ⟨hinstr, hstatus⟩ := exists_patchField_iff.mp hfield
    exact ⟨target, new, old, hr, hbridges, (hsupported hr.target).mp hinstr, hstatus⟩
  · rintro ⟨target, new, old, hr, hbridges, hinstr, hstatus⟩
    exact (passes_iff hr).mpr ⟨hbridges,
      exists_patchField_iff.mpr ⟨(hsupported hr.target).mpr hinstr, hstatus⟩⟩

/-- The memory after a relocation that passes. -/
theorem turn_of_passes (hr : x.Resolves reloc target new old) (h : x.Passes s reloc)
    {n v : ℕ} (hfield : patchField x.arch s.memory reloc (fieldAddress reloc target)
      old.runtimeAddress new.runtimeAddress = .ok (some (n, v))) :
    (x.turn s reloc).memory = s.memory.writeWord (fieldAddress reloc target) n v := by
  obtain ⟨hbridges, field, hfield', hstatus⟩ := (passes_iff hr).mp h
  rw [hfield] at hfield'
  obtain rfl := Except.ok.inj hfield'
  have hwritten : x.status s.index = 0 := by simpa using hstatus
  have hcheck := checkRelocation_of_bridges hr hbridges s.memory
  rw [hfield] at hcheck
  unfold turn applyRelocation
  rw [hcheck]
  simp [Except.map, hwritten]

/-- A relocation that does not pass leaves the memory alone. -/
theorem turn_of_not_passes (h : ¬ x.Passes s reloc) : (x.turn s reloc).memory = s.memory := by
  unfold turn applyRelocation
  unfold Passes at h
  cases hcheck : checkRelocation x.arch x.programs x.newProgram.symbols s.memory reloc with
  | error logs => rfl
  | ok patch =>
      rw [hcheck] at h
      have hpatch : ¬ (patch.field = none ∨ x.status s.index = 0) := fun hp => h ⟨patch, rfl, hp⟩
      rw [not_or] at hpatch
      obtain ⟨⟨n, v⟩, hfield⟩ := Option.ne_none_iff_exists'.mp hpatch.1
      simp [hfield, hpatch.2]

theorem field32_writeWord (mem : ProcessMemory) (a : Address) (v : BitVec 32) :
    field32 (mem.writeWord a 4 v.toNat) a = v := by
  apply BitVec.eq_of_toNat_eq
  rw [field32, Memory.readWord_writeWord _ _ _ (by decide), BitVec.toNat_ofNat]
  have hv := v.isLt
  omega

theorem field64_writeWord (mem : ProcessMemory) (a : Address) (v : BitVec 64) :
    field64 (mem.writeWord a 8 v.toNat) a = v := by
  apply BitVec.eq_of_toNat_eq
  rw [field64, Memory.readWord_writeWord _ _ _ (by decide), BitVec.toNat_ofNat]
  have hv := v.isLt
  omega

/-! ## A reload with one variable

The new function `f` at `0x2000` begins with a field that refers to `counter`. -/

def counterAt (old new : Address) : RelocationContext where
  arch := .x86_64
  programs := [{ symbols := { vars := [{ name := "counter", runtimeAddress := old }] } }]
  newProgram :=
    { symbols :=
        { functions := [{ name := "f", runtimeAddress := 0x2000 }]
          vars := [{ name := "counter", runtimeAddress := new }] } }
  status _ := 0

def counterRelocation (size : ℕ) : Relocation where
  targetSymbolName := "f"
  relocationSymbolName := "counter"
  size := size

/-- The field holds the given displacement. -/
def linkedState (n d : ℕ) : RelocationState where
  memory := Memory.writeWord (fun _ => 0) 0x2000 n d

theorem counterAt_resolves (old new : Address) (size : ℕ) :
    (counterAt old new).Resolves (counterRelocation size) { name := "f", runtimeAddress := 0x2000 }
      { name := "counter", runtimeAddress := new }
      { name := "counter", runtimeAddress := old } := by
  constructor <;> simp [findFunction, findVariable, oldVariable, counterAt, counterRelocation,
    Symbol.answers]

/-! ## Fields of eight bytes -/

/-- A field of eight bytes moves by the distance of the variables exactly if they lie in one
window. -/
theorem moves_exactly_iff_window (hx : x.arch = .x86_64)
    (hr : x.Resolves reloc target new old) (hsize : reloc.size = 8) (h : x.Passes s reloc) :
    field64 (x.turn s reloc).memory (fieldAddress reloc target) =
        field64 s.memory (fieldAddress reloc target) +
          (old.runtimeAddress - new.runtimeAddress) ↔
      window old.runtimeAddress = window new.runtimeAddress := by
  have hpatch : patchField x.arch s.memory reloc (fieldAddress reloc target) old.runtimeAddress
      new.runtimeAddress = .ok (some (8, (field64 s.memory (fieldAddress reloc target) +
        (old.runtimeAddress.truncate 32).signExtend 64 -
        (new.runtimeAddress.truncate 32).signExtend 64).toNat)) := by
    rw [hx, patchField, hsize]
    rfl
  rw [turn_of_passes hr h hpatch, field64_writeWord, ← signExtend_truncate_sub_iff,
    add_sub_assoc, BitVec.add_right_inj]

theorem counterAt_moves_exactly :
    (counterAt 0x5000 0x3000).Passes (linkedState 8 0xffc) (counterRelocation 8) ∧
    field64 ((counterAt 0x5000 0x3000).turn (linkedState 8 0xffc) (counterRelocation 8)).memory
      0x2000 = field64 (linkedState 8 0xffc).memory 0x2000 + (0x5000 - 0x3000) := by
  have hr := counterAt_resolves 0x5000 0x3000 8
  have hpasses : (counterAt 0x5000 0x3000).Passes (linkedState 8 0xffc) (counterRelocation 8) :=
    (passes_iff hr).mpr ⟨⟨_, rfl, by decide⟩, _, rfl, Or.inr rfl⟩
  exact ⟨hpasses, (moves_exactly_iff_window rfl hr rfl hpasses).mpr (by decide)⟩

/-- The old variable is `2 ^ 32` bytes away, and the field does not move at all. -/
theorem counterAt_not_moves_exactly :
    (counterAt 0x100003000 0x3000).Passes (linkedState 8 0xffc) (counterRelocation 8) ∧
    field64 ((counterAt 0x100003000 0x3000).turn (linkedState 8 0xffc)
      (counterRelocation 8)).memory 0x2000 ≠
        field64 (linkedState 8 0xffc).memory 0x2000 + (0x100003000 - 0x3000) := by
  have hr := counterAt_resolves 0x100003000 0x3000 8
  refine ⟨(passes_iff hr).mpr ⟨⟨_, rfl, by decide⟩, _, rfl, Or.inr rfl⟩, ?_⟩
  decide +kernel

/-! ## Fields of four bytes -/

/-- The sums of the source do not overflow. -/
def NoOverflow (d : BitVec 32) (old new : Address) : Prop :=
  BitVec.saddOverflow d (old.truncate 32) = false ∧
    BitVec.ssubOverflow (d + old.truncate 32) (new.truncate 32) = false

/-- The displacement to the old variable, and the first of the two sums, fit into four bytes,
and the variables lie in one window. -/
structure InReach (d : BitVec 32) (old new : Address) : Prop where
  reach : FitsInt 32 (d.toInt + (old - new).toInt)
  sum : FitsInt 32 (d.toInt + (old.truncate 32).toInt)
  window : window old = window new

/-- The sums agree modulo `2 ^ 32`. -/
theorem bmod_sum_truncate (d : BitVec 32) {old new : Address}
    (hguard : FitsInt 32 (old - new).toInt) :
    (d.toInt + (old.truncate 32).toInt - (new.truncate 32).toInt).bmod (2 ^ 32) =
      (d.toInt + (old - new).toInt).bmod (2 ^ 32) := by
  have hsame : (d + (old.truncate 32 - new.truncate 32)).toInt =
      (d + (old - new).truncate 32).toInt := by rw [truncate_sub]
  rw [BitVec.toInt_add, BitVec.toInt_add, toInt_truncate hguard, BitVec.toInt_sub,
    Int.add_bmod_bmod] at hsame
  rw [← hsame]
  congr 1
  ring

/-- The sums are exact and free of overflows exactly in reach. -/
theorem exact_iff_inReach (d : BitVec 32) {old new : Address}
    (hguard : FitsInt 32 (old - new).toInt) :
    (NoOverflow d old new ∧ (d + old.truncate 32 - new.truncate 32).signExtend 64 =
      d.signExtend 64 + (old - new)) ↔ InReach d old new := by
  have hexact := signExtend_add_truncate_iff d hguard
  rw [truncate_sub, ← add_sub_assoc] at hexact
  have hwindow := toInt_truncate_sub_iff old new
  unfold NoOverflow
  rw [hexact, saddOverflow_eq_false_iff, ssubOverflow_eq_false_iff]
  -- without the first overflow the sum is the one of the numbers
  have hsum : FitsInt 32 (d.toInt + (old.truncate 32).toInt) →
      (d + old.truncate 32).toInt = d.toInt + (old.truncate 32).toInt := by
    intro hfits
    rw [BitVec.toInt_add, bmod_eq_self_iff.mpr hfits]
  constructor
  · rintro ⟨⟨hadd, hsub⟩, hreach⟩
    refine ⟨hreach, hadd, ?_⟩
    rw [hsum hadd] at hsub
    apply hwindow.mp
    have hmod := bmod_sum_truncate d hguard
    rw [bmod_eq_self_iff.mpr hsub, bmod_eq_self_iff.mpr hreach] at hmod
    omega
  · rintro ⟨hreach, hadd, hsame⟩
    refine ⟨⟨hadd, ?_⟩, hreach⟩
    rw [hsum hadd]
    have hdiff := hwindow.mpr hsame
    have heq : d.toInt + (old.truncate 32).toInt - (new.truncate 32).toInt =
        d.toInt + (old - new).toInt := by omega
    rw [heq]
    exact hreach

/-- A field of four bytes that held the displacement to the new variable holds the displacement
to the old one, without an overflow on the way, exactly in reach. -/
theorem addresses_old_iff_inReach (hx : x.arch = .x86_64)
    (hr : x.Resolves reloc target new old) (hsize : reloc.size = 4) (h : x.Passes s reloc)
    {addend : BitVec 64}
    (hlinked : (field32 s.memory (fieldAddress reloc target)).signExtend 64 =
      new.runtimeAddress + addend - fieldAddress reloc target) :
    (NoOverflow (field32 s.memory (fieldAddress reloc target)) old.runtimeAddress
        new.runtimeAddress ∧
      (field32 (x.turn s reloc).memory (fieldAddress reloc target)).signExtend 64 =
        old.runtimeAddress + addend - fieldAddress reloc target) ↔
    InReach (field32 s.memory (fieldAddress reloc target)) old.runtimeAddress
      new.runtimeAddress := by
  have hpatch : patchField x.arch s.memory reloc (fieldAddress reloc target) old.runtimeAddress
      new.runtimeAddress = .ok (some (4, (field32 s.memory (fieldAddress reloc target) +
        old.runtimeAddress.truncate 32 - new.runtimeAddress.truncate 32).toNat)) := by
    rw [hx, patchField, hsize]
    rfl
  have hguard : FitsInt 32 (old.runtimeAddress - new.runtimeAddress).toInt := by
    obtain ⟨⟨maxDistance, hmax, hle⟩, _⟩ := (passes_iff hr).mp h
    rw [hsize, maxAllowedDistance, if_pos rfl] at hmax
    obtain rfl := Option.some.inj hmax
    constructor <;> omega
  have haddress : old.runtimeAddress + addend - fieldAddress reloc target =
      (field32 s.memory (fieldAddress reloc target)).signExtend 64 +
        (old.runtimeAddress - new.runtimeAddress) := by
    rw [hlinked]
    ring
  rw [turn_of_passes hr h hpatch, field32_writeWord, haddress]
  exact exact_iff_inReach _ hguard

theorem counterAt_addresses_old :
    (counterAt 0x5000 0x3000).Passes (linkedState 4 0xffc) (counterRelocation 4) ∧
    (field32 ((counterAt 0x5000 0x3000).turn (linkedState 4 0xffc)
      (counterRelocation 4)).memory 0x2000).signExtend 64 = 0x5000#64 + (-4) - 0x2000 := by
  have hr := counterAt_resolves 0x5000 0x3000 4
  have hpasses : (counterAt 0x5000 0x3000).Passes (linkedState 4 0xffc) (counterRelocation 4) :=
    (passes_iff hr).mpr ⟨⟨_, rfl, by decide⟩, _, rfl, Or.inr rfl⟩
  have hreach : InReach (field32 (linkedState 4 0xffc).memory 0x2000) 0x5000 0x3000 :=
    ⟨by decide +kernel, by decide +kernel, by decide⟩
  have hlinked : (field32 (linkedState 4 0xffc).memory 0x2000).signExtend 64 =
      0x3000#64 + (-4) - 0x2000 := by decide +kernel
  have hexact := (addresses_old_iff_inReach rfl hr rfl hpasses hlinked).mpr hreach
  exact ⟨hpasses, hexact.2⟩

/-- The new variable is almost `2 ^ 31` bytes from the code, and the old one is just out of
reach. -/
theorem counterAt_not_addresses_old :
    (counterAt 0x80002010 0x80002000).Passes (linkedState 4 0x7ffffffc) (counterRelocation 4) ∧
    (field32 (linkedState 4 0x7ffffffc).memory 0x2000).signExtend 64 =
      0x80002000#64 + (-4) - 0x2000 ∧
    (field32 ((counterAt 0x80002010 0x80002000).turn (linkedState 4 0x7ffffffc)
      (counterRelocation 4)).memory 0x2000).signExtend 64 ≠ 0x80002010#64 + (-4) - 0x2000 := by
  have hr := counterAt_resolves 0x80002010 0x80002000 4
  refine ⟨(passes_iff hr).mpr ⟨⟨_, rfl, by decide⟩, _, rfl, Or.inr rfl⟩, ?_, ?_⟩
  · decide +kernel
  · decide +kernel

end RelocationContext

end JetLive

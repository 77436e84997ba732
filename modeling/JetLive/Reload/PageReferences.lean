import JetLive.Library.Arm64
import JetLive.Loader.MachoRelocations
import JetLive.Reload.Displacements
import JetLive.Reload.Statics

/-!
# References to variables on arm64

Code refers to a variable, or to a part of it, by an `adrp` and an `add`, a load or a store, each
with a relocation entry. The addend `k`, where there is one, stands in entries of its own. On
`aarch64` a relocation is not patched by a distance: the instructions get the page and the page
offset of the old variable itself. The loader has dropped the addend by then, so that a pair which
addressed `k` bytes into the new variable addresses the begin of the old one.

A `PagePair` is such a pair of instructions, in any sequence of entries whose other relocations
do not write to it. `keepsOffset_iff_harmless` tells when it still addresses `k` bytes into the
old variable, or has been left alone.
-/

namespace JetLive

open ByteMemory Words Arm64

/-! ## What the step writes -/

theorem getLsbD_pages (d : BitVec 64) {i : ℕ} (hi : i < 21) :
    ((d.sshiftRight 12).truncate 32).getLsbD i = (d.extractLsb' 12 21).getLsbD i := by
  rw [BitVec.truncate, BitVec.getLsbD_setWidth, BitVec.getLsbD_sshiftRight,
    BitVec.getLsbD_extractLsb']
  simp [hi, show i < 32 by omega, show ¬ 64 ≤ i by omega, show 12 + i < 64 by omega]

/-- A part of the number of pages. -/
theorem pages_and_mask (d : BitVec 64) {s n : ℕ} (h : s + n ≤ 21) :
    (d.sshiftRight 12).truncate 32 &&& mask s n =
      ((d.extractLsb' 12 21).extractLsb' s n).setWidth 32 <<< s := by
  have hbits : ∀ i < 21, _ := fun i => getLsbD_pages d
  generalize (d.sshiftRight 12).truncate 32 = pages at hbits
  apply BitVec.eq_of_getLsbD_eq
  intro i hi
  rw [BitVec.getLsbD_and, getLsbD_mask, BitVec.getLsbD_shiftLeft, BitVec.getLsbD_setWidth,
    BitVec.getLsbD_extractLsb']
  by_cases hs : s ≤ i
  · by_cases hn : i < s + n
    · rw [hbits i (by omega)]
      simp [hi, hs, hn, show i - s < n by omega, show i - s < 32 by omega]
    · simp [hn, show ¬ i - s < n by omega]
  · simp [hs]

/-- The step writes the number of pages to the old variable. -/
theorem page21_eq (instr : BitVec 32) (old relocAddress : Address) :
    page21 instr old relocAddress = setPageImm instr (pageDistance relocAddress old) := by
  have hlo := pages_and_mask (page old - page relocAddress) (show 0 + 2 ≤ 21 by decide)
  have hhi := pages_and_mask (page old - page relocAddress) (show 2 + 19 ≤ 21 by decide)
  change (instr &&& ~~~mask 29 2 ||| (_ &&& mask 0 2) <<< 29) &&& ~~~mask 5 19 |||
    (_ &&& mask 2 19) <<< 3 = _
  unfold page at hlo hhi
  rw [hlo, hhi, BitVec.shiftLeft_zero, ← BitVec.shiftLeft_add]
  rfl

/-- The shift that the step takes for the scale of the immediate. -/
def offsetShift (instr : BitVec 32) : ℕ :=
  if instr &&& 0x3B000000#32 = 0x39000000#32 then ((instr >>> 30) &&& 0x3#32).toNat
  else ((instr &&& 0x00C00000#32) >>> 22).toNat

theorem truncate_pageOffset_ushiftRight (a : Address) (s : ℕ) :
    (pageOffset a).truncate 32 >>> s = (shiftedOffset a s).setWidth 32 := by
  have hlt : (pageOffset a).toNat < 4096 := by
    rw [toNat_pageOffset]
    omega
  have hle : (pageOffset a).toNat / 2 ^ s ≤ (pageOffset a).toNat := Nat.div_le_self _ _
  apply BitVec.eq_of_toNat_eq
  rw [BitVec.truncate, BitVec.toNat_ushiftRight, BitVec.toNat_setWidth, BitVec.toNat_setWidth,
    toNat_shiftedOffset, Nat.shiftRight_eq_div_pow,
    Nat.mod_eq_of_lt (show (pageOffset a).toNat < 2 ^ 32 by omega), Nat.mod_eq_of_lt (by omega)]

/-- The shift for the words that one of the three tests of the step accepts. -/
def patchShift (instr : BitVec 32) : Option ℕ :=
  if instr &&& 0x3B000000#32 = 0x39000000#32 then some ((instr >>> 30) &&& 0x3#32).toNat
  else if instr &&& 0x7F000000#32 = 0x11000000#32 then
    some ((instr &&& 0x00C00000#32) >>> 22).toNat
  else if instr &&& 0x3F800000#32 = 0x38000000#32 then
    some ((instr &&& 0xC0000000#32) >>> 30).toNat
  else none

/-- The step writes the offset in the page of the old variable, shifted. -/
theorem pageoff12_eq_map (instr : BitVec 32) (old : Address) :
    pageoff12 instr old =
      (patchShift instr).map fun s => setImm12 instr (shiftedOffset old s) := by
  have hreplace (s : ℕ) : (instr &&& ~~~0x003FFC00#32) |||
      ((old &&& 0xFFF#64).truncate 32 >>> s) <<< 10 =
        setImm12 instr (shiftedOffset old s) := by
    change _ = (instr &&& ~~~mask 10 12) ||| _
    rw [← truncate_pageOffset_ushiftRight]
    rfl
  -- the masks of the tests lie within those of `opcode` and `opcode2`
  have hmasks : instr &&& 0xFFC00000#32 &&& 0x3B000000#32 = instr &&& 0x3B000000#32 ∧
      instr &&& 0xFF000000#32 &&& 0x7F800000#32 = instr &&& 0x7F000000#32 ∧
      instr &&& 0xFFC00000#32 &&& 0x3F800000#32 = instr &&& 0x3F800000#32 := by
    simp only [BitVec.and_assoc]
    exact ⟨rfl, rfl, rfl⟩
  unfold pageoff12 patchShift
  simp only [hreplace, hmasks]
  split
  · rfl
  · split
    · rfl
    · split <;> rfl

theorem patchShift_of_accessScale {instr : BitVec 32} {scale : ℕ}
    (h : accessScale instr = some scale) : patchShift instr = some (offsetShift instr) := by
  unfold patchShift offsetShift
  by_cases hload : instr &&& 0x3B000000#32 = 0x39000000#32
  · rw [if_pos hload, if_pos hload]
  · have hadd : instr &&& 0x7F800000#32 = 0x11000000#32 := by
      by_contra hne
      unfold accessScale offsetForm at h
      rw [if_neg hne, if_neg hload] at h
      cases hsize : accessSize instr <;> rw [hsize] at h <;> split_ifs at h <;> cases h
    have hopcode : instr &&& 0x7F000000#32 = 0x11000000#32 := and_eq_of_and_eq hadd rfl
    rw [if_neg hload, if_pos hopcode, if_neg hload]

theorem pageoff12_eq {instr : BitVec 32} {scale : ℕ} (h : accessScale instr = some scale)
    (old : Address) :
    pageoff12 instr old = some (setImm12 instr (shiftedOffset old (offsetShift instr))) := by
  rw [pageoff12_eq_map, patchShift_of_accessScale h]
  rfl

namespace RelocationContext

variable {x : RelocationContext} {mem : ProcessMemory} {relocs pre post : List Relocation}
  {reloc : Relocation} {a : Address}

/-! ## One instruction among many relocations -/

/-- The relocation cannot write to the instruction at the address. -/
def Avoids (x : RelocationContext) (reloc : Relocation) (a : Address) : Prop :=
  ∀ target, findFunction x.newProgram.symbols reloc.targetSymbolName reloc.targetSymbolHash =
    some target → Apart (fieldAddress reloc target) reloc.size a 4

theorem field32_foldl_turn (h : ∀ reloc ∈ relocs, x.Avoids reloc a) (s : RelocationState) :
    field32 (relocs.foldl x.turn s).memory a = field32 s.memory a := by
  have hword : (relocs.foldl x.turn s).memory.readWord a 4 = s.memory.readWord a 4 := by
    apply Memory.readWord_congr
    intro i hi
    apply foldl_turn_of_not_within
    intro reloc hreloc target htarget hwithin
    apply h reloc hreloc target htarget _ hwithin
    rw [within_add, BitVec.toNat_ofNat]
    omega
  rw [field32, hword, field32]

/-- Only the relocation of an instruction counts for it. -/
theorem field32_stateAfter (hpost : ∀ reloc ∈ post, x.Avoids reloc a) :
    field32 (x.stateAfter mem (pre ++ reloc :: post)).memory a =
      field32 (x.turn (x.stateAfter mem pre) reloc).memory a := by
  rw [stateAfter, List.foldl_append, List.foldl_cons, field32_foldl_turn hpost]
  rfl

end RelocationContext

/-! ## Pairs of instructions -/

namespace MachoObject

open MachoProgramInfoLoader

/-- What an emitted relocation has of its entry. -/
theorem outcome_ok {arch : Architecture} {stringHasher : String → UInt64} {o : MachoObject}
    {e : MachoReloc} {reloc : Relocation} (h : o.outcome arch stringHasher e = .ok reloc) :
    reloc.type = e.type.toNat ∧
      ∃ symbol, (o.symbols stringHasher).orderedSymbols[e.symbolnum.toNat]? = some symbol ∧
        reloc.relocationSymbolName = symbol.name ∧ reloc.relocationSymbolHash = symbol.hash := by
  unfold outcome at h
  split at h
  · cases h
  · rename_i symbol hsymbol
    split at h
    · cases hsize : relocationSize e.length with
      | error logs => simp [hsize, bind, Except.bind] at h
      | ok size =>
          cases hpcrel : checkPcrel arch e with
          | error logs => simp [hsize, hpcrel, bind, Except.bind] at h
          | ok _ =>
              cases htype : checkType arch e.type.toNat with
              | error logs => simp [hsize, hpcrel, htype, bind, Except.bind] at h
              | ok _ =>
                  simp only [hsize, hpcrel, htype, bind, Except.bind] at h
                  split at h
                  · cases h
                  · obtain rfl := Except.ok.inj h
                    exact ⟨rfl, symbol, hsymbol, rfl, rfl⟩
    · cases h

end MachoObject

open MachoProgramInfoLoader RelocationContext

/-- An instruction with its entry in a sequence of entries. The entry is about this instruction,
and the relocations of the others do not write to it. -/
structure RelocatedInstruction (x : RelocationContext) (stringHasher : String → UInt64)
    (entries : List (MachoObject × MachoReloc)) where
  object : MachoObject
  entry : MachoReloc
  pre : List (MachoObject × MachoReloc)
  post : List (MachoObject × MachoReloc)
  entries_eq : entries = pre ++ (object, entry) :: post
  address : Address
  placed : ∀ reloc, object.outcome x.arch stringHasher entry = .ok reloc → ∀ target,
    findFunction x.newProgram.symbols reloc.targetSymbolName reloc.targetSymbolHash = some target →
      fieldAddress reloc target = address
  avoided : ∀ p ∈ pre ++ post, ∀ reloc, p.1.outcome x.arch stringHasher p.2 = .ok reloc →
    x.Avoids reloc address

namespace RelocatedInstruction

variable {x : RelocationContext} {stringHasher : String → UInt64}
  {entries : List (MachoObject × MachoReloc)} {mem : ProcessMemory}

def arm64RelocAddend : BitVec 4 := 10

/-- The addend is the number in an entry of its own, in front of the one it belongs to. -/
def addend (i : RelocatedInstruction x stringHasher entries) : BitVec 24 :=
  match i.pre.getLast? with
  | none => 0
  | some (object, e) =>
      if object = i.object ∧ e.type = arm64RelocAddend ∧ e.address = i.entry.address then
        e.symbolnum
      else 0

/-- The relocation of the instruction is emitted, finds its symbols, bridges their distance and
can be written. -/
def Applied (i : RelocatedInstruction x stringHasher entries) : Prop :=
  ∃ reloc target new old, i.object.outcome x.arch stringHasher i.entry = .ok reloc ∧
    x.Resolves reloc target new old ∧ Bridges reloc old new ∧
    x.status (emitted x.arch stringHasher i.pre).length = 0

/-- The instruction after all relocations. -/
def after (i : RelocatedInstruction x stringHasher entries) (mem : ProcessMemory) : BitVec 32 :=
  field32 (x.stateAfter mem (emitted x.arch stringHasher entries)).memory i.address

theorem avoids_pre (i : RelocatedInstruction x stringHasher entries) :
    ∀ reloc ∈ emitted x.arch stringHasher i.pre, x.Avoids reloc i.address := by
  intro reloc hreloc
  obtain ⟨p, hp, houtcome⟩ := mem_emitted.mp hreloc
  exact i.avoided p (List.mem_append_left _ hp) reloc houtcome

theorem avoids_post (i : RelocatedInstruction x stringHasher entries) :
    ∀ reloc ∈ emitted x.arch stringHasher i.post, x.Avoids reloc i.address := by
  intro reloc hreloc
  obtain ⟨p, hp, houtcome⟩ := mem_emitted.mp hreloc
  exact i.avoided p (List.mem_append_right _ hp) reloc houtcome

theorem field32_pre (i : RelocatedInstruction x stringHasher entries) :
    field32 (x.stateAfter mem (emitted x.arch stringHasher i.pre)).memory i.address =
      field32 mem i.address :=
  field32_foldl_turn i.avoids_pre { memory := mem }

theorem emitted_of_ok (i : RelocatedInstruction x stringHasher entries) {reloc : Relocation}
    (h : i.object.outcome x.arch stringHasher i.entry = .ok reloc) :
    emitted x.arch stringHasher entries =
      emitted x.arch stringHasher i.pre ++ reloc :: emitted x.arch stringHasher i.post := by
  conv_lhs => rw [i.entries_eq]
  unfold emitted
  rw [List.filterMap_append, List.filterMap_cons_some]
  rw [h]
  rfl

theorem emitted_of_error (i : RelocatedInstruction x stringHasher entries) {logs : List LogEntry}
    (h : i.object.outcome x.arch stringHasher i.entry = .error logs) :
    emitted x.arch stringHasher entries =
      emitted x.arch stringHasher i.pre ++ emitted x.arch stringHasher i.post := by
  conv_lhs => rw [i.entries_eq]
  unfold emitted
  rw [List.filterMap_append, List.filterMap_cons_none]
  rw [h]
  rfl

/-- The word that the relocation of the instruction writes, if it is applied: it depends on the
instruction and the old variable only. -/
def Writes (i : RelocatedInstruction x stringHasher entries) (mem : ProcessMemory)
    (w : BitVec 32) : Prop :=
  ∀ reloc target new old, i.object.outcome x.arch stringHasher i.entry = .ok reloc →
    x.Resolves reloc target new old → ∀ mem' : ProcessMemory,
    field32 mem' i.address = field32 mem i.address →
    patchField x.arch mem' reloc i.address old.runtimeAddress new.runtimeAddress =
      .ok (some (4, w.toNat))

theorem after_of_applied (i : RelocatedInstruction x stringHasher entries) {w : BitVec 32}
    (hw : i.Writes mem w) (h : i.Applied) : i.after mem = w := by
  obtain ⟨reloc, target, new, old, houtcome, hr, hbridges, hstatus⟩ := h
  have haddress := i.placed reloc houtcome target hr.target
  have hfield := hw reloc target new old houtcome hr _ i.field32_pre
  rw [← haddress] at hfield
  have hpasses : x.Passes (x.stateAfter mem (emitted x.arch stringHasher i.pre)) reloc := by
    refine (passes_iff hr).mpr ⟨hbridges, _, hfield, Or.inr ?_⟩
    rw [index_stateAfter]
    exact hstatus
  rw [after, i.emitted_of_ok houtcome, field32_stateAfter i.avoids_post,
    turn_of_passes hr hpasses hfield, haddress, field32_writeWord]

/-- An instruction whose relocation does not pass is left alone. -/
theorem after_of_not_passes (i : RelocatedInstruction x stringHasher entries)
    (h : ∀ reloc, i.object.outcome x.arch stringHasher i.entry = .ok reloc →
      ¬ x.Passes (x.stateAfter mem (emitted x.arch stringHasher i.pre)) reloc) :
    i.after mem = field32 mem i.address := by
  rw [after]
  cases houtcome : i.object.outcome x.arch stringHasher i.entry with
  | error logs =>
      rw [i.emitted_of_error houtcome]
      apply field32_foldl_turn
      intro reloc hreloc
      rcases List.mem_append.mp hreloc with hreloc | hreloc
      · exact i.avoids_pre reloc hreloc
      · exact i.avoids_post reloc hreloc
  | ok reloc =>
      rw [i.emitted_of_ok houtcome, field32_stateAfter i.avoids_post,
        turn_of_not_passes (h reloc houtcome), i.field32_pre]

theorem after_of_not_applied (i : RelocatedInstruction x stringHasher entries) {w : BitVec 32}
    (hw : i.Writes mem w) (h : ¬ i.Applied) : i.after mem = field32 mem i.address := by
  refine i.after_of_not_passes fun reloc houtcome hpasses => h ?_
  obtain ⟨target, new, old, hr⟩ := exists_resolves_of_passes hpasses
  obtain ⟨hbridges, field, hfield, hstatus⟩ := (passes_iff hr).mp hpasses
  rw [i.placed reloc houtcome target hr.target,
    hw reloc target new old houtcome hr _ i.field32_pre] at hfield
  obtain rfl := Except.ok.inj hfield
  refine ⟨reloc, target, new, old, houtcome, hr, hbridges, ?_⟩
  rw [← index_stateAfter x mem]
  simpa using hstatus

/-- An instruction for a variable without an old one is left alone. -/
theorem after_of_oldVariable_eq_none (i : RelocatedInstruction x stringHasher entries)
    {symbol : ShortMachoSymbol} (hsymbol : (i.object.symbols stringHasher).orderedSymbols[
      i.entry.symbolnum.toNat]? = some symbol)
    (hold : oldVariable x.programs symbol.name symbol.hash = none) :
    i.after mem = field32 mem i.address := by
  refine i.after_of_not_passes fun reloc houtcome hpasses => ?_
  obtain ⟨target, new, old, hr⟩ := exists_resolves_of_passes hpasses
  obtain ⟨_, symbol', hsymbol', hname, hhash⟩ := MachoObject.outcome_ok houtcome
  obtain rfl := Option.some.inj (hsymbol.symm.trans hsymbol')
  have hfound := hr.old
  rw [hname, hhash, hold] at hfound
  cases hfound

end RelocatedInstruction

/-- An `adrp` and an `add`, a load or a store, with entries for one symbol and the same addend,
that address the place of the addend in the new variable. There is an old variable too; without one
both instructions are left alone (`RelocatedInstruction.after_of_oldVariable_eq_none`). -/
structure PagePair (x : RelocationContext) (stringHasher : String → UInt64)
    (fopen : String → MachoObjectFile) (objFilePaths : List String) (mem : ProcessMemory) where
  arch_eq : x.arch = .aarch64
  adrp : RelocatedInstruction x stringHasher (textEntries fopen objFilePaths)
  access : RelocatedInstruction x stringHasher (textEntries fopen objFilePaths)
  adrp_type : adrp.entry.type.toNat = arm64RelocPage21
  access_type : access.entry.type.toNat = arm64RelocPageoff12
  object_eq : access.object = adrp.object
  symbolnum_eq : access.entry.symbolnum = adrp.entry.symbolnum
  addend_eq : access.addend = adrp.addend
  symbol : ShortMachoSymbol
  symbol_eq : (adrp.object.symbols stringHasher).orderedSymbols[adrp.entry.symbolnum.toNat]? =
    some symbol
  new : Symbol
  old : Symbol
  new_eq : findVariable x.newProgram.symbols symbol.name symbol.hash = some new
  old_eq : oldVariable x.programs symbol.name symbol.hash = some old
  addresses_new :
    pairAddress (field32 mem adrp.address) adrp.address (field32 mem access.address) =
      some (new.runtimeAddress + adrp.addend.signExtend 64)

namespace PagePair

variable {x : RelocationContext} {stringHasher : String → UInt64}
  {fopen : String → MachoObjectFile} {objFilePaths : List String} {mem : ProcessMemory}
  (p : PagePair x stringHasher fopen objFilePaths mem)

def finalMemory (_ : PagePair x stringHasher fopen objFilePaths mem) : ProcessMemory :=
  (linkTimeRelocations x (getLinkTimeRelocations x.arch stringHasher fopen objFilePaths).1 mem).1

/-- The place that is addressed, counted from the begin of the variable. -/
def addend : Address := p.adrp.addend.signExtend 64

/-- Both instructions are left alone, or they address the same place of the old variable. -/
def KeepsOffset : Prop :=
  (field32 p.finalMemory p.adrp.address = field32 mem p.adrp.address ∧
    field32 p.finalMemory p.access.address = field32 mem p.access.address) ∨
  pairAddress (field32 p.finalMemory p.adrp.address) p.adrp.address
    (field32 p.finalMemory p.access.address) = some (p.old.runtimeAddress + p.addend)

def scale : ℕ := (accessScale (field32 mem p.access.address)).getD 0

def heldPage : Address := adrpPage (field32 mem p.adrp.address) p.adrp.address

def heldOffset : Address := scaled (imm12 (field32 mem p.access.address)) p.scale

def writtenOffset : Address :=
  scaled (shiftedOffset p.old.runtimeAddress (offsetShift (field32 mem p.access.address))) p.scale

/-- The shift that the step takes is the scale of an `add` without shift and of loads and stores of
up to eight bytes. Then the offset of an aligned variable is written as it is. -/
theorem writtenOffset_eq (hshift : offsetShift (field32 mem p.access.address) = p.scale)
    (hscale : p.scale ≤ 12) (haligned : 2 ^ p.scale ∣ p.old.runtimeAddress.toNat) :
    p.writtenOffset = pageOffset p.old.runtimeAddress := by
  rw [writtenOffset, hshift]
  exact scaled_shiftedOffset hscale haligned

/-- What is written for the old variable does no harm. -/
inductive Harmless : Prop
  /-- Nothing is applied, or what is applied is there already. -/
  | unchanged (page : p.adrp.Applied →
        p.heldPage.toNat % 2 ^ 33 = (page p.old.runtimeAddress).toNat % 2 ^ 33)
      (offset : p.access.Applied → p.heldOffset = p.writtenOffset)
  /-- Both are applied, and the addend makes up for the scale of the second instruction. -/
  | redirected (adrp : p.adrp.Applied) (access : p.access.Applied)
      (reach : InPageReach p.adrp.address p.old.runtimeAddress)
      (offset : p.addend = p.writtenOffset - pageOffset p.old.runtimeAddress)
  /-- Only the page is written, and the offset happens to be right. -/
  | page (adrp : p.adrp.Applied) (access : ¬ p.access.Applied)
      (reach : InPageReach p.adrp.address p.old.runtimeAddress)
      (offset : p.addend = p.heldOffset - pageOffset p.old.runtimeAddress)
  /-- Only the offset is written, and the page happens to be right. -/
  | offset (adrp : ¬ p.adrp.Applied) (access : p.access.Applied)
      (offset : p.addend = p.heldPage + p.writtenOffset - p.old.runtimeAddress)

/-! ### The two words -/

variable {p}

theorem isAdrp_adrp (p : PagePair x stringHasher fopen objFilePaths mem) :
    isAdrp (field32 mem p.adrp.address) ∧
      (field32 mem p.adrp.address).extractLsb' 0 5 =
        (field32 mem p.access.address).extractLsb' 5 5 := by
  have h := p.addresses_new
  unfold pairAddress at h
  split at h
  · assumption
  · cases h

theorem accessScale_access (p : PagePair x stringHasher fopen objFilePaths mem) :
    accessScale (field32 mem p.access.address) = some p.scale := by
  have h := p.addresses_new
  unfold pairAddress at h
  rw [if_pos p.isAdrp_adrp] at h
  obtain ⟨scale, hscale, _⟩ := Option.map_eq_some_iff.mp h
  rw [PagePair.scale, hscale]
  rfl

theorem old_of_resolves (p : PagePair x stringHasher fopen objFilePaths mem)
    {e : MachoReloc} (he : e.symbolnum = p.adrp.entry.symbolnum) {reloc : Relocation}
    (houtcome : p.adrp.object.outcome x.arch stringHasher e = .ok reloc) {target new old : Symbol}
    (hr : x.Resolves reloc target new old) : old = p.old := by
  obtain ⟨_, symbol, hsymbol, hname, hhash⟩ := MachoObject.outcome_ok houtcome
  rw [he, p.symbol_eq] at hsymbol
  obtain rfl := Option.some.inj hsymbol
  have hold := hr.old
  rw [hname, hhash, p.old_eq] at hold
  exact (Option.some.inj hold).symm

theorem adrp_writes (p : PagePair x stringHasher fopen objFilePaths mem) :
    p.adrp.Writes mem (setPageImm (field32 mem p.adrp.address)
      (pageDistance p.adrp.address p.old.runtimeAddress)) := by
  intro reloc target new old houtcome hr mem' hmem
  obtain rfl := p.old_of_resolves rfl houtcome hr
  have htype : reloc.type = arm64RelocPage21 :=
    (MachoObject.outcome_ok houtcome).1.trans p.adrp_type
  rw [← page21_eq, ← hmem, p.arch_eq, patchField, htype]
  rfl

theorem access_writes (p : PagePair x stringHasher fopen objFilePaths mem) :
    p.access.Writes mem (setImm12 (field32 mem p.access.address)
      (shiftedOffset p.old.runtimeAddress (offsetShift (field32 mem p.access.address)))) := by
  intro reloc target new old houtcome hr mem' hmem
  have houtcome' := houtcome
  rw [p.object_eq] at houtcome'
  obtain rfl := p.old_of_resolves p.symbolnum_eq houtcome' hr
  have htype : reloc.type = arm64RelocPageoff12 :=
    (MachoObject.outcome_ok houtcome).1.trans p.access_type
  have hpatch := pageoff12_eq p.accessScale_access p.old.runtimeAddress
  rw [← hmem, field32] at hpatch
  rw [p.arch_eq, patchField, htype]
  simp only [hpatch, ← hmem]
  rfl

theorem field32_final (p : PagePair x stringHasher fopen objFilePaths mem)
    (i : RelocatedInstruction x stringHasher (textEntries fopen objFilePaths)) :
    field32 p.finalMemory i.address = i.after mem := by
  rw [finalMemory, getLinkTimeRelocations_eq_emitted]
  rfl

/-! ### Where the pair points -/

/-- The pair is still a pair after its immediates were written. -/
theorem pairAddress_eq (p : PagePair x stringHasher fopen objFilePaths mem)
    {adrp access : BitVec 32} (hadrp : isAdrp adrp = isAdrp (field32 mem p.adrp.address))
    (hbase : adrp.extractLsb' 0 5 = (field32 mem p.adrp.address).extractLsb' 0 5)
    (hbase' : access.extractLsb' 5 5 = (field32 mem p.access.address).extractLsb' 5 5)
    (hscale : accessScale access = accessScale (field32 mem p.access.address)) :
    pairAddress adrp p.adrp.address access =
      some (adrpPage adrp p.adrp.address + scaled (imm12 access) p.scale) := by
  rw [pairAddress, hadrp, hbase, hbase', if_pos p.isAdrp_adrp, hscale, p.accessScale_access]
  rfl

theorem scale_le (p : PagePair x stringHasher fopen objFilePaths mem) : p.scale ≤ 12 :=
  accessScale_le p.accessScale_access

theorem fitsInt_offset (a : Address) (k : BitVec 24) :
    FitsInt 32 (pageOffset a + k.signExtend 64).toInt := by
  have hoffset : (pageOffset a).toNat < 4096 := by
    rw [toNat_pageOffset]
    omega
  have hpage : (pageOffset a).toInt = (pageOffset a).toNat :=
    BitVec.toInt_eq_toNat_of_lt (by omega)
  have hlo : -2 ^ 23 ≤ k.toInt := k.le_toInt
  have hhi : k.toInt < 2 ^ 23 := k.toInt_lt
  rw [BitVec.toInt_add, BitVec.toInt_signExtend_of_le (by decide), hpage,
    Int.bmod_eq_of_le (by omega) (by omega)]
  exact ⟨by omega, by omega⟩

/-- An offset after the page that was written for the old variable. -/
theorem adrpPage_setPageImm_add_iff (p : PagePair x stringHasher fopen objFilePaths mem)
    (w : BitVec 32) (imm : BitVec 12) :
    adrpPage (setPageImm w (pageDistance p.adrp.address p.old.runtimeAddress)) p.adrp.address +
        scaled imm p.scale = p.old.runtimeAddress + p.addend ↔
      InPageReach p.adrp.address p.old.runtimeAddress ∧
        p.addend = scaled imm p.scale - pageOffset p.old.runtimeAddress := by
  have hsplit : p.old.runtimeAddress + p.addend =
      page p.old.runtimeAddress + (pageOffset p.old.runtimeAddress + p.addend) := by
    rw [← BitVec.add_assoc, page_add_pageOffset]
  have hfits : FitsInt 32 (pageOffset p.old.runtimeAddress + p.addend).toInt := fitsInt_offset _ _
  rw [hsplit, adrpPage_add_eq_iff (pageImm_setPageImm _ _) (toNat_scaled_lt imm p.scale_le) hfits]
  refine and_congr_right fun _ => ?_
  rw [eq_sub_iff_add_eq, BitVec.add_comm]
  exact eq_comm

theorem setPageImm_held_iff (p : PagePair x stringHasher fopen objFilePaths mem) :
    setPageImm (field32 mem p.adrp.address) (pageDistance p.adrp.address p.old.runtimeAddress) =
        field32 mem p.adrp.address ↔
      p.heldPage.toNat % 2 ^ 33 = (page p.old.runtimeAddress).toNat % 2 ^ 33 := by
  rw [setPageImm_eq_self_iff, pageImm_eq_iff, heldPage]

theorem setImm12_held_iff (p : PagePair x stringHasher fopen objFilePaths mem) :
    setImm12 (field32 mem p.access.address)
        (shiftedOffset p.old.runtimeAddress (offsetShift (field32 mem p.access.address))) =
        field32 mem p.access.address ↔ p.heldOffset = p.writtenOffset := by
  rw [setImm12_eq_self_iff, heldOffset, writtenOffset, scaled_inj p.scale_le]

/-! ### The four cases -/

theorem harmless_iff_of_both (p : PagePair x stringHasher fopen objFilePaths mem)
    (hadrp : p.adrp.Applied) (haccess : p.access.Applied) :
    p.Harmless ↔
      (p.heldPage.toNat % 2 ^ 33 = (page p.old.runtimeAddress).toNat % 2 ^ 33 ∧
          p.heldOffset = p.writtenOffset) ∨
        InPageReach p.adrp.address p.old.runtimeAddress ∧
          p.addend = p.writtenOffset - pageOffset p.old.runtimeAddress := by
  constructor
  · rintro (⟨hpage, hoffset⟩ | ⟨_, _, hreach, hoffset⟩ | ⟨_, hnot, _⟩ | ⟨hnot, _⟩)
    · exact Or.inl ⟨hpage hadrp, hoffset haccess⟩
    · exact Or.inr ⟨hreach, hoffset⟩
    · exact absurd haccess hnot
    · exact absurd hadrp hnot
  · rintro (⟨hpage, hoffset⟩ | ⟨hreach, hoffset⟩)
    · exact .unchanged (fun _ => hpage) fun _ => hoffset
    · exact .redirected hadrp haccess hreach hoffset

theorem harmless_iff_of_adrp (p : PagePair x stringHasher fopen objFilePaths mem)
    (hadrp : p.adrp.Applied) (haccess : ¬ p.access.Applied) :
    p.Harmless ↔
      p.heldPage.toNat % 2 ^ 33 = (page p.old.runtimeAddress).toNat % 2 ^ 33 ∨
        InPageReach p.adrp.address p.old.runtimeAddress ∧
          p.addend = p.heldOffset - pageOffset p.old.runtimeAddress := by
  constructor
  · rintro (⟨hpage, _⟩ | ⟨_, hnot, _⟩ | ⟨_, _, hreach, hoffset⟩ | ⟨hnot, _⟩)
    · exact Or.inl (hpage hadrp)
    · exact absurd hnot haccess
    · exact Or.inr ⟨hreach, hoffset⟩
    · exact absurd hadrp hnot
  · rintro (hpage | ⟨hreach, hoffset⟩)
    · exact .unchanged (fun _ => hpage) fun h => absurd h haccess
    · exact .page hadrp haccess hreach hoffset

theorem harmless_iff_of_access (p : PagePair x stringHasher fopen objFilePaths mem)
    (hadrp : ¬ p.adrp.Applied) (haccess : p.access.Applied) :
    p.Harmless ↔ p.heldOffset = p.writtenOffset ∨
      p.addend = p.heldPage + p.writtenOffset - p.old.runtimeAddress := by
  constructor
  · rintro (⟨_, hoffset⟩ | ⟨hnot, _⟩ | ⟨hnot, _⟩ | ⟨_, _, hoffset⟩)
    · exact Or.inl (hoffset haccess)
    · exact absurd hnot hadrp
    · exact absurd hnot hadrp
    · exact Or.inr hoffset
  · rintro (hoffset | hoffset)
    · exact .unchanged (fun h => absurd h hadrp) fun _ => hoffset
    · exact .offset hadrp haccess hoffset

theorem harmless_of_neither (p : PagePair x stringHasher fopen objFilePaths mem)
    (hadrp : ¬ p.adrp.Applied) (haccess : ¬ p.access.Applied) : p.Harmless :=
  .unchanged (fun h => absurd h hadrp) fun h => absurd h haccess

/-- A pair without an addend is redirected to the old variable. -/
theorem harmless_of_addend_eq_zero (p : PagePair x stringHasher fopen objFilePaths mem)
    (hadrp : p.adrp.Applied) (haccess : p.access.Applied)
    (hreach : InPageReach p.adrp.address p.old.runtimeAddress)
    (hshift : offsetShift (field32 mem p.access.address) = p.scale)
    (haligned : 2 ^ p.scale ∣ p.old.runtimeAddress.toNat) (hzero : p.addend = 0) :
    p.Harmless := by
  refine .redirected hadrp haccess hreach ?_
  rw [writtenOffset_eq p hshift p.scale_le haligned, hzero, BitVec.sub_self]
  rfl

/-- The pair is left alone or addresses the same place of the old variable exactly if what is
written does no harm. -/
theorem keepsOffset_iff_harmless (p : PagePair x stringHasher fopen objFilePaths mem) :
    p.KeepsOffset ↔ p.Harmless := by
  unfold KeepsOffset
  rw [p.field32_final, p.field32_final]
  by_cases hadrp : p.adrp.Applied
  · rw [p.adrp.after_of_applied p.adrp_writes hadrp, p.setPageImm_held_iff]
    by_cases haccess : p.access.Applied
    · rw [p.access.after_of_applied p.access_writes haccess, p.setImm12_held_iff,
        p.pairAddress_eq (isAdrp_setPageImm _ _) (base_setPageImm _ _) (base_setImm12 _ _)
          (accessScale_setImm12 _ _), Option.some.injEq, imm12_setImm12,
        p.adrpPage_setPageImm_add_iff, p.harmless_iff_of_both hadrp haccess]
      rfl
    · rw [p.access.after_of_not_applied p.access_writes haccess,
        p.pairAddress_eq (isAdrp_setPageImm _ _) (base_setPageImm _ _) rfl rfl,
        Option.some.injEq, p.adrpPage_setPageImm_add_iff, and_iff_left rfl,
        p.harmless_iff_of_adrp hadrp haccess]
      rfl
  · rw [p.adrp.after_of_not_applied p.adrp_writes hadrp]
    by_cases haccess : p.access.Applied
    · rw [p.access.after_of_applied p.access_writes haccess, p.setImm12_held_iff,
        p.pairAddress_eq rfl rfl (base_setImm12 _ _) (accessScale_setImm12 _ _),
        Option.some.injEq, imm12_setImm12, and_iff_right rfl,
        p.harmless_iff_of_access hadrp haccess, eq_sub_iff_add_eq', eq_comm (b := _ + p.addend)]
      rfl
    · rw [p.access.after_of_not_applied p.access_writes haccess]
      exact iff_of_true (Or.inl ⟨rfl, rfl⟩) (p.harmless_of_neither hadrp haccess)

/-! ### The bytes of a variable

The function `f` takes the address of `counter`, or of the second byte of it. -/

/-- The entries of the `add` and of the `adrp`. -/
def beginEntries : List MachoReloc :=
  [{ address := 4, symbolnum := 1, pcrel := false, type := 4 },
    { address := 0, symbolnum := 1, type := 3 }]

/-- The same entries, each after an entry with the addend `1`. -/
def byteEntries : List MachoReloc :=
  [{ address := 4, symbolnum := 1, pcrel := false, type := 10 },
    { address := 4, symbolnum := 1, pcrel := false, type := 4 },
    { address := 0, symbolnum := 1, pcrel := false, type := 10 },
    { address := 0, symbolnum := 1, type := 3 }]

def byteObject (entries : List MachoReloc) : MachoObject where
  filepath := "a.o"
  commands :=
    [.segment [{ sectname := "__text", size := 16, relocs := entries },
        { sectname := "__data", addr := 16, size := 16 }],
      .symtab "\x00_f\x00_counter\x00".toList
        [{ strx := 1, type := 0x0e, sect := 1 },
          { strx := 4, type := 0x0e, sect := 2, value := 16 }]]

/-- The function is loaded to `0x4000`, and the variable was at `0x5020`. -/
def byteContext : RelocationContext where
  arch := .aarch64
  programs := [{ symbols := { vars := [{ name := "counter", runtimeAddress := 0x5020 }] } }]
  newProgram :=
    { symbols :=
        { functions := [{ name := "f", runtimeAddress := 0x4000 }]
          vars := [{ name := "counter", runtimeAddress := 0x8010 }] } }
  status _ := 0

/-- `adrp x0, 0x8000` and the given `add`. -/
def byteMemory (add : ℕ) : ProcessMemory :=
  Memory.writeWord (Memory.writeWord (fun _ => 0) 0x4000 4 0x90000020) 0x4004 4 add

/-- The relocation of the instruction at an offset of the function. -/
def byteRelocation (offset : Address) (type : ℕ) : Relocation where
  targetSymbolName := "f"
  targetSymbolHash := 3
  relocationOffsetRelativeTargetSymbolAddress := offset
  relocationSymbolName := "counter"
  relocationSymbolHash := 3
  size := 4
  type := type

theorem byte_findFunction {offset : Address} {type : ℕ} {target : Symbol}
    (h : findFunction byteContext.newProgram.symbols (byteRelocation offset type).targetSymbolName
      (byteRelocation offset type).targetSymbolHash = some target) :
    fieldAddress (byteRelocation offset type) target = 0x4000 + offset := by
  have hfind : findFunction byteContext.newProgram.symbols "f" 3 =
      some { name := "f", runtimeAddress := 0x4000 } := by decide
  obtain rfl := Option.some.inj (hfind.symm.trans h)
  rfl

/-- One of the two instructions: the other one is the only relocation besides. -/
def byteInstruction (entries pre post : List MachoReloc) (entry : MachoReloc)
    (offset offset' : Address) (type type' : ℕ) (hentries : entries = pre ++ entry :: post)
    (houtcome : (byteObject entries).outcome .aarch64 ElfImage.lengthHasher entry =
      .ok (byteRelocation offset type))
    (hothers : emitted .aarch64 ElfImage.lengthHasher
      ((pre ++ post).map fun e => (byteObject entries, e)) = [byteRelocation offset' type'])
    (hapart : Apart (0x4000 + offset') 4 (0x4000 + offset) 4) :
    RelocatedInstruction byteContext ElfImage.lengthHasher
      (textEntries (fun _ => .macho (byteObject entries).commands) ["a.o"]) where
  object := byteObject entries
  entry := entry
  pre := pre.map fun e => (byteObject entries, e)
  post := post.map fun e => (byteObject entries, e)
  entries_eq := by
    have htext : (byteObject entries).textEntries = entries := List.append_nil entries
    rw [← List.map_cons, ← List.map_append, ← hentries]
    nth_rewrite 3 [← htext]
    exact List.append_nil _
  address := 0x4000 + offset
  placed := by
    intro reloc hreloc target htarget
    obtain rfl := Except.ok.inj (houtcome.symm.trans hreloc)
    exact byte_findFunction htarget
  avoided := by
    intro p hp reloc hreloc target htarget
    rw [← List.map_append] at hp
    have hmem := mem_emitted.mpr ⟨p, hp, hreloc⟩
    change reloc ∈ emitted .aarch64 ElfImage.lengthHasher _ at hmem
    rw [hothers, List.mem_singleton] at hmem
    subst hmem
    rw [byte_findFunction htarget]
    exact hapart

def bytePair : PagePair byteContext ElfImage.lengthHasher
    (fun _ => .macho (byteObject byteEntries).commands) ["a.o"] (byteMemory 0x91004400) where
  arch_eq := rfl
  adrp := byteInstruction _ (byteEntries.take 3) [] { address := 0, symbolnum := 1, type := 3 }
    0 4 3 4 rfl (by decide +kernel) (by decide +kernel)
    (apart_of_le (by decide) (by decide)).symm
  access := byteInstruction _ (byteEntries.take 1) (byteEntries.drop 2)
    { address := 4, symbolnum := 1, pcrel := false, type := 4 } 4 0 4 3 rfl (by decide +kernel)
    (by decide +kernel) (apart_of_le (by decide) (by decide))
  adrp_type := rfl
  access_type := rfl
  object_eq := rfl
  symbolnum_eq := rfl
  addend_eq := by decide +kernel
  symbol := ⟨"counter", 3, 2⟩
  symbol_eq := by decide +kernel
  new := { name := "counter", runtimeAddress := 0x8010 }
  old := { name := "counter", runtimeAddress := 0x5020 }
  new_eq := by decide
  old_eq := by decide
  addresses_new := by decide +kernel

/-- The pair addresses the first byte of the old variable after the reload. -/
theorem bytePair_not_keepsOffset : bytePair.addend = 1 ∧ ¬ bytePair.KeepsOffset ∧
    pairAddress (field32 bytePair.finalMemory 0x4000) 0x4000
      (field32 bytePair.finalMemory 0x4004) = some 0x5020 := by
  unfold KeepsOffset
  decide +kernel

def beginPair : PagePair byteContext ElfImage.lengthHasher
    (fun _ => .macho (byteObject beginEntries).commands) ["a.o"] (byteMemory 0x91004000) where
  arch_eq := rfl
  adrp := byteInstruction _ (beginEntries.take 1) [] { address := 0, symbolnum := 1, type := 3 }
    0 4 3 4 rfl (by decide +kernel) (by decide +kernel)
    (apart_of_le (by decide) (by decide)).symm
  access := byteInstruction _ [] (beginEntries.drop 1)
    { address := 4, symbolnum := 1, pcrel := false, type := 4 } 4 0 4 3 rfl (by decide +kernel)
    (by decide +kernel) (apart_of_le (by decide) (by decide))
  adrp_type := rfl
  access_type := rfl
  object_eq := rfl
  symbolnum_eq := rfl
  addend_eq := by decide +kernel
  symbol := ⟨"counter", 3, 2⟩
  symbol_eq := by decide +kernel
  new := { name := "counter", runtimeAddress := 0x8010 }
  old := { name := "counter", runtimeAddress := 0x5020 }
  new_eq := by decide
  old_eq := by decide
  addresses_new := by decide +kernel

/-- The relocation of an instruction of the example is applied. -/
theorem byte_applied (offset : Address) (type : ℕ)
    (i : RelocatedInstruction byteContext ElfImage.lengthHasher
      (textEntries (fun _ => .macho (byteObject beginEntries).commands) ["a.o"]))
    (houtcome : i.object.outcome .aarch64 ElfImage.lengthHasher i.entry =
      .ok (byteRelocation offset type)) : i.Applied := by
  have hfunction : findFunction byteContext.newProgram.symbols "f" 3 =
      some { name := "f", runtimeAddress := 0x4000 } := by decide
  have hnew : findVariable byteContext.newProgram.symbols "counter" 3 =
      some { name := "counter", runtimeAddress := 0x8010 } := by decide
  have hold : oldVariable byteContext.programs "counter" 3 =
      some { name := "counter", runtimeAddress := 0x5020 } := by decide
  exact ⟨_, _, _, _, houtcome, ⟨hfunction, hnew, hold⟩, ⟨_, rfl, by decide⟩, rfl⟩

theorem beginPair_harmless : beginPair.Harmless := by
  refine beginPair.harmless_of_addend_eq_zero (byte_applied 0 3 _ (by decide +kernel))
    (byte_applied 4 4 _ (by decide +kernel)) (by decide +kernel) (by decide +kernel) ?_
    (by decide +kernel)
  decide +kernel

end PagePair

end JetLive

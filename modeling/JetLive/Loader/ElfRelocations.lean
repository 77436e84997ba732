import JetLive.Loader.Elf
import JetLive.Loader.SymbolMaps

/-!
# The link-time relocations of ELF objects

The loader reads the relocation section of `.text` and keeps the entries of a type that the
linker resolves by itself. Such an entry refers to the symbol `S` and the addend `A`, and the
loader takes the variable at the offset `A + 4` of the section of `S` for the one that is
referenced: it knows neither the value of `S` nor how many bytes of the instruction follow the
displacement. A `VariableReference` is an entry with its symbol. The variable is right exactly
if the symbol has the value `0` (`names_located_iff`), and if it is larger than the part of the
instruction that follows the displacement (`storage_contains_iff`).
-/

namespace JetLive

open Containers

/-- An entry of a relocation section, `Elf64_Rela`. The addend is signed. -/
structure ElfRela where
  offset : Address
  symbol : ℕ
  type : ℕ
  addend : Address
  deriving DecidableEq, Repr

/-- What the loader reads of a section: `SHT_SYMTAB`, `SHT_RELA` or another type. -/
inductive ElfContents
  | symtab (symbols : List ElfEntry)
  | rela (info : ℕ) (entries : List ElfRela)
  | other
  deriving DecidableEq, Repr

structure ElfObjectSection where
  name : String
  contents : ElfContents := .other
  deriving DecidableEq, Repr

structure ElfObject where
  sections : List ElfObjectSection
  deriving DecidableEq, Repr

/-! ## Types of relocations -/

/-- The names of the types `R_X86_64_*`, some with a tabulator as in the source. -/
def elfRelocationNames : List (ℕ × String) :=
  [(0, "R_X86_64_NONE"), (1, "R_X86_64_64\t"), (2, "R_X86_64_PC32"), (3, "R_X86_64_GOT32"),
    (4, "R_X86_64_PLT32"), (5, "R_X86_64_COPY"), (6, "R_X86_64_GLOB_DAT"),
    (7, "R_X86_64_JUMP_SLOT"), (8, "R_X86_64_RELATIVE"), (9, "R_X86_64_GOTPCREL"),
    (10, "R_X86_64_32\t"), (11, "R_X86_64_32S\t"), (12, "R_X86_64_16\t"), (13, "R_X86_64_PC16"),
    (14, "R_X86_64_8\t"), (15, "R_X86_64_PC8"), (16, "R_X86_64_DTPMOD64"),
    (17, "R_X86_64_DTPOFF64"), (18, "R_X86_64_TPOFF64"), (19, "R_X86_64_TLSGD"),
    (20, "R_X86_64_TLSLD"), (21, "R_X86_64_DTPOFF32"), (22, "R_X86_64_GOTTPOFF"),
    (23, "R_X86_64_TPOFF32"), (24, "R_X86_64_PC64"), (25, "R_X86_64_GOTOFF64"),
    (26, "R_X86_64_GOTPC32"), (27, "R_X86_64_GOT64"), (28, "R_X86_64_GOTPCREL64"),
    (29, "R_X86_64_GOTPC64"), (30, "R_X86_64_GOTPLT64"), (31, "R_X86_64_PLTOFF64"),
    (32, "R_X86_64_SIZE32"), (33, "R_X86_64_SIZE64"), (34, "R_X86_64_GOTPC32_TLSDESC"),
    (35, "R_X86_64_TLSDESC_CALL"), (36, "R_X86_64_TLSDESC"), (37, "R_X86_64_IRELATIVE"),
    (38, "R_X86_64_RELATIVE64"), (43, "R_X86_64_NUM\t")]

def rX8664Pc32 : ℕ := 2

def rX8664Pc64 : ℕ := 24

def rX8664Gotpcrel : ℕ := 9

/-- `R_X86_64_PC8`, `R_X86_64_PC16`, `R_X86_64_GOTPC32` and `R_X86_64_PLT32`. -/
def unsupportedRelocations : List ℕ := [15, 13, 26, 4]

namespace ElfProgramInfoLoader

def relToString (relocType : ℕ) : String := (elfRelocationNames.lookup relocType).getD "UNKNOWN"

/-- The size of the field to relocate. `GOTPCREL` is left to the dynamic linker. -/
def relocationSize (type : ℕ) : Outcome ℕ :=
  if type = rX8664Pc32 then .ok 4
  else if type = rX8664Pc64 then .ok 8
  else if type = rX8664Gotpcrel then .error []
  else if type ∈ unsupportedRelocations then
    .error [.log .kError ("Relocation " ++ relToString type ++ " is not implemented")]
  else .error [.log .kError ("Relocation " ++ relToString type ++ " is not possible in PIC code")]

/-! ## The symbols of an object -/

/-- What the loop over the sections has read. The indices are those of the last sections with
these names. -/
structure ObjectScan where
  symbolsSectionIndexes : UnorderedMap ℕ ℕ := ∅
  symbolsInSections : List (SymbolMap ElfSymbol)
  textSectionIndex : Option ℕ := none
  bssSectionIndex : Option ℕ := none
  dataSectionIndex : Option ℕ := none
  currentHash : UInt64 := 0

namespace ObjectScan

variable (stringHasher : String → UInt64)

def addEntry (s : ObjectScan) (entry : ElfEntry × ℕ) : ObjectScan :=
  let (e, j) := entry
  let s := { s with symbolsSectionIndexes := s.symbolsSectionIndexes.insert j e.sectionIndex }
  if e.type = .kSection then s
  else if e.type = .kFile then { s with currentHash := stringHasher e.name }
  else
    let elfSymbol := e.elfSymbol (if e.bind = .kLocal then s.currentHash else 0)
    { s with symbolsInSections :=
        s.symbolsInSections.modify e.sectionIndex fun symbols => symbols.enter elfSymbol }

def addName (s : ObjectScan) (name : String) (i : ℕ) : ObjectScan :=
  if name = ".text" then { s with textSectionIndex := some i }
  else if name = ".bss" then { s with bssSectionIndex := some i }
  else if name = ".data" then { s with dataSectionIndex := some i }
  else s

def addSection (s : ObjectScan) (entry : ElfObjectSection × ℕ) : ObjectScan :=
  let s := s.addName entry.1.name entry.2
  match entry.1.contents with
  | .symtab symbols => symbols.zipIdx.foldl (addEntry stringHasher) s
  | .rela .. | .other => s

/-- The index of `.text` as a word; it is `-1` if there is no such section. -/
def textInfo (s : ObjectScan) : ℕ := s.textSectionIndex.getD 0xffffffff

/-- The section that a symbol is defined in, `0` if there is no such symbol. -/
def sectionOf (s : ObjectScan) (symbol : ℕ) : ℕ := (s.symbolsSectionIndexes.lookup symbol).getD 0

def isVariables (s : ObjectScan) (sectionIndex : ℕ) : Bool :=
  s.bssSectionIndex = some sectionIndex || s.dataSectionIndex = some sectionIndex

def symbolsOf (s : ObjectScan) (sectionIndex : ℕ) : SymbolMap ElfSymbol :=
  s.symbolsInSections.getD sectionIndex .empty

end ObjectScan

end ElfProgramInfoLoader

/-! ## Relocations -/

/-- A field of the code of a function that refers to a variable. -/
structure ElfReference where
  target : ElfSymbol
  symbol : ElfSymbol
  offset : Address
  size : ℕ
  deriving DecidableEq, Repr

def ElfReference.relocation (r : ElfReference) : Relocation where
  targetSymbolName := r.target.name
  targetSymbolHash := r.target.hash
  relocationOffsetRelativeTargetSymbolAddress := r.offset - r.target.virtualAddress
  relocationSymbolName := r.symbol.name
  relocationSymbolHash := r.symbol.hash
  size := r.size

namespace ElfObject

open ElfProgramInfoLoader

variable (stringHasher : String → UInt64) (o : ElfObject)

/-- The first loop. -/
def scan : ObjectScan :=
  o.sections.zipIdx.foldl (ObjectScan.addSection stringHasher)
    { symbolsInSections := List.replicate o.sections.length .empty }

/-- The reference of an entry of the relocation section of the section `info`. -/
def reference (info : ℕ) (e : ElfRela) : Outcome ElfReference :=
  let s := o.scan stringHasher
  let sectionIndex := s.sectionOf e.symbol
  if s.isVariables sectionIndex then
    match relocationSize e.type with
    | .error logs => .error logs
    | .ok size =>
        let symRelAddr := e.addend + 4
        match (s.symbolsOf sectionIndex).find symRelAddr with
        | none => .error [.log .kError "WTF"]
        | some symFound =>
            match (s.symbolsOf info).enclosing e.offset with
            | none => .error [.log .kError "WTF1"]
            | some found => .ok ⟨found, symFound, e.offset, size⟩
  else .error []

def sectionOutcomes (sec : ElfObjectSection) : List (Outcome Relocation) :=
  match sec.contents with
  | .rela info entries =>
      if info = (o.scan stringHasher).textInfo then
        entries.map fun e => (o.reference stringHasher info e).map ElfReference.relocation
      else []
  | .symtab _ | .other => []

def linkTimeRelocations : List Relocation × List LogEntry :=
  collect (o.sections.flatMap (o.sectionOutcomes stringHasher))

end ElfObject

/-- The relocations of the objects; one that cannot be loaded is reported. -/
def ElfProgramInfoLoader.getLinkTimeRelocations (stringHasher : String → UInt64)
    (load : String → Option ElfObject) : List String → List Relocation × List LogEntry
  | [] => ([], [])
  | el :: objFilePaths =>
      let rest := getLinkTimeRelocations stringHasher load objFilePaths
      match load el with
      | none => (rest.1, .log .kError ("Cannot load " ++ el ++ " file") :: rest.2)
      | some o =>
          let found := o.linkTimeRelocations stringHasher
          (found.1 ++ rest.1, found.2 ++ rest.2)

/-! ## The variable of an entry -/

/-- The bytes that a symbol takes in its section. -/
def ElfSymbol.Stores (sym : ElfSymbol) (a : Address) : Prop :=
  (a - sym.virtualAddress).toNat < sym.size

instance (sym : ElfSymbol) (a : Address) : Decidable (sym.Stores a) :=
  inferInstanceAs (Decidable (_ < _))

namespace ElfObject

open ElfProgramInfoLoader

section

variable (stringHasher : String → UInt64) (o : ElfObject)

/-- The symbol at an offset of the section that the given symbol is defined in. -/
def symbolAt (symbol : ℕ) (a : Address) : Option ElfSymbol :=
  let s := o.scan stringHasher
  (s.symbolsOf (s.sectionOf symbol)).find a

/-- The entry stands in the relocation section of `.text`. -/
def IsTextEntry (info : ℕ) (e : ElfRela) : Prop :=
  info = (o.scan stringHasher).textInfo ∧
    ∃ sec ∈ o.sections, ∃ entries, sec.contents = .rela info entries ∧ e ∈ entries

/-- The symbol has this row in a symbol table. -/
def HasRow (symbol : ℕ) (row : ElfEntry) : Prop :=
  ∃ sec ∈ o.sections, ∃ symbols, sec.contents = .symtab symbols ∧ symbols[symbol]? = some row

/-- An entry of type `R_X86_64_PC32` in the relocation section of `.text`, whose symbol is
defined in `.bss` or `.data`. -/
structure VariableReference where
  info : ℕ
  entry : ElfRela
  row : ElfEntry
  isTextEntry : o.IsTextEntry stringHasher info entry
  type_eq : entry.type = rX8664Pc32
  hasRow : o.HasRow entry.symbol row
  isVariables : (o.scan stringHasher).isVariables row.sectionIndex

/-- The symbol is the one of the section itself. -/
structure SectionReference extends VariableReference stringHasher o where
  isSection : row.type = .kSection
  value_eq : row.value = 0

end

variable {stringHasher : String → UInt64} {o : ElfObject}

/-- The offset in the section that is referenced, if so many bytes of the instruction follow the
displacement. -/
def VariableReference.referenced (x : VariableReference stringHasher o) (trailing : ℕ) :
    Address :=
  x.row.value + x.entry.addend + 4 + BitVec.ofNat 64 trailing

/-- What is found for an entry. -/
theorem found_of_reference {info : ℕ} {e : ElfRela} {ref : ElfReference}
    (h : o.reference stringHasher info e = .ok ref) :
    o.symbolAt stringHasher e.symbol (e.addend + 4) = some ref.symbol ∧
      ((o.scan stringHasher).symbolsOf info).enclosing e.offset = some ref.target := by
  unfold reference at h
  dsimp only at h
  split at h
  · split at h
    · cases h
    · split at h
      · cases h
      · rename_i symFound hsymbol
        split at h
        · cases h
        · rename_i found hfound
          obtain rfl := Except.ok.inj h
          exact ⟨hsymbol, hfound⟩
  · cases h

theorem virtualAddress_of_reference {info : ℕ} {e : ElfRela} {ref : ElfReference}
    (h : o.reference stringHasher info e = .ok ref) :
    ref.symbol.virtualAddress = e.addend + 4 :=
  SymbolMap.virtualAddress_of_find (found_of_reference h).1

/-- The relocation of a reference is emitted. -/
theorem relocation_mem {info : ℕ} {e : ElfRela} (he : o.IsTextEntry stringHasher info e)
    {ref : ElfReference} (h : o.reference stringHasher info e = .ok ref) :
    ref.relocation ∈ (o.linkTimeRelocations stringHasher).1 := by
  obtain ⟨hinfo, sec, hsec, entries, hcontents, hmem⟩ := he
  apply mem_collect.mpr
  apply List.mem_flatMap.mpr
  refine ⟨sec, hsec, ?_⟩
  rw [sectionOutcomes, hcontents]
  dsimp only
  rw [if_pos hinfo]
  apply List.mem_map.mpr
  exact ⟨e, hmem, by rw [h]; rfl⟩

/-! ### Two variables of four bytes

The function `f` refers to one of the variables `a` and `b` of `.bss`, once through the symbol of
the section and once through the symbol of `b`. -/

/-- The field of `f` refers to the symbol with this number. -/
def pc32 (symbol : ℕ) (addend : Address) : ElfRela := ⟨2, symbol, rX8664Pc32, addend⟩

def bssSymbol : ElfEntry := { name := "", bind := .kLocal, type := .kSection, sectionIndex := 3 }

def bssVariable (name : String) (value : Address) : ElfEntry :=
  { name, value, size := 4, bind := .kLocal, type := .kObject, sectionIndex := 3 }

def twoVariables (e : ElfRela) : ElfObject where
  sections :=
    [⟨"", .other⟩, ⟨".text", .other⟩, ⟨".rela.text", .rela 1 [e]⟩, ⟨".bss", .other⟩,
      ⟨".symtab", .symtab [{ name := "", bind := .kLocal, type := .kNo }, bssSymbol,
        { name := "f", size := 16, bind := .kGlobal, type := .kFunction, sectionIndex := 1 },
        bssVariable "a" 0, bssVariable "b" 4]⟩]

theorem twoVariables_isTextEntry (e : ElfRela) :
    (twoVariables e).IsTextEntry ElfImage.lengthHasher 1 e :=
  ⟨rfl, ⟨".rela.text", .rela 1 [e]⟩, by simp [twoVariables], [e], rfl, List.mem_singleton_self e⟩

theorem twoVariables_hasRow (e : ElfRela) {symbol : ℕ} {row : ElfEntry}
    (h : [{ name := "", bind := .kLocal, type := .kNo }, bssSymbol,
      { name := "f", size := 16, bind := .kGlobal, type := .kFunction, sectionIndex := 1 },
      bssVariable "a" 0, bssVariable "b" 4][symbol]? = some row) :
    (twoVariables e).HasRow symbol row :=
  ⟨⟨".symtab", .symtab _⟩, by simp [twoVariables], _, rfl, h⟩

def throughSection (addend : Address) :
    SectionReference ElfImage.lengthHasher (twoVariables (pc32 1 addend)) where
  info := 1
  entry := pc32 1 addend
  row := bssSymbol
  isTextEntry := twoVariables_isTextEntry _
  type_eq := rfl
  hasRow := twoVariables_hasRow _ rfl
  isVariables := rfl
  isSection := rfl
  value_eq := rfl

def throughB (addend : Address) :
    VariableReference ElfImage.lengthHasher (twoVariables (pc32 4 addend)) where
  info := 1
  entry := pc32 4 addend
  row := bssVariable "b" 4
  isTextEntry := twoVariables_isTextEntry _
  type_eq := rfl
  hasRow := twoVariables_hasRow _ rfl
  isVariables := rfl

/-- The reference from `f` to a variable. -/
def fromF (name : String) (value : Address) : ElfReference where
  target := { name := "f", size := 16, binding := .kGlobal, type := .kFunction, sectionIndex := 1 }
  symbol := (bssVariable name value).elfSymbol 0
  offset := 2
  size := 4

/-! ### The value of the symbol -/

/-- The relocation names the variable at the referenced offset exactly if the symbol of the
entry has the value `0`. -/
theorem names_located_iff (x : VariableReference stringHasher o) {ref : ElfReference}
    (h : o.reference stringHasher x.info x.entry = .ok ref) :
    ref.relocation ∈ (o.linkTimeRelocations stringHasher).1 ∧
      (ref.symbol.virtualAddress = x.referenced 0 ↔ x.row.value = 0) := by
  refine ⟨relocation_mem x.isTextEntry h, ?_⟩
  rw [virtualAddress_of_reference h, VariableReference.referenced]
  constructor
  · intro heq
    rw [add_assoc x.row.value, BitVec.ofNat_eq_ofNat, BitVec.add_zero, right_eq_add] at heq
    exact heq
  · intro hvalue
    simp [hvalue]

/-- The reference to `b` through the section names `b`. -/
theorem throughSection_names_located :
    (fromF "b" 4).relocation ∈
      ((twoVariables (pc32 1 0)).linkTimeRelocations ElfImage.lengthHasher).1 ∧
    (fromF "b" 4).symbol.virtualAddress = (throughSection 0).referenced 0 := by
  have hreference : (twoVariables (pc32 1 0)).reference ElfImage.lengthHasher 1 (pc32 1 0) =
      .ok (fromF "b" 4) := by
    decide +kernel
  obtain ⟨hmem, hlocated⟩ := names_located_iff (throughSection 0).toVariableReference hreference
  exact ⟨hmem, hlocated.mpr rfl⟩

/-- The reference to `b` through its own symbol names `a`. -/
theorem throughB_not_names_located :
    (twoVariables (pc32 4 (-4))).reference ElfImage.lengthHasher 1 (pc32 4 (-4)) =
      .ok (fromF "a" 0) ∧
    (fromF "a" 0).symbol.virtualAddress ≠ (throughB (-4)).referenced 0 ∧
    (fromF "b" 4).symbol.virtualAddress = (throughB (-4)).referenced 0 := by
  decide +kernel

/-! ### Bytes after the displacement -/

/-- The relocation names the variable whose storage holds the referenced offset exactly if the
one at the offset of the displacement is larger than what follows the displacement. -/
theorem storage_contains_iff (x : SectionReference stringHasher o) {trailing : ℕ}
    (htrailing : trailing ∈ [0, 1, 2, 4]) {ref : ElfReference}
    (h : o.reference stringHasher x.info x.entry = .ok ref) :
    ref.relocation ∈ (o.linkTimeRelocations stringHasher).1 ∧
      (ref.symbol.Stores (x.referenced trailing) ↔
        ∃ sym, o.symbolAt stringHasher x.entry.symbol (x.entry.addend + 4) = some sym ∧
          trailing < sym.size) := by
  refine ⟨relocation_mem x.isTextEntry h, ?_⟩
  have hdistance : x.referenced trailing - ref.symbol.virtualAddress =
      BitVec.ofNat 64 trailing := by
    rw [virtualAddress_of_reference h, VariableReference.referenced, x.value_eq]
    simp
  have htoNat : (BitVec.ofNat 64 trailing).toNat = trailing := by
    have hle : trailing ≤ 4 := by
      simp only [List.mem_cons, List.not_mem_nil, or_false] at htrailing
      omega
    rw [BitVec.toNat_ofNat]
    omega
  rw [ElfSymbol.Stores, hdistance, htoNat, (found_of_reference h).1]
  simp

/-- Two bytes are stored to the second half of `a`. -/
theorem throughSection_storage_contains :
    (fromF "a" 0).relocation ∈
      ((twoVariables (pc32 1 (-4))).linkTimeRelocations ElfImage.lengthHasher).1 ∧
    (fromF "a" 0).symbol.Stores ((throughSection (-4)).referenced 2) := by
  have hreference : (twoVariables (pc32 1 (-4))).reference ElfImage.lengthHasher 1 (pc32 1 (-4)) =
      .ok (fromF "a" 0) := by
    decide +kernel
  obtain ⟨hmem, hstores⟩ := storage_contains_iff (throughSection (-4))
    (show 2 ∈ [0, 1, 2, 4] by decide) hreference
  exact ⟨hmem, hstores.mpr ⟨(fromF "a" 0).symbol, by decide +kernel, by decide⟩⟩

/-- Four bytes are stored to `b`, and the relocation names `a`. -/
theorem throughSection_not_storage_contains :
    (twoVariables (pc32 1 (-4))).reference ElfImage.lengthHasher 1 (pc32 1 (-4)) =
      .ok (fromF "a" 0) ∧
    ¬ (fromF "a" 0).symbol.Stores ((throughSection (-4)).referenced 4) ∧
    (fromF "b" 4).symbol.Stores ((throughSection (-4)).referenced 4) := by
  decide +kernel

end ElfObject

end JetLive

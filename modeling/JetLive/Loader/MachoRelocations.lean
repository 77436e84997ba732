import JetLive.Loader.ElfRelocations
import JetLive.Loader.Macho
import JetLive.Reload.Relocations

/-!
# The link-time relocations of Mach-O objects

The loader reads the relocation entries of the `__text` sections of an object. The variable of an
entry is known from its symbol, and the function from the symbols of the last `__text` section.
All symbols carry the hash of the object. An addend has an entry of its own in front of the one
it belongs to; it is reported as unsupported, and the latter is emitted without it.

The loader ends at the first file of another format, and the objects behind it are not read.
The relocations of two lists of objects in a row are those of one after the other, for both
formats, unless this happens in the first list and matters for the second
(`getLinkTimeRelocations_append_iff`).
-/

namespace JetLive

/-- A relocation entry, `relocation_info`. -/
structure MachoReloc where
  address : BitVec 32
  symbolnum : BitVec 24
  pcrel : Bool := true
  length : BitVec 2 := 2
  type : BitVec 4
  deriving DecidableEq, Repr

structure MachoObjectSection extends MachoSection where
  relocs : List MachoReloc := []
  deriving DecidableEq, Repr

inductive ObjectCommand
  | segment (sections : List MachoObjectSection)
  | symtab (stringTable : List Char) (symbols : List Nlist)
  | other
  deriving DecidableEq, Repr

def ObjectCommand.toLoadCommand : ObjectCommand → LoadCommand
  | .segment sections => .segment (sections.map MachoObjectSection.toMachoSection)
  | .symtab stringTable symbols => .symtab stringTable symbols
  | .other => .other

def ObjectCommand.sections : ObjectCommand → List MachoObjectSection
  | .segment sections => sections
  | .symtab .. | .other => []

structure MachoObject where
  filepath : String
  commands : List ObjectCommand
  deriving DecidableEq, Repr

namespace MachoProgramInfoLoader

/-! ## Types of relocations -/

def x86RelocationNames : List (ℕ × String) :=
  [(1, "X86_64_RELOC_SIGNED"), (6, "X86_64_RELOC_SIGNED_1"), (7, "X86_64_RELOC_SIGNED_2"),
    (8, "X86_64_RELOC_SIGNED_4"), (0, "X86_64_RELOC_UNSIGNED"), (2, "X86_64_RELOC_BRANCH"),
    (3, "X86_64_RELOC_GOT_LOAD"), (4, "X86_64_RELOC_GOT"), (5, "X86_64_RELOC_SUBTRACTOR"),
    (9, "X86_64_RELOC_TLV")]

def arm64RelocationNames : List (ℕ × String) :=
  [(0, "ARM64_RELOC_UNSIGNED"), (1, "ARM64_RELOC_SUBTRACTOR"), (2, "ARM64_RELOC_BRANCH26"),
    (3, "ARM64_RELOC_PAGE21"), (4, "ARM64_RELOC_PAGEOFF12"), (5, "ARM64_RELOC_GOT_LOAD_PAGE21"),
    (6, "ARM64_RELOC_GOT_LOAD_PAGEOFF12"), (7, "ARM64_RELOC_POINTER_TO_GOT"),
    (8, "ARM64_RELOC_TLVP_LOAD_PAGE21"), (9, "ARM64_RELOC_TLVP_LOAD_PAGEOFF12"),
    (10, "ARM64_RELOC_ADDEND"), (11, "ARM64_RELOC_AUTHENTICATED_POINTER")]

def relToString (arch : Architecture) (relocType : ℕ) : String :=
  let names := match arch with
    | .x86_64 => x86RelocationNames
    | .aarch64 => arm64RelocationNames
  (names.lookup relocType).getD "UNKNOWN"

/-- The types that are emitted: the `SIGNED` ones, and `PAGE21`, `PAGEOFF12` and `UNSIGNED`. -/
def supportedTypes : Architecture → List ℕ
  | .x86_64 => [1, 6, 7, 8]
  | .aarch64 => [arm64RelocPage21, arm64RelocPageoff12, arm64RelocUnsigned]

/-- The types that are skipped without a message: `GOT_LOAD`. -/
def skippedTypes : Architecture → List ℕ
  | .x86_64 => [3]
  | .aarch64 => []

/-- The types that are known and reported. -/
def unsupportedTypes : Architecture → List ℕ
  | .x86_64 => [0, 2, 4, 5, 9]
  | .aarch64 => [1, 2, 5, 6, 7, 8, 9, 10, 11]

def checkType (arch : Architecture) (type : ℕ) : Outcome Unit :=
  if type ∈ supportedTypes arch then .ok ()
  else if type ∈ skippedTypes arch then .error []
  else if type ∈ unsupportedTypes arch then
    .error [.log .kError ("Unsupported relocation type: " ++ relToString arch type)]
  else .error [.log .kError ("Unknown relocation type: " ++ toString type)]

def relocationSize (length : BitVec 2) : Outcome ℕ :=
  if length = 2 then .ok 4
  else if length = 3 then .ok 8
  else .error [.log .kError ("Unsupported relocation length: " ++ toString length.toNat)]

/-- On `x86_64` the entry has to be relative to the program counter. -/
def checkPcrel (arch : Architecture) (reloc : MachoReloc) : Outcome Unit :=
  match arch with
  | .x86_64 =>
      if reloc.pcrel then .ok ()
      else .error [.log .kDebug ("reloc.r_pcrel == 0, reloc.r_type == "
        ++ relToString .x86_64 reloc.type.toNat)]
  | .aarch64 => .ok ()

/-! ## Sections and symbols of an object -/

/-- The indices of the last sections with these names, which are numbered from `1` on. -/
structure SectionIndexes where
  sectionIndex : ℕ := 0
  textSectionIndex : Option ℕ := none
  bssSectionIndex : Option ℕ := none
  dataSectionIndex : Option ℕ := none
  commonSectionIndex : Option ℕ := none

namespace SectionIndexes

def addSection (s : SectionIndexes) (sec : MachoObjectSection) : SectionIndexes :=
  let sectionIndex := s.sectionIndex + 1
  let s := { s with sectionIndex }
  if sec.sectname = "__text" then { s with textSectionIndex := some sectionIndex }
  else if sec.sectname = "__data" then { s with dataSectionIndex := some sectionIndex }
  else if sec.sectname = "__bss" then { s with bssSectionIndex := some sectionIndex }
  else if sec.sectname = "__common" then { s with commonSectionIndex := some sectionIndex }
  else s

def isVariables (s : SectionIndexes) (sectionIndex : ℕ) : Bool :=
  s.bssSectionIndex = some sectionIndex || s.dataSectionIndex = some sectionIndex ||
    s.commonSectionIndex = some sectionIndex

end SectionIndexes

structure ShortMachoSymbol where
  name : String
  hash : UInt64
  sectionIndex : ℕ
  deriving DecidableEq, Repr

/-- What the loop over the symbols has read. -/
structure ObjectSymbols where
  orderedSymbols : List ShortMachoSymbol := []
  symbolsInSections : List (SymbolMap MachoSymbol)
  logs : List LogEntry := []

namespace ObjectSymbols

variable (layout : Layout) (currentHash : UInt64)

/-- One entry of a symbol table. Unlike in an image, all names are those of symbols. -/
def addEntry (stringTable : List Char) (s : ObjectSymbols) (n : Nlist) : ObjectSymbols :=
  let name := n.name stringTable
  let s := { s with
    orderedSymbols := s.orderedSymbols ++ [⟨name, currentHash, n.sect.toNat⟩] }
  match n.symbolType with
  | none => s
  | some type =>
      let symbol := { machoSymbol layout stringTable n type currentHash with name }
      let logs := if symbolSize layout n type = none then [.log .kDebug "wtf?"] else []
      { s with
        symbolsInSections :=
          s.symbolsInSections.modify n.sect.toNat fun symbols => symbols.enter symbol
        logs := s.logs ++ logs }

def addSymbols (s : ObjectSymbols) : ObjectCommand → ObjectSymbols
  | .symtab stringTable symbols => symbols.foldl (addEntry layout currentHash stringTable) s
  | .segment _ | .other => s

end ObjectSymbols

end MachoProgramInfoLoader

/-! ## Relocations -/

namespace MachoObject

open MachoProgramInfoLoader

variable (arch : Architecture) (stringHasher : String → UInt64) (o : MachoObject)

def sections : List MachoObjectSection := o.commands.flatMap ObjectCommand.sections

/-- The names and bounds after the first two passes. -/
def layout : Layout := MachoImage.layout ⟨0, o.commands.map ObjectCommand.toLoadCommand⟩

def indexes : SectionIndexes := o.sections.foldl SectionIndexes.addSection {}

/-- The symbols after the third pass. -/
def symbols : ObjectSymbols :=
  o.commands.foldl (ObjectSymbols.addSymbols o.layout (stringHasher o.filepath))
    { symbolsInSections := List.replicate (o.sections.length + 1) .empty }

/-- The symbols of the last `__text` section. -/
def textSymbols : SymbolMap MachoSymbol :=
  match o.indexes.textSectionIndex with
  | none => .empty
  | some i => (o.symbols stringHasher).symbolsInSections.getD i .empty

def outcome (reloc : MachoReloc) : Outcome Relocation :=
  match (o.symbols stringHasher).orderedSymbols[reloc.symbolnum.toNat]? with
  | none => .error []
  | some shortSymbol =>
      if o.indexes.isVariables shortSymbol.sectionIndex then do
        let size ← relocationSize reloc.length
        checkPcrel arch reloc
        checkType arch reloc.type.toNat
        let relocAddr := reloc.address.signExtend 64
        match (o.textSymbols stringHasher).enclosing relocAddr with
        | none => .error [.log .kError "WTF1"]
        | some found =>
            .ok
              { type := reloc.type.toNat
                size
                targetSymbolName := found.name
                targetSymbolHash := found.hash
                relocationOffsetRelativeTargetSymbolAddress := relocAddr - found.virtualAddress
                relocationSymbolName := shortSymbol.name
                relocationSymbolHash := shortSymbol.hash }
      else .error []

def textEntries : List MachoReloc :=
  (o.sections.filter fun sec => sec.sectname = "__text").flatMap MachoObjectSection.relocs

def linkTimeRelocations : List Relocation × List LogEntry :=
  let found := collect (o.textEntries.map (o.outcome arch stringHasher))
  (found.1, (o.symbols stringHasher).logs ++ found.2)

end MachoObject

inductive MachoObjectFile
  | unreadable
  | foreign
  | macho (commands : List ObjectCommand)
  deriving DecidableEq

/-- The relocations of the objects. One that cannot be opened is reported; one of another format
ends the loop. -/
def MachoProgramInfoLoader.getLinkTimeRelocations (arch : Architecture)
    (stringHasher : String → UInt64) (fopen : String → MachoObjectFile) :
    List String → List Relocation × List LogEntry
  | [] => ([], [])
  | filepath :: objFilePaths =>
      let rest := getLinkTimeRelocations arch stringHasher fopen objFilePaths
      match fopen filepath with
      | .unreadable => (rest.1, .log .kError ("Cannot open " ++ filepath) :: rest.2)
      | .foreign => ([], [])
      | .macho commands =>
          let found := MachoObject.linkTimeRelocations arch stringHasher ⟨filepath, commands⟩
          (found.1 ++ rest.1, found.2 ++ rest.2)

/-! ## Objects in a row -/

def ElfProgramInfoLoader.fileRelocations (stringHasher : String → UInt64)
    (load : String → Option ElfObject) (el : String) : List Relocation :=
  match load el with
  | none => []
  | some o => (o.linkTimeRelocations stringHasher).1

theorem ElfProgramInfoLoader.getLinkTimeRelocations_eq (stringHasher : String → UInt64)
    (load : String → Option ElfObject) (objFilePaths : List String) :
    (getLinkTimeRelocations stringHasher load objFilePaths).1 =
      objFilePaths.flatMap (fileRelocations stringHasher load) := by
  induction objFilePaths with
  | nil => rfl
  | cons el objFilePaths ih =>
      rw [List.flatMap_cons, ← ih, getLinkTimeRelocations, fileRelocations]
      cases load el with
      | none => rfl
      | some o => rfl

namespace MachoProgramInfoLoader

section

variable (arch : Architecture) (stringHasher : String → UInt64) (fopen : String → MachoObjectFile)

def fileRelocations (filepath : String) : List Relocation :=
  match fopen filepath with
  | .unreadable | .foreign => []
  | .macho commands => (MachoObject.linkTimeRelocations arch stringHasher ⟨filepath, commands⟩).1

/-- The loop goes on after this file. -/
def goesOn (filepath : String) : Bool := fopen filepath ≠ .foreign

/-- The file is an object with an entry that is emitted. -/
def Yields (filepath : String) : Prop :=
  ∃ commands, fopen filepath = .macho commands ∧
    ∃ e ∈ MachoObject.textEntries ⟨filepath, commands⟩,
      ∃ reloc, MachoObject.outcome arch stringHasher ⟨filepath, commands⟩ e = .ok reloc

end

variable {arch : Architecture} {stringHasher : String → UInt64} {fopen : String → MachoObjectFile}

/-- Only the objects in front of the first file of another format count. -/
theorem getLinkTimeRelocations_eq (objFilePaths : List String) :
    (getLinkTimeRelocations arch stringHasher fopen objFilePaths).1 =
      (objFilePaths.takeWhile (goesOn fopen)).flatMap
        (fileRelocations arch stringHasher fopen) := by
  induction objFilePaths with
  | nil => rfl
  | cons filepath objFilePaths ih =>
      rw [getLinkTimeRelocations]
      cases hfile : fopen filepath with
      | foreign =>
          rw [List.takeWhile_cons_of_neg (by simp [goesOn, hfile])]
          rfl
      | unreadable =>
          rw [List.takeWhile_cons_of_pos (by simp [goesOn, hfile]), List.flatMap_cons,
            fileRelocations, hfile, ← ih]
          rfl
      | macho commands =>
          rw [List.takeWhile_cons_of_pos (by simp [goesOn, hfile]), List.flatMap_cons,
            fileRelocations, hfile, ← ih]

theorem fileRelocations_eq_nil_iff {filepath : String} :
    fileRelocations arch stringHasher fopen filepath = [] ↔
      ¬ Yields arch stringHasher fopen filepath := by
  unfold fileRelocations Yields
  cases hfile : fopen filepath with
  | unreadable => simp
  | foreign => simp
  | macho commands =>
      rw [List.eq_nil_iff_forall_not_mem]
      simp only [MachoObject.linkTimeRelocations, mem_collect, List.mem_map,
        MachoObjectFile.macho.injEq, exists_eq_left']
      constructor
      · rintro h ⟨e, he, reloc, hreloc⟩
        exact h reloc ⟨e, he, hreloc⟩
      · rintro h reloc ⟨e, he, hreloc⟩
        exact h ⟨e, he, reloc, hreloc⟩

end MachoProgramInfoLoader

/-! ### The sequence of entries -/

namespace MachoProgramInfoLoader

/-- The entries of the objects that are read, each with its object. -/
def textEntries (fopen : String → MachoObjectFile) (objFilePaths : List String) :
    List (MachoObject × MachoReloc) :=
  (objFilePaths.takeWhile (goesOn fopen)).flatMap fun filepath =>
    match fopen filepath with
    | .unreadable | .foreign => []
    | .macho commands =>
        (MachoObject.textEntries ⟨filepath, commands⟩).map fun e => (⟨filepath, commands⟩, e)

def emitted (arch : Architecture) (stringHasher : String → UInt64)
    (entries : List (MachoObject × MachoReloc)) : List Relocation :=
  entries.filterMap fun p => (p.1.outcome arch stringHasher p.2).toOption

variable {arch : Architecture} {stringHasher : String → UInt64}

theorem getLinkTimeRelocations_eq_emitted (fopen : String → MachoObjectFile)
    (objFilePaths : List String) :
    (getLinkTimeRelocations arch stringHasher fopen objFilePaths).1 =
      emitted arch stringHasher (textEntries fopen objFilePaths) := by
  rw [getLinkTimeRelocations_eq, emitted, textEntries, List.filterMap_flatMap]
  apply List.flatMap_congr
  intro filepath _
  unfold fileRelocations
  cases fopen filepath with
  | unreadable => rfl
  | foreign => rfl
  | macho commands =>
      rw [List.filterMap_map]
      simp only [MachoObject.linkTimeRelocations, collect, List.filterMap_map]
      rfl

theorem mem_emitted {entries : List (MachoObject × MachoReloc)} {reloc : Relocation} :
    reloc ∈ emitted arch stringHasher entries ↔
      ∃ p ∈ entries, p.1.outcome arch stringHasher p.2 = .ok reloc := by
  unfold emitted
  rw [List.mem_filterMap]
  refine exists_congr fun p => and_congr_right fun _ => ?_
  cases p.1.outcome arch stringHasher p.2 with
  | error logs => simp [Except.toOption]
  | ok found => simp [Except.toOption]

end MachoProgramInfoLoader

/-! ### Two lists of objects -/

/-- For both formats the relocations of two lists of objects in a row are those of one after the
other, unless the first one has a file of another format and an object of the second one, before
its first such file, has a relocation that is emitted. -/
theorem getLinkTimeRelocations_append_iff (arch : Architecture) (stringHasher : String → UInt64)
    (load : String → Option ElfObject) (fopen : String → MachoObjectFile) (xs ys : List String) :
    (ElfProgramInfoLoader.getLinkTimeRelocations stringHasher load (xs ++ ys)).1 =
        (ElfProgramInfoLoader.getLinkTimeRelocations stringHasher load xs).1 ++
          (ElfProgramInfoLoader.getLinkTimeRelocations stringHasher load ys).1 ∧
      (MachoProgramInfoLoader.getLinkTimeRelocations arch stringHasher fopen (xs ++ ys)).1 =
        (MachoProgramInfoLoader.getLinkTimeRelocations arch stringHasher fopen xs).1 ++
          (MachoProgramInfoLoader.getLinkTimeRelocations arch stringHasher fopen ys).1 ↔
    (∀ x ∈ xs, fopen x ≠ .foreign) ∨
      ∀ y ∈ ys.takeWhile (MachoProgramInfoLoader.goesOn fopen),
        ¬ MachoProgramInfoLoader.Yields arch stringHasher fopen y := by
  simp only [ElfProgramInfoLoader.getLinkTimeRelocations_eq, List.flatMap_append, true_and,
    MachoProgramInfoLoader.getLinkTimeRelocations_eq, Loop.flatMap_takeWhile_append_iff,
    MachoProgramInfoLoader.fileRelocations_eq_nil_iff]
  simp [MachoProgramInfoLoader.goesOn]

/-! ### A fat library among the objects -/

namespace MachoObject

/-- The function `f` refers to the variable `counter`. -/
def counterCommands : List ObjectCommand :=
  [.segment
      [{ sectname := "__text", size := 16,
          relocs := [{ address := 2, symbolnum := 1, type := 1 }] },
        { sectname := "__data", addr := 16, size := 4 }],
    .symtab "\x00_f\x00_counter\x00".toList
      [{ strx := 1, type := 0x0e, sect := 1 }, { strx := 4, type := 0x0e, sect := 2, value := 16 }]]

/-- The object `a.o` next to a library of another format. -/
def fatLibrary (filepath : String) : MachoObjectFile :=
  if filepath = "a.o" then .macho counterCommands else .foreign

/-- The library in front of it suppresses the relocation of the object. -/
theorem fatLibrary_not_append :
    (MachoProgramInfoLoader.getLinkTimeRelocations .x86_64 ElfImage.lengthHasher fatLibrary
      ["a.o"]).1 = [⟨"f", 3, 2, "counter", 3, 4, 1⟩] ∧
    (MachoProgramInfoLoader.getLinkTimeRelocations .x86_64 ElfImage.lengthHasher fatLibrary
      (["fat.a"] ++ ["a.o"])).1 ≠
    (MachoProgramInfoLoader.getLinkTimeRelocations .x86_64 ElfImage.lengthHasher fatLibrary
      ["fat.a"]).1 ++
    (MachoProgramInfoLoader.getLinkTimeRelocations .x86_64 ElfImage.lengthHasher fatLibrary
      ["a.o"]).1 := by
  decide +kernel

end MachoObject

end JetLive

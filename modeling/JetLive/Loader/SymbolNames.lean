import JetLive.Loader.Elf
import JetLive.Loader.MachoFiles

/-!
# The names of undefined and of exported symbols

Before a link the names that an object leaves undefined are looked up twice: among the exported
names of the loaded programs, which `getProgramSymbols` has collected with the symbols, and among
the exported names of the objects, which `getExportedSymbolNames` lists. Each loader decides in
two places whether a symbol is exported, and `exportedSymbolNames_agree` says that they agree.
-/

namespace JetLive

/-! ## ELF -/

namespace ElfProgramInfoLoader

/-- The names of the entries that are selected, in the order of the symbol tables. -/
def symbolNames (selects : ElfEntry → Bool) (sections : List ElfSection) : List String :=
  sections.flatMap fun sec =>
    ((sec.symbols.getD []).filter selects).map fun e => e.name

/-- Read the selected names of a file; the executable has the empty path. -/
def getSymbolNames (selects : ElfEntry → Bool) (load : String → Option (List ElfSection))
    (thisExecutablePath filepath : String) : List String × List LogEntry :=
  let realFilepath := if filepath = "" then thisExecutablePath else filepath
  match load realFilepath with
  | none => ([], [.log .kError ("Cannot load " ++ realFilepath ++ " file")])
  | some sections => (symbolNames selects sections, [])

end ElfProgramInfoLoader

/-- The entry is defined elsewhere; the first entry of a table has no name. -/
def ElfEntry.undefined (e : ElfEntry) : Bool := e.sectionIndex = 0 && e.name ≠ ""

namespace ElfProgramInfoLoader

def getUndefinedSymbolNames (load : String → Option (List ElfSection))
    (thisExecutablePath filepath : String) : List String × List LogEntry :=
  getSymbolNames ElfEntry.undefined load thisExecutablePath filepath

def getExportedSymbolNames (load : String → Option (List ElfSection))
    (thisExecutablePath filepath : String) : List String × List LogEntry :=
  getSymbolNames ElfEntry.exported load thisExecutablePath filepath

end ElfProgramInfoLoader

/-! ## Mach-O -/

def Nlist.undefined (n : Nlist) : Bool := n.ext && n.sect = 0 && n.typeBits = 0x0

/-- The symbol is defined here and seen by other images. -/
def Nlist.exported (n : Nlist) : Bool := n.ext && n.sect ≠ 0

namespace MachoProgramInfoLoader

/-- The names of the symbols that are selected, in the order of the symbol tables. -/
def symbolNames (selects : Nlist → Bool) (commands : List LoadCommand) : List String :=
  commands.flatMap fun
    | .symtab stringTable symbols => (symbols.filter selects).map fun n => n.name stringTable
    | .segment _ | .other => []

/-- Read the selected names of a file. -/
def getSymbolNames (selects : Nlist → Bool) (fopen : String → MachoFile) (filepath : String) :
    List String × List LogEntry :=
  match fopen filepath with
  | .unreadable => ([], [.log .kError ("Cannot open " ++ filepath)])
  | .foreign => ([], [])
  | .macho commands => (symbolNames selects commands, [])

def getUndefinedSymbolNames (fopen : String → MachoFile) (filepath : String) :
    List String × List LogEntry :=
  getSymbolNames Nlist.undefined fopen filepath

def getExportedSymbolNames (fopen : String → MachoFile) (filepath : String) :
    List String × List LogEntry :=
  getSymbolNames Nlist.exported fopen filepath

end MachoProgramInfoLoader

/-! ## The exported names of a program -/

namespace ElfImage

open ElfProgramInfoLoader

/-- The entries are those of the symbol tables, in their order. -/
theorem entriesFrom_map_snd (i : ℕ) (sectionNames : List String) (sections : List ElfSection) :
    (entriesFrom i sectionNames sections).map Prod.snd =
      sections.flatMap fun sec => sec.symbols.getD [] := by
  induction sections generalizing i sectionNames with
  | nil => rfl
  | cons sec sections ih =>
      rw [entriesFrom, List.map_append, ih, List.map_map, List.flatMap_cons]
      congr 1
      exact List.map_id _

theorem exportedSymbolNames_eq (stringHasher : String → UInt64) (image : ElfImage) :
    (image.symbols stringHasher).exportedSymbolNames =
      (symbolNames ElfEntry.exported image.sections).toFinset := by
  have hentries := entriesFrom_map_snd 0 (List.replicate image.sections.length "") image.sections
  have hcollect := Loop.foldl_collect (loadSymbol stringHasher image.baseAddress)
    (fun s => s.res.exportedSymbolNames) (fun entry => entry.2.exported)
    (fun entry => entry.2.name) (fun _ _ => rfl) image.entries {}
  rw [symbols, loadSections_eq_foldl]
  refine hcollect.trans ?_
  rw [Finset.empty_union, symbolNames, ← List.map_flatMap, ← List.filter_flatMap, ← hentries,
    List.filter_map, List.map_map]
  rfl

end ElfImage

namespace MachoImage

open MachoProgramInfoLoader

/-- Only `addExported` changes the exported names. -/
theorem loadSymbol_exportedSymbolNames (stringHasher : String → UInt64) (layout : Layout)
    (baseAddress : Address) (s : Progress) (entry : List Char × Nlist) :
    (loadSymbol stringHasher layout baseAddress s entry).res.exportedSymbolNames =
      if entry.2.exported then
        insert (entry.2.name entry.1) s.res.exportedSymbolNames
      else s.res.exportedSymbolNames := by
  have hexported : (addExported entry.1 entry.2 s).res.exportedSymbolNames =
      if entry.2.exported then insert (entry.2.name entry.1) s.res.exportedSymbolNames
      else s.res.exportedSymbolNames := by
    unfold addExported Nlist.exported
    split <;> rfl
  have hnoted (type : MachoSymbolType) (s : Progress) :
      (noteStab stringHasher baseAddress entry.1 entry.2 type s).res.exportedSymbolNames =
        s.res.exportedSymbolNames := by
    unfold noteStab
    split <;> rfl
  have hreported (type : MachoSymbolType) (s : Progress) :
      (reportSize layout entry.2 type s).res.exportedSymbolNames = s.res.exportedSymbolNames := by
    unfold reportSize
    split <;> rfl
  rw [← hexported]
  unfold loadSymbol
  split
  · rfl
  · exact (hreported _ _).trans (hnoted _ _)

theorem exportedSymbolNames_eq (stringHasher : String → UInt64) (image : MachoImage) :
    (image.symbols stringHasher).exportedSymbolNames =
      (symbolNames Nlist.exported image.commands).toFinset := by
  have hcollect := Loop.foldl_collect
    (loadSymbol stringHasher image.layout image.baseAddress)
    (fun s => s.res.exportedSymbolNames) (fun entry => entry.2.exported)
    (fun entry => entry.2.name entry.1)
    (loadSymbol_exportedSymbolNames stringHasher image.layout image.baseAddress) image.entries {}
  rw [symbols, load_eq_foldl]
  refine hcollect.trans ?_
  rw [Finset.empty_union, symbolNames, entries, List.filter_flatMap, List.map_flatMap]
  congr 2
  funext command
  cases command with
  | symtab stringTable symbols =>
      rw [LoadCommand.entries, List.filter_map, List.map_map]
      rfl
  | segment sections => rfl
  | other => rfl

end MachoImage

/-- What `getProgramSymbols` collects for the program of a file are the names that
`getExportedSymbolNames` lists for the file. On macOS only the former takes the empty path for the
executable, and it collects nothing if the file is not among the loaded images. -/
theorem exportedSymbolNames_agree (stringHasher : String → UInt64)
    (thisExecutablePath filepath : String) :
    (∀ (getBaseAddress : String → Address) (load : String → Option (List ElfSection)),
      (ElfProgramInfoLoader.getProgramSymbols stringHasher getBaseAddress load thisExecutablePath
          filepath).1.exportedSymbolNames =
        (ElfProgramInfoLoader.getExportedSymbolNames load thisExecutablePath
          filepath).1.toFinset) ∧
    ∀ (fs : FileSystem) (images : List (String × Address)) (fopen : String → MachoFile),
      let realFilepath := if filepath = "" then thisExecutablePath else filepath
      (MachoProgramInfoLoader.getProgramSymbols stringHasher fs images fopen thisExecutablePath
          filepath).1.exportedSymbolNames =
        if (MachoProgramInfoLoader.findSlide fs realFilepath images).1 = none then ∅
        else (MachoProgramInfoLoader.getExportedSymbolNames fopen realFilepath).1.toFinset := by
  constructor
  · intro getBaseAddress load
    unfold ElfProgramInfoLoader.getProgramSymbols ElfProgramInfoLoader.getExportedSymbolNames
      ElfProgramInfoLoader.getSymbolNames
    dsimp only
    cases load (if filepath = "" then thisExecutablePath else filepath) with
    | none => rfl
    | some sections => exact ElfImage.exportedSymbolNames_eq stringHasher _
  · intro fs images fopen
    unfold MachoProgramInfoLoader.getProgramSymbols MachoProgramInfoLoader.getExportedSymbolNames
      MachoProgramInfoLoader.getSymbolNames
    dsimp only
    generalize (if filepath = "" then thisExecutablePath else filepath) = realFilepath
    cases (MachoProgramInfoLoader.findSlide fs realFilepath images).1 with
    | none => rfl
    | some baseAddress =>
        rw [if_neg (Option.some_ne_none baseAddress)]
        cases fopen realFilepath with
        | unreadable => rfl
        | foreign => rfl
        | macho commands => exact MachoImage.exportedSymbolNames_eq stringHasher _

end JetLive

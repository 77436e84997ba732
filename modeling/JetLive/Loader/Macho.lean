import JetLive.Library.Loop
import JetLive.Loader.SymbolsFilter
import JetLive.TeenyPath.Basic
import Mathlib.Data.Finset.Max
import Mathlib.Data.List.Find
import Mathlib.Data.List.Infix

/-!
# The symbols of a Mach-O file

The loader goes through the load commands three times: it collects the names of the sections
and where they end, then the addresses of the symbols in each section, and at last the
symbols themselves. The files that symbols come from are known from the debugging entries,
the stabs: an `N_OSO` stab names an object file, and the stabs after it belong to it. Of these
only the `N_STSYM` stabs are noted, under their address, so a symbol carries the hash of a file
only if there is an `N_STSYM` stab with its address.
-/

namespace JetLive

open TeenyPath

/-- A section of a segment, `section_64`. -/
structure MachoSection where
  sectname : String
  addr : Address := 0
  size : Address := 0
  deriving DecidableEq, Repr

/-- An entry of a symbol table, `nlist_64`. -/
structure Nlist where
  strx : ℕ := 0
  type : UInt8
  sect : UInt8 := 0
  desc : UInt16 := 0
  value : Address := 0
  deriving DecidableEq, Repr

inductive LoadCommand
  | segment (sections : List MachoSection)
  | symtab (stringTable : List Char) (symbols : List Nlist)
  | other
  deriving DecidableEq, Repr

/-- An image with the slide of its addresses. -/
structure MachoImage where
  baseAddress : Address := 0
  commands : List LoadCommand
  deriving DecidableEq, Repr

/-- The string that begins at an offset of the string table. -/
def cString (stringTable : List Char) (offset : ℕ) : String :=
  String.ofList ((stringTable.drop offset).takeWhile (· ≠ '\x00'))

namespace Nlist

/-- `N_TYPE_GET_STAB`. -/
def stab (n : Nlist) : UInt8 := n.type &&& 0xe0

/-- `N_TYPE_GET_PEXT`. -/
def pext (n : Nlist) : Bool := n.type &&& 0x10 ≠ 0

/-- `N_TYPE_GET_TYPE`. -/
def typeBits (n : Nlist) : UInt8 := n.type &&& 0x0e

/-- `N_TYPE_GET_EXT`. -/
def ext (n : Nlist) : Bool := n.type &&& 0x01 ≠ 0

/-- `N_DESC_GET_WEAK_DEF`. -/
def weakDef (n : Nlist) : Bool := n.desc &&& 0x0080 ≠ 0

def stabTypes : List (UInt8 × MachoSymbolType) :=
  [(0x20, .kGSYM), (0x22, .kFNAME), (0x24, .kFUN), (0x26, .kSTSYM), (0x28, .kLCSYM),
    (0x2e, .kBNSYM), (0x32, .kAST), (0x3c, .kOPT), (0x40, .kRSYM), (0x44, .kSLINE),
    (0x4e, .kENSYM), (0x60, .kSSYM), (0x64, .kSO), (0x66, .kOSO), (0x80, .kLSYM),
    (0x82, .kBINCL), (0x84, .kSOL), (0x86, .kPARAMS), (0x88, .kVERSION), (0x8a, .kOLEVEL),
    (0xa0, .kPSYM), (0xa2, .kEINCL), (0xa4, .kENTRY), (0xc0, .kLBRAC), (0xc2, .kEXCL),
    (0xe0, .kRBRAC), (0xe2, .kBCOMM), (0xe4, .kECOMM), (0xe8, .kECOML), (0xfe, .kLENG),
    (0x30, .kPC)]

/-- The codes of the other symbols: `N_UNDF`, `N_ABS`, `N_SECT`, `N_PBUD` and `N_INDR`. -/
def symbolTypes : List (UInt8 × MachoSymbolType) :=
  [(0x0, .kUndefined), (0x2, .kAbsolute), (0xe, .kSection), (0xc, .kPreboundUndefined),
    (0xa, .kIndirect)]

/-- The kind of the symbol; symbols of other kinds are skipped. -/
def symbolType (n : Nlist) : Option MachoSymbolType :=
  if n.stab ≠ 0 then stabTypes.lookup n.type else symbolTypes.lookup n.typeBits

/-- The name without its first character, which is an underscore in names of symbols. -/
def name (stringTable : List Char) (n : Nlist) : String := cString stringTable (n.strx + 1)

end Nlist

namespace MachoProgramInfoLoader

/-! ## Sections and bounds -/

/-- The sections, which are numbered from `1` on, and the addresses in each of them at which
a symbol can end. -/
structure Layout where
  sectionIndex : ℕ := 0
  sectionNames : List String := []
  symbolsBounds : List (Finset ℕ) := []

namespace Layout

def addSection (l : Layout) (sec : MachoSection) : Layout :=
  let sectionIndex := l.sectionIndex + 1
  { sectionIndex
    sectionNames := (l.sectionNames.rightpad (sectionIndex + 1) "").set sectionIndex sec.sectname
    symbolsBounds := (l.symbolsBounds.rightpad (sectionIndex + 1) ∅).modify sectionIndex
      (insert (sec.addr + sec.size).toNat) }

/-- The first pass. -/
def addSections (l : Layout) : LoadCommand → Layout
  | .segment sections => sections.foldl addSection l
  | .symtab .. | .other => l

def addBound (l : Layout) (n : Nlist) : Layout :=
  if n.typeBits = 0xe then
    { l with symbolsBounds := l.symbolsBounds.modify n.sect.toNat (insert n.value.toNat) }
  else l

/-- The second pass. -/
def addBounds (l : Layout) : LoadCommand → Layout
  | .symtab _ symbols => symbols.foldl addBound l
  | .segment _ | .other => l

def nextBound (l : Layout) (sectionIndex : ℕ) (address : ℕ) : Option ℕ :=
  let above := (l.symbolsBounds.getD sectionIndex ∅).filter (address < ·)
  if h : above.Nonempty then some (above.min' h) else none

end Layout

/-! ## Symbols -/

/-- What the third pass has read so far. Absent keys of the maps have the values `0` and
`kUndefined`. -/
structure Progress where
  res : Symbols := {}
  currentHash : UInt64 := 0
  addressHashMap : Address → UInt64 := fun _ => 0
  hashAddressStabType : UInt64 → Address → MachoSymbolType := fun _ _ => .kUndefined
  logs : List LogEntry := []

/-- The first variable with the name, the address and no hash gets its hash now. -/
def patchVariable (name : String) (runtimeAddress : Address) (hash : UInt64) :
    List Symbol → List Symbol
  | [] => []
  | sym :: vars =>
      if sym.name = name ∧ sym.hash = 0 ∧ sym.runtimeAddress = runtimeAddress then
        { sym with hash, checkHash := true } :: vars
      else sym :: patchVariable name runtimeAddress hash vars

section

variable (stringHasher : String → UInt64) (layout : Layout) (baseAddress : Address)

def addExported (stringTable : List Char) (n : Nlist) (s : Progress) : Progress :=
  if n.ext && n.sect ≠ 0 then
    { s with res := { s.res with
        exportedSymbolNames := insert (n.name stringTable) s.res.exportedSymbolNames } }
  else s

/-- An `N_OSO` stab begins an object file, an `N_STSYM` stab tells where a static variable of
the current one is. -/
def noteStab (stringTable : List Char) (n : Nlist) (type : MachoSymbolType) (s : Progress) :
    Progress :=
  match type with
  | .kOSO => { s with currentHash := stringHasher (cString stringTable n.strx) }
  | .kSTSYM =>
      { s with
        addressHashMap := Function.update s.addressHashMap n.value s.currentHash
        hashAddressStabType := Function.update s.hashAddressStabType s.currentHash
          (Function.update (s.hashAddressStabType s.currentHash) n.value .kSTSYM)
        res := { s.res with
          vars := patchVariable (n.name stringTable) (baseAddress + n.value) s.currentHash
            s.res.vars } }
  | _ => s

/-- The size of a symbol of a section: it ends where the next one begins. -/
def symbolSize (n : Nlist) (type : MachoSymbolType) : Option ℕ :=
  if type = .kSection then
    (layout.nextBound n.sect.toNat n.value.toNat).map (· - n.value.toNat)
  else some 0

/-- A symbol of a section without a bound above it is reported. -/
def reportSize (n : Nlist) (type : MachoSymbolType) (s : Progress) : Progress :=
  if symbolSize layout n type = none then
    { s with logs := s.logs ++ [.log .kDebug "wtf?"] }
  else s

/-- The symbol as the filter sees it. -/
def machoSymbol (stringTable : List Char) (n : Nlist) (type : MachoSymbolType) (hash : UInt64) :
    MachoSymbol where
  name := if type = .kOSO then cString stringTable n.strx else n.name stringTable
  hash := hash
  type := type
  weakDef := n.weakDef
  sectionIndex := n.sect.toNat
  privateExternal := n.pext
  size := (symbolSize layout n type).getD 0
  virtualAddress := n.value

/-- Enter the symbol among the functions and the variables, if it passes the filters. -/
def addSymbol (symbol : MachoSymbol) (s : Progress) : Progress :=
  let context : MachoContext := ⟨layout.sectionNames⟩
  let sym : Symbol :=
    { name := symbol.name
      size := symbol.size
      runtimeAddress := baseAddress + symbol.virtualAddress
      hash := symbol.hash
      checkHash := s.hashAddressStabType symbol.hash symbol.virtualAddress = .kSTSYM }
  { s with res := { s.res with
      functions := s.res.functions ++
        if DefaultSymbolsFilter.shouldReloadMachoSymbol context symbol then [sym] else []
      vars := s.res.vars ++
        if DefaultSymbolsFilter.shouldTransferMachoSymbol context symbol then [sym] else [] } }

def loadSymbol (s : Progress) (entry : List Char × Nlist) : Progress :=
  let s := addExported entry.1 entry.2 s
  match entry.2.symbolType with
  | none => s
  | some type =>
      let s := noteStab stringHasher baseAddress entry.1 entry.2 type s
      let s := reportSize layout entry.2 type s
      addSymbol layout baseAddress
        (machoSymbol layout entry.1 entry.2 type (s.addressHashMap entry.2.value)) s

/-- The third pass. -/
def loadSymbols (s : Progress) : LoadCommand → Progress
  | .symtab stringTable symbols => symbols.foldl
      (fun s n => loadSymbol stringHasher layout baseAddress s (stringTable, n)) s
  | .segment _ | .other => s

end

end MachoProgramInfoLoader

namespace MachoImage

open MachoProgramInfoLoader

/-- The sections and bounds after the first two passes. -/
def layout (image : MachoImage) : Layout :=
  image.commands.foldl Layout.addBounds (image.commands.foldl Layout.addSections {})

def load (stringHasher : String → UInt64) (image : MachoImage) : Progress :=
  image.commands.foldl (loadSymbols stringHasher image.layout image.baseAddress) {}

def symbols (stringHasher : String → UInt64) (image : MachoImage) : Symbols :=
  (image.load stringHasher).res

end MachoImage

/-- What is found at the path of an image. -/
inductive MachoFile
  | unreadable
  | foreign
  | macho (commands : List LoadCommand)

namespace MachoProgramInfoLoader

def isSystemImage (imagePath : Path) : Bool :=
  decide ("/usr/lib".toList <:+: imagePath) || decide ("/System/Library".toList <:+: imagePath) ||
    decide ("/opt/homebrew".toList <:+: imagePath)

/-- The slide of the image with the given path; images without a file are reported. -/
def findSlide (fs : FileSystem) (realFilepath : String) :
    List (String × Address) → Option Address × List LogEntry
  | [] => (none, [])
  | (imagePath, slide) :: images =>
      if isSystemImage imagePath.toList then findSlide fs realFilepath images
      else if pathExists fs imagePath.toList then
        if resolveAbsolute fs imagePath.toList = realFilepath.toList then (some slide, [])
        else findSlide fs realFilepath images
      else
        let rest := findSlide fs realFilepath images
        (rest.1, .log .kWarning ("Image doesn't exist: " ++ imagePath) :: rest.2)

/-- Read the symbols of a program; the executable has the empty path. -/
def getProgramSymbols (stringHasher : String → UInt64) (fs : FileSystem)
    (images : List (String × Address)) (fopen : String → MachoFile)
    (thisExecutablePath filepath : String) : Symbols × List LogEntry :=
  let realFilepath := if filepath = "" then thisExecutablePath else filepath
  let (slide, logs) := findSlide fs realFilepath images
  match slide with
  | none => ({}, logs ++ [.log .kError ("Cannot find address slide of image " ++ realFilepath)])
  | some baseAddress =>
      match fopen realFilepath with
      | .unreadable => ({}, logs ++ [.log .kError ("Cannot open " ++ filepath)])
      | .foreign => ({}, logs)
      | .macho commands =>
          let loaded := MachoImage.load stringHasher ⟨baseAddress, commands⟩
          (loaded.res, logs ++ loaded.logs)

end MachoProgramInfoLoader

end JetLive

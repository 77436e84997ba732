import JetLive.Utility

/-!
# The symbols filter

The symbols of ELF and Mach-O files as the loaders decode them, and the filter that tells
which of them are functions to hook and which are variables to transfer. Fields of a symbol
that are set and never read are left out.
-/

namespace JetLive

/-! ## Symbols of ELF files -/

inductive ElfSymbolType
  | kNo
  | kObject
  | kFunction
  | kSection
  | kFile
  | kCommonObject
  | kThreadLocalObject
  | kIndirect
  deriving DecidableEq, Repr

inductive ElfSymbolBinding
  | kLocal
  | kGlobal
  | kWeak
  | kUnique
  deriving DecidableEq, Repr

inductive ElfSymbolVisibility
  | kDefault
  | kInternal
  | kHidden
  | kProtected
  deriving DecidableEq, Repr

structure ElfSymbol where
  name : String
  hash : UInt64 := 0
  type : ElfSymbolType
  binding : ElfSymbolBinding
  visibility : ElfSymbolVisibility := .kDefault
  sectionIndex : ℕ := 0
  size : ℕ := 0
  virtualAddress : Address := 0
  deriving DecidableEq, Repr

structure ElfContext where
  sectionNames : List String
  deriving DecidableEq, Repr

/-! ## Symbols of Mach-O files -/

/-- The kinds of symbols; those after `kIndirect` are the symbolic debugging entries. -/
inductive MachoSymbolType
  | kUndefined
  | kAbsolute
  | kSection
  | kPreboundUndefined
  | kIndirect
  | kGSYM
  | kFNAME
  | kFUN
  | kSTSYM
  | kLCSYM
  | kBNSYM
  | kAST
  | kOPT
  | kRSYM
  | kSLINE
  | kENSYM
  | kSSYM
  | kSO
  | kOSO
  | kLSYM
  | kBINCL
  | kSOL
  | kPARAMS
  | kVERSION
  | kOLEVEL
  | kPSYM
  | kEINCL
  | kENTRY
  | kLBRAC
  | kEXCL
  | kRBRAC
  | kBCOMM
  | kECOMM
  | kECOML
  | kLENG
  | kPC
  deriving DecidableEq, Repr

structure MachoSymbol where
  name : String
  hash : UInt64 := 0
  type : MachoSymbolType
  weakDef : Bool := false
  sectionIndex : ℕ := 0
  privateExternal : Bool := false
  size : ℕ := 0
  virtualAddress : Address := 0
  deriving DecidableEq, Repr

structure MachoContext where
  sectionNames : List String
  deriving DecidableEq, Repr

/-! ## The default filter -/

namespace DefaultSymbolsFilter

def fallbackSectionName : String := "?"

def getStringOr (vec : List String) (index : ℕ) (fallback : String) : String :=
  vec.getD index fallback

def shouldReloadMachoSymbol (context : MachoContext) (symbol : MachoSymbol) : Bool :=
  let sectionName := getStringOr context.sectionNames symbol.sectionIndex fallbackSectionName
  symbol.type = .kSection && !symbol.weakDef && sectionName = "__text"

def shouldReloadElfSymbol (context : ElfContext) (symbol : ElfSymbol) : Bool :=
  let sectionName := getStringOr context.sectionNames symbol.sectionIndex fallbackSectionName
  symbol.type = .kFunction && symbol.size ≠ 0 && sectionName = ".text"

def shouldTransferMachoSymbol (context : MachoContext) (symbol : MachoSymbol) : Bool :=
  let sectionName := getStringOr context.sectionNames symbol.sectionIndex fallbackSectionName
  symbol.type = .kSection && !symbol.privateExternal && !symbol.weakDef &&
    (sectionName = "__bss" || sectionName = "__data" || sectionName = "__common")

def shouldTransferElfSymbol (context : ElfContext) (symbol : ElfSymbol) : Bool :=
  let sectionName := getStringOr context.sectionNames symbol.sectionIndex fallbackSectionName
  symbol.type = .kObject && symbol.binding = .kLocal && symbol.visibility = .kDefault &&
    (sectionName = ".bss" || sectionName = ".data")

/-- Only local variables are transferred. -/
theorem binding_of_shouldTransferElfSymbol {context : ElfContext} {symbol : ElfSymbol}
    (h : shouldTransferElfSymbol context symbol = true) : symbol.binding = .kLocal := by
  simp only [shouldTransferElfSymbol, Bool.and_eq_true, decide_eq_true_eq] at h
  exact h.1.1.2

end DefaultSymbolsFilter

end JetLive

import JetLive.Library.Unordered
import Mathlib.Data.BitVec
import Mathlib.Data.String.Basic

/-!
# Data types

The records shared by the parts of the library. Addresses are 64-bit words.
`Symbols` keeps the symbols of all names in one list, in the order in which a
loop over the source's map of vectors meets them; the vector stored under one
name is the sublist of the symbols with this name. Fields that only other parts
of the library read are left out.
-/

namespace JetLive

open Containers

/-- An address of the process, `uintptr_t`. -/
abbrev Address := BitVec 64

inductive LogSeverity
  | kDebug
  | kInfo
  | kWarning
  | kError
  deriving DecidableEq, Repr

structure LogEntry where
  log ::
  severity : LogSeverity
  message : String
  deriving DecidableEq, Repr

inductive LinkerType
  | kUnknown
  | kLLVM_lld
  | kLLVM_lld6
  | kGNU_ld
  | kApple_ld
  deriving DecidableEq, Repr

/-- A region of virtual memory, used to find a free place for a library. -/
structure MemoryRegion where
  name : String := ""
  regionBegin : ℕ := 0
  regionEnd : ℕ := 0
  isInUse : Bool := false
  deriving DecidableEq, Repr

structure CompilationUnit where
  compilerPath : String := ""
  compilationCommandStr : String := ""
  compilationDirStr : String := ""
  sourceFilePath : String := ""
  objFilePath : String := ""
  depFilePath : String := ""
  hasColorDiagnosticsFlag : Bool := false
  deriving DecidableEq, Repr

/-- A symbol of a loaded program. `hash` connects a local symbol to the file it
belongs to and is `0` for non-locals; it only counts in comparisons if
`checkHash` is set. -/
structure Symbol where
  name : String
  size : ℕ := 0
  runtimeAddress : Address := 0
  hash : UInt64 := 0
  checkHash : Bool := false
  deriving DecidableEq, Repr

/-- The symbols of a program: hookable `functions`, transferrable `variables`
(`vars` here) and the names it exports. -/
structure Symbols where
  functions : List Symbol := []
  vars : List Symbol := []
  exportedSymbolNames : Finset String := ∅
  deriving DecidableEq

structure Program where
  path : String := ""
  objFilePaths : List String := []
  symbols : Symbols := {}
  deriving DecidableEq

/-- A relocation entry: a field of the code of the target symbol that refers to
the relocation symbol. -/
structure Relocation where
  targetSymbolName : String
  targetSymbolHash : UInt64 := 0
  relocationOffsetRelativeTargetSymbolAddress : Address := 0
  relocationSymbolName : String
  relocationSymbolHash : UInt64 := 0
  size : ℕ := 0
  type : ℕ := 0
  deriving DecidableEq, Repr

/-- The name and the hash of a symbol or of a reference to one. -/
abbrev Key := String × UInt64

namespace Symbol

def key (s : Symbol) : Key := (s.name, s.hash)

/-- The comparison of a symbol with a name and a hash: the hash only counts if
the symbol asks for it. -/
def answers (s : Symbol) (name : String) (hash : UInt64) : Bool :=
  s.name = name && (!s.checkHash || s.hash = hash)

theorem answers_iff (s : Symbol) (name : String) (hash : UInt64) :
    s.answers name hash ↔ s.name = name ∧ (s.checkHash → s.hash = hash) := by
  cases h : s.checkHash <;> simp [answers, h]

end Symbol

/-- The part of the context that changes while the library is running; the
configuration and the linker type are fixed when it is created. -/
structure LiveContext where
  programs : List Program := []
  dirsToMonitor : Finset String := ∅
  dirFilters : Finset String := ∅
  compilationUnits : UnorderedMap String CompilationUnit := ∅
  dependencies : UnorderedMap String (Finset String) := ∅
  inverseDependencies : UnorderedMap String (Finset String) := ∅
  exportedSymbolNamesInSourceFiles : UnorderedMap String String := ∅

/-- The fixed part of the context: `LiveConfig`, the linker found at start-up and what
the build has fixed, the generator and the build directory. -/
structure LiveConfig where
  workerThreadsCount : ℕ := 4
  linkerType : LinkerType := .kGNU_ld
  cmakeGenerator : String := "Unix Makefiles"
  cmakeBuildDirectory : String := ""
  deriving DecidableEq, Repr

end JetLive

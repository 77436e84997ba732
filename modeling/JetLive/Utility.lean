import JetLive.DataTypes

/-!
# Utility functions

The link command, the base address of a new library and the lookup of symbols
by name and hash.
-/

namespace JetLive

/-- The digits of a number in base 16, most significant first. -/
def toHex (n : ℕ) : String := String.ofList (Nat.toDigits 16 n)

/-- The object files as they stand on the link command: quoted, each followed by
a blank. -/
def quoteObjectFilePaths (objectFilePaths : List String) : String :=
  objectFilePaths.foldl (fun res oFile => res ++ ("\"" ++ oFile ++ "\" ")) ""

/-- The linker options that place the library at a base address and name it;
`none` for an unknown linker. -/
def linkerOptions (libName : String) (baseAddress : ℕ) : LinkerType → Option String
  | .kGNU_ld => some (" -Wl,-Ttext-segment,0x" ++ toHex baseAddress
      ++ " -Wl,-z,max-page-size=0x1000" ++ " -Wl,-export-dynamic" ++ " -Wl,-soname," ++ libName)
  | .kLLVM_lld6 | .kLLVM_lld => some (" -Wl,--image-base,0x" ++ toHex baseAddress
      ++ " -Wl,-export-dynamic" ++ " -Wl,-soname," ++ libName)
  | .kApple_ld => some (" -Wl,-image_base,0x" ++ toHex baseAddress ++ " -Wl,-export_dynamic"
      ++ " -Wl,-install_name," ++ libName ++ " -Wl,-flat_namespace"
      ++ " -Wl,-undefined,dynamic_lookup")
  | .kUnknown => none

def createLinkCommand (libName compilerPath : String) (baseAddress : ℕ)
    (linkerType : LinkerType) (objectFilePaths : List String) : String :=
  match linkerOptions libName baseAddress linkerType with
  | none => "INVALID_LINKER_TYPE"
  | some options => compilerPath ++ " -fPIC -shared -g" ++ options ++ " -o " ++ libName ++ " "
      ++ quoteObjectFilePaths objectFilePaths

/-- For a known linker the command ends with the output and exactly the given
object files. -/
theorem createLinkCommand_eq (libName compilerPath : String) (baseAddress : ℕ)
    {linkerType : LinkerType} (objectFilePaths : List String)
    (h : linkerType ≠ .kUnknown) :
    ∃ options, createLinkCommand libName compilerPath baseAddress linkerType objectFilePaths =
      compilerPath ++ " -fPIC -shared -g" ++ options ++ " -o " ++ libName ++ " "
        ++ quoteObjectFilePaths objectFilePaths := by
  cases linkerType with
  | kUnknown => exact absurd rfl h
  | kLLVM_lld => exact ⟨_, rfl⟩
  | kLLVM_lld6 => exact ⟨_, rfl⟩
  | kGNU_ld => exact ⟨_, rfl⟩
  | kApple_ld => exact ⟨_, rfl⟩

/-- The first free region that is larger than the object files together, or `0`.
`tellg` is the position at the end of a file, `-1` if it cannot be read; it is
added up as an unsigned 64-bit number, and so are the addresses subtracted. -/
def findPrefferedBaseAddressForLibrary (tellg : String → ℤ) (regions : List MemoryRegion)
    (objectFilePaths : List String) : ℕ :=
  let libSize := objectFilePaths.foldl (fun n el => (n + (tellg el % 2 ^ 64).toNat) % 2 ^ 64) 0
  match regions.find? fun el =>
      !el.isInUse && decide (libSize < (el.regionEnd + 2 ^ 64 - el.regionBegin) % 2 ^ 64) with
  | some el => el.regionBegin
  | none => 0

def findFunction (symbols : Symbols) (name : String) (hash : UInt64) : Option Symbol :=
  symbols.functions.find? fun sym => sym.answers name hash

def findVariable (symbols : Symbols) (name : String) (hash : UInt64) : Option Symbol :=
  symbols.vars.find? fun sym => sym.answers name hash

end JetLive

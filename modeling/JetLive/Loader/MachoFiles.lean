import JetLive.Loader.Macho

/-!
# The object files of Mach-O functions

A function comes from the object file under whose `N_OSO` stab its `N_FUN` stab stands. The
loader does not read `N_FUN` stabs. A function that has no `N_STSYM` stab, as is usual for
functions, carries no hash and answers to every hash, so a lookup finds the first function of
a name, from whichever file it comes.
-/

namespace JetLive

open MachoProgramInfoLoader

/-- The stabs read so far: the current object file, and under each address the object file of
the last `N_STSYM` stab. -/
structure Stabs where
  file : Option String := none
  stsym : Address → Option (Option String) := fun _ => none

def Stabs.next (s : Stabs) (entry : List Char × Nlist) : Stabs :=
  match entry.2.symbolType with
  | some .kOSO => { s with file := some (cString entry.1 entry.2.strx) }
  | some .kSTSYM => { s with stsym := Function.update s.stsym entry.2.value (some s.file) }
  | _ => s

/-- A function of a symbol table, with the object file of the last `N_STSYM` stab of its
address that stands before it. -/
structure MachoPlace where
  name : String
  entry : Nlist
  size : ℕ := 0
  stsym : Option (Option String) := none
  deriving DecidableEq, Repr

namespace MachoPlace

def IsInternal (p : MachoPlace) : Prop := p.entry.ext = false ∧ p.entry.pext = false

instance (p : MachoPlace) : Decidable p.IsInternal := inferInstanceAs (Decidable (_ ∧ _))

variable (stringHasher : String → UInt64)

/-- The hash of an object file, or of none. -/
def fileHash (file : Option String) : UInt64 := file.elim 0 stringHasher

def hash (p : MachoPlace) : UInt64 := p.stsym.elim 0 (fileHash stringHasher)

def symbol (baseAddress : Address) (p : MachoPlace) : Symbol where
  name := p.name
  size := p.size
  runtimeAddress := baseAddress + p.entry.value
  hash := p.hash stringHasher
  checkHash := p.stsym.isSome

/-- The place has the name, and no `N_STSYM` stab or one of a file with the hash. -/
def Answers (name : String) (hash : UInt64) (p : MachoPlace) : Prop :=
  p.name = name ∧ ∀ file ∈ p.stsym, fileHash stringHasher file = hash

instance (name : String) (hash : UInt64) (p : MachoPlace) :
    Decidable (p.Answers stringHasher name hash) := inferInstanceAs (Decidable (_ ∧ _))

theorem answers_symbol_iff (baseAddress : Address) (name : String) (hash : UInt64)
    (p : MachoPlace) :
    (p.symbol stringHasher baseAddress).answers name hash = true ↔
      p.Answers stringHasher name hash := by
  rw [Symbol.answers_iff]
  refine and_congr Iff.rfl ?_
  cases hstsym : p.stsym with
  | none => simp [symbol, hstsym]
  | some file => simp [symbol, MachoPlace.hash, hstsym]

end MachoPlace

def LoadCommand.entries : LoadCommand → List (List Char × Nlist)
  | .symtab stringTable symbols => symbols.map fun n => (stringTable, n)
  | .segment _ | .other => []

namespace MachoImage

def entries (image : MachoImage) : List (List Char × Nlist) :=
  image.commands.flatMap LoadCommand.entries

variable (stringHasher : String → UInt64)

/-- The place of an entry that is a function. -/
def placed (layout : Layout) (s : Stabs) (entry : List Char × Nlist) : Option MachoPlace :=
  match entry.2.symbolType with
  | none => none
  | some type =>
      let stsym := (s.next entry).stsym entry.2.value
      let symbol := machoSymbol layout entry.1 entry.2 type
        (stsym.elim 0 (MachoPlace.fileHash stringHasher))
      if DefaultSymbolsFilter.shouldReloadMachoSymbol ⟨layout.sectionNames⟩ symbol then
        some ⟨symbol.name, entry.2, symbol.size, stsym⟩
      else none

def functionPlaces (image : MachoImage) : List MachoPlace :=
  Loop.outputs Stabs.next (placed stringHasher image.layout) {} image.entries

/-- What the maps of the loader say about the stabs. -/
structure Tracks (s : Progress) (t : Stabs) : Prop where
  currentHash : s.currentHash = MachoPlace.fileHash stringHasher t.file
  addressHashMap : ∀ a, s.addressHashMap a = (t.stsym a).elim 0 (MachoPlace.fileHash stringHasher)
  stsym : ∀ a file, t.stsym a = some file →
    s.hashAddressStabType (MachoPlace.fileHash stringHasher file) a = .kSTSYM
  absent : ∀ a h, t.stsym a = none → s.hashAddressStabType h a ≠ .kSTSYM

variable {stringHasher}

theorem load_eq_foldl (image : MachoImage) :
    image.load stringHasher =
      image.entries.foldl (loadSymbol stringHasher image.layout image.baseAddress) {} := by
  unfold load entries
  rw [List.foldl_flatMap]
  congr 1
  funext s command
  cases command with
  | symtab stringTable symbols => rw [loadSymbols, LoadCommand.entries, List.foldl_map]
  | segment sections => rfl
  | other => rfl

namespace Tracks

variable {s s' : Progress} {t : Stabs}

/-- Only the maps and the running hash matter. -/
theorem of_same (h : Tracks stringHasher s t) (hcurrent : s'.currentHash = s.currentHash)
    (haddress : s'.addressHashMap = s.addressHashMap)
    (hstab : s'.hashAddressStabType = s.hashAddressStabType) : Tracks stringHasher s' t where
  currentHash := hcurrent.trans h.currentHash
  addressHashMap a := (congrFun haddress a).trans (h.addressHashMap a)
  stsym a file ha := by
    rw [hstab]
    exact h.stsym a file ha
  absent a hash ha := by
    rw [hstab]
    exact h.absent a hash ha

theorem noteStab {entry : List Char × Nlist} {type : MachoSymbolType}
    (h : Tracks stringHasher s t) (htype : entry.2.symbolType = some type)
    (baseAddress : Address) :
    Tracks stringHasher
      (MachoProgramInfoLoader.noteStab stringHasher baseAddress entry.1 entry.2 type s)
      (t.next entry) := by
  by_cases hoso : type = .kOSO
  · subst hoso
    rw [Stabs.next, htype]
    exact ⟨rfl, h.addressHashMap, h.stsym, h.absent⟩
  by_cases hstsym : type = .kSTSYM
  · subst hstsym
    rw [Stabs.next, htype]
    refine ⟨h.currentHash, ?_, ?_, ?_⟩
    · intro a
      by_cases ha : a = entry.2.value
      · subst ha
        simp [MachoProgramInfoLoader.noteStab, h.currentHash]
      · simp [MachoProgramInfoLoader.noteStab, ha, h.addressHashMap]
    · intro a file hfile
      by_cases ha : a = entry.2.value
      · subst ha
        obtain rfl : t.file = file := by simpa using hfile
        simp [MachoProgramInfoLoader.noteStab, h.currentHash]
      · have hold := h.stsym a file (by simpa [ha] using hfile)
        by_cases hhash : MachoPlace.fileHash stringHasher file = s.currentHash
        · rw [hhash] at hold
          simp [MachoProgramInfoLoader.noteStab, hhash, ha, hold]
        · simp [MachoProgramInfoLoader.noteStab, hhash, hold]
    · intro a hash hnone
      by_cases ha : a = entry.2.value
      · simp [ha] at hnone
      · have hold := h.absent a hash (by simpa [ha] using hnone)
        by_cases hhash : hash = s.currentHash
        · subst hhash
          simp [MachoProgramInfoLoader.noteStab, ha, hold]
        · simp [MachoProgramInfoLoader.noteStab, hhash, hold]
  -- other stabs change nothing
  · have hnote : MachoProgramInfoLoader.noteStab stringHasher baseAddress entry.1 entry.2 type s =
        s := by
      cases type <;> simp_all [MachoProgramInfoLoader.noteStab]
    have hnext : t.next entry = t := by
      rw [Stabs.next, htype]
      cases type <;> simp_all
    rw [hnote, hnext]
    exact h

/-- The flag of a symbol tells whether there is an `N_STSYM` stab. -/
theorem hashAddressStabType_iff (h : Tracks stringHasher s t) (a : Address) :
    s.hashAddressStabType (s.addressHashMap a) a = .kSTSYM ↔ (t.stsym a).isSome := by
  rw [h.addressHashMap]
  cases ha : t.stsym a with
  | none => simpa using h.absent a 0 ha
  | some file => simpa using h.stsym a file ha

end Tracks

section

variable {s : Progress} {t : Stabs}

theorem Tracks.addExported (h : Tracks stringHasher s t) (stringTable : List Char) (n : Nlist) :
    Tracks stringHasher (addExported stringTable n s) t := by
  unfold MachoProgramInfoLoader.addExported
  split
  · exact h.of_same rfl rfl rfl
  · exact h

theorem Tracks.reportSize (h : Tracks stringHasher s t) (layout : Layout) (n : Nlist)
    (type : MachoSymbolType) : Tracks stringHasher (reportSize layout n type s) t := by
  unfold MachoProgramInfoLoader.reportSize
  split
  · exact h.of_same rfl rfl rfl
  · exact h

theorem addExported_functions (stringTable : List Char) (n : Nlist) (s : Progress) :
    (addExported stringTable n s).res.functions = s.res.functions := by
  unfold addExported
  split <;> rfl

/-- What comes before `addSymbol` adds no functions. -/
theorem functions_beforeAddSymbol (stringHasher : String → UInt64) (layout : Layout)
    (baseAddress : Address) (stringTable : List Char) (n : Nlist) (type : MachoSymbolType)
    (s : Progress) :
    (reportSize layout n type (noteStab stringHasher baseAddress stringTable n type
      (addExported stringTable n s))).res.functions = s.res.functions := by
  have hnoted (s : Progress) :
      (noteStab stringHasher baseAddress stringTable n type s).res.functions =
        s.res.functions := by
    unfold noteStab
    split <;> rfl
  unfold reportSize
  split
  · exact (hnoted _).trans (addExported_functions stringTable n s)
  · exact (hnoted _).trans (addExported_functions stringTable n s)

/-- One entry of the table. -/
theorem Tracks.loadSymbol (h : Tracks stringHasher s t) (layout : Layout) (baseAddress : Address)
    (entry : List Char × Nlist) :
    Tracks stringHasher (loadSymbol stringHasher layout baseAddress s entry) (t.next entry) := by
  unfold MachoProgramInfoLoader.loadSymbol
  cases htype : entry.2.symbolType with
  | none =>
      rw [show t.next entry = t by rw [Stabs.next, htype]]
      exact h.addExported entry.1 entry.2
  | some type =>
      exact (((h.addExported entry.1 entry.2).noteStab htype baseAddress).reportSize layout
        entry.2 type).of_same rfl rfl rfl

theorem loadSymbol_functions (h : Tracks stringHasher s t) (layout : Layout)
    (baseAddress : Address) (entry : List Char × Nlist) :
    (loadSymbol stringHasher layout baseAddress s entry).res.functions = s.res.functions ++
      ((placed stringHasher layout t entry).map (·.symbol stringHasher baseAddress)).toList := by
  unfold loadSymbol placed
  cases htype : entry.2.symbolType with
  | none => simpa using addExported_functions entry.1 entry.2 s
  | some type =>
      have htracks := ((h.addExported entry.1 entry.2).noteStab htype baseAddress).reportSize
        layout entry.2 type
      have hfunctions := functions_beforeAddSymbol stringHasher layout
        baseAddress entry.1 entry.2 type s
      dsimp only
      generalize reportSize layout entry.2 type (noteStab stringHasher baseAddress entry.1
        entry.2 type (addExported entry.1 entry.2 s)) = before at htracks hfunctions
      have hcheck := htracks.hashAddressStabType_iff entry.2.value
      rw [htracks.addressHashMap] at hcheck
      unfold addSymbol
      rw [htracks.addressHashMap, hfunctions]
      dsimp only
      congr 1
      split
      · simp [MachoPlace.symbol, machoSymbol, MachoPlace.hash, hcheck]
      · rfl

theorem functions_eq (image : MachoImage) : (image.symbols stringHasher).functions =
    (image.functionPlaces stringHasher).map (·.symbol stringHasher image.baseAddress) := by
  have hinit : Tracks stringHasher {} {} :=
    ⟨rfl, fun _ => rfl, fun _ _ h => absurd h (by simp), fun _ _ _ => by simp⟩
  unfold symbols
  rw [load_eq_foldl]
  exact Loop.foldl_outputs Stabs.next (placed stringHasher image.layout)
    (R := Tracks stringHasher) (·.symbol stringHasher image.baseAddress)
    (fun s : Progress => s.res.functions)
    (fun s t entry h => h.loadSymbol image.layout image.baseAddress entry)
    (fun s t entry h => loadSymbol_functions h image.layout image.baseAddress entry) hinit
    image.entries

end

/-! ## Lookups -/

section

variable (stringHasher)

/-- A lookup finds the first place that answers. -/
theorem findFunction_eq (image : MachoImage) (name : String) (hash : UInt64) :
    findFunction (image.symbols stringHasher) name hash =
      ((image.functionPlaces stringHasher).find? fun p => p.Answers stringHasher name hash).map
        (·.symbol stringHasher image.baseAddress) := by
  unfold findFunction
  rw [functions_eq, List.find?_map]
  refine congrArg _ (List.find?_congr fun p _ => ?_)
  rw [Bool.eq_iff_iff, decide_eq_true_iff]
  exact p.answers_symbol_iff stringHasher image.baseAddress name hash

/-- The addresses of the `N_FUN` stabs with the object files they stand under. -/
def funStabs (image : MachoImage) : List (Address × String) :=
  Loop.outputs Stabs.next (fun s entry =>
    if entry.2.symbolType = some .kFUN ∧ entry.2.sect ≠ 0 then
      s.file.map fun file => (entry.2.value, file)
    else none) {} image.entries

def ComesFrom (image : MachoImage) (address : Address) (file : String) : Prop :=
  (address, file) ∈ image.funStabs

instance (image : MachoImage) (address : Address) (file : String) :
    Decidable (image.ComesFrom address file) := inferInstanceAs (Decidable (_ ∈ _))

/-- Internal functions of different object files are kept apart: what is found for a new
function of an object file, among the old functions to be hooked and among the new functions
as the target of a relocation, comes from this file. -/
structure KeepsFilesApart (old new : MachoImage) : Prop where
  hooked : ∀ p ∈ new.functionPlaces stringHasher, p.IsInternal →
    ∀ file, new.ComesFrom p.entry.value file →
      let n := p.symbol stringHasher new.baseAddress
      ∀ sym, findFunction (old.symbols stringHasher) n.name n.hash = some sym →
        old.ComesFrom (sym.runtimeAddress - old.baseAddress) file
  relocated : ∀ p ∈ new.functionPlaces stringHasher, p.IsInternal →
    ∀ file, new.ComesFrom p.entry.value file →
      ∀ reloc : Relocation, reloc.targetSymbolName = p.name →
        reloc.targetSymbolHash = stringHasher file →
          ∀ sym, findFunction (new.symbols stringHasher) reloc.targetSymbolName
              reloc.targetSymbolHash = some sym →
            new.ComesFrom (sym.runtimeAddress - new.baseAddress) file

/-- The first function in the table that answers comes from the object file. -/
def FirstComesFrom (image : MachoImage) (name : String) (hash : UInt64) (file : String) : Prop :=
  ∀ pre p post, image.functionPlaces stringHasher = pre ++ p :: post →
    p.Answers stringHasher name hash → (∀ q ∈ pre, ¬ q.Answers stringHasher name hash) →
      image.ComesFrom p.entry.value file

theorem firstComesFrom_iff (image : MachoImage) (name : String) (hash : UInt64) (file : String) :
    image.FirstComesFrom stringHasher name hash file ↔
      ∀ sym, findFunction (image.symbols stringHasher) name hash = some sym →
        image.ComesFrom (sym.runtimeAddress - image.baseAddress) file := by
  have haddress (p : MachoPlace) :
      (p.symbol stringHasher image.baseAddress).runtimeAddress - image.baseAddress =
        p.entry.value := by
    simp [MachoPlace.symbol]
  rw [findFunction_eq]
  constructor
  · intro hfirst sym hsym
    obtain ⟨p, hp, rfl⟩ := Option.map_eq_some_iff.mp hsym
    obtain ⟨hanswers, pre, post, hplaces, hpre⟩ := List.find?_eq_some_iff_append.mp hp
    rw [haddress]
    exact hfirst pre p post hplaces (by simpa using hanswers)
      fun q hq => by simpa using hpre q hq
  · intro hfound pre p post hplaces hanswers hpre
    rw [← haddress p]
    refine hfound _ (Option.map_eq_some_iff.mpr ⟨p, ?_, rfl⟩)
    rw [List.find?_eq_some_iff_append]
    exact ⟨by simpa using hanswers, pre, post, hplaces, fun q hq => by simpa using hpre q hq⟩

/-- Files are kept apart if what is found under the names and hashes of the new functions comes
from their files. -/
theorem keepsFilesApart_iff_found (old new : MachoImage) :
    KeepsFilesApart stringHasher old new ↔
      ∀ p ∈ new.functionPlaces stringHasher, p.IsInternal →
        ∀ file, new.ComesFrom p.entry.value file →
          (∀ sym, findFunction (old.symbols stringHasher) p.name (p.hash stringHasher) =
              some sym → old.ComesFrom (sym.runtimeAddress - old.baseAddress) file) ∧
            ∀ sym, findFunction (new.symbols stringHasher) p.name (stringHasher file) =
              some sym → new.ComesFrom (sym.runtimeAddress - new.baseAddress) file := by
  constructor
  · intro h p hp hinternal file hfile
    refine ⟨h.hooked p hp hinternal file hfile, ?_⟩
    exact h.relocated p hp hinternal file hfile
      { targetSymbolName := p.name, targetSymbolHash := stringHasher file,
        relocationSymbolName := "" } rfl rfl
  · intro h
    refine ⟨fun p hp hinternal file hfile => (h p hp hinternal file hfile).1, ?_⟩
    intro p hp hinternal file hfile reloc hname hhash
    rw [hname, hhash]
    exact (h p hp hinternal file hfile).2

/-- Files are kept apart exactly if the functions that stand first in the tables are the right
ones. -/
theorem keepsFilesApart_iff (old new : MachoImage) :
    KeepsFilesApart stringHasher old new ↔
      ∀ p ∈ new.functionPlaces stringHasher, p.IsInternal →
        ∀ file, new.ComesFrom p.entry.value file →
          old.FirstComesFrom stringHasher p.name (p.hash stringHasher) file ∧
            new.FirstComesFrom stringHasher p.name (stringHasher file) file := by
  simp only [firstComesFrom_iff]
  exact keepsFilesApart_iff_found stringHasher old new

/-- The first function of the name in the table, if there is one, comes from the object file. -/
def FirstNamedFrom (image : MachoImage) (name file : String) : Prop :=
  ∀ p, (image.functionPlaces stringHasher).find? (·.name = name) = some p →
    image.ComesFrom p.entry.value file

variable {stringHasher}

/-- Compilers write `N_STSYM` stabs for variables. Without such stabs at the addresses of
functions no hash is looked at. -/
theorem findFunction_of_stsym_eq_none {image : MachoImage}
    (hstsym : ∀ p ∈ image.functionPlaces stringHasher, p.stsym = none) (name : String)
    (hash : UInt64) :
    findFunction (image.symbols stringHasher) name hash =
      ((image.functionPlaces stringHasher).find? (·.name = name)).map
        (·.symbol stringHasher image.baseAddress) := by
  rw [findFunction_eq]
  refine congrArg _ (List.find?_congr fun p hp => ?_)
  simp [MachoPlace.Answers, hstsym p hp]

theorem firstNamedFrom_iff {image : MachoImage}
    (hstsym : ∀ p ∈ image.functionPlaces stringHasher, p.stsym = none) (name : String)
    (hash : UInt64) (file : String) :
    image.FirstNamedFrom stringHasher name file ↔
      ∀ sym, findFunction (image.symbols stringHasher) name hash = some sym →
        image.ComesFrom (sym.runtimeAddress - image.baseAddress) file := by
  rw [findFunction_of_stsym_eq_none hstsym]
  simp [FirstNamedFrom, MachoPlace.symbol]

/-- Without `N_STSYM` stabs for functions, files are kept apart exactly if the first function of
the name of each new one comes from its file, in both tables. -/
theorem keepsFilesApart_iff_firstNamedFrom {old new : MachoImage}
    (hold : ∀ p ∈ old.functionPlaces stringHasher, p.stsym = none)
    (hnew : ∀ p ∈ new.functionPlaces stringHasher, p.stsym = none) :
    KeepsFilesApart stringHasher old new ↔
      ∀ p ∈ new.functionPlaces stringHasher, p.IsInternal →
        ∀ file, new.ComesFrom p.entry.value file →
          old.FirstNamedFrom stringHasher p.name file ∧
            new.FirstNamedFrom stringHasher p.name file := by
  rw [keepsFilesApart_iff_found]
  refine forall₂_congr fun p _ => forall₃_congr fun _ file _ => and_congr ?_ ?_
  · exact (firstNamedFrom_iff hold p.name (p.hash stringHasher) file).symm
  · exact (firstNamedFrom_iff hnew p.name (stringHasher file) file).symm

/-- So internal functions of one name in the new image all come from one object file. -/
theorem KeepsFilesApart.file_unique {old new : MachoImage}
    (h : KeepsFilesApart stringHasher old new)
    (hstsym : ∀ p ∈ new.functionPlaces stringHasher, p.stsym = none)
    (hunique : ∀ address f g, new.ComesFrom address f → new.ComesFrom address g → f = g)
    {p q : MachoPlace} (hp : p ∈ new.functionPlaces stringHasher)
    (hq : q ∈ new.functionPlaces stringHasher) (hpinternal : p.IsInternal)
    (hqinternal : q.IsInternal) (hname : q.name = p.name) {f g : String}
    (hf : new.ComesFrom p.entry.value f) (hg : new.ComesFrom q.entry.value g) : f = g := by
  have hfound := (keepsFilesApart_iff_found stringHasher old new).mp h
  have hfirstf := (firstNamedFrom_iff hstsym _ _ f).mpr (hfound p hp hpinternal f hf).2
  have hfirstg := (firstNamedFrom_iff hstsym _ _ g).mpr (hfound q hq hqinternal g hg).2
  have hsome : ((new.functionPlaces stringHasher).find? (·.name = p.name)).isSome := by
    rw [List.find?_isSome]
    exact ⟨p, hp, by simp⟩
  -- the first function of the name comes from both files
  obtain ⟨r, hr⟩ := Option.isSome_iff_exists.mp hsome
  exact hunique _ f g (hfirstf r hr) (hfirstg r (hname ▸ hr))

/-! ### Two object files with a static function of one name -/

/-- The strings `_f`, `a.o` and `b.o`. -/
def twoFilesStrings : List Char := "\x00_f\x00a.o\x00b.o\x00".toList

def twoFiles : MachoImage where
  commands :=
    [.segment [⟨"__text", 0, 0x100⟩],
      .symtab twoFilesStrings
        [{ strx := 4, type := 0x66 }, { strx := 1, type := 0x24, sect := 1, value := 0x10 },
          { strx := 8, type := 0x66 }, { strx := 1, type := 0x24, sect := 1, value := 0x20 },
          { strx := 1, type := 0x0e, sect := 1, value := 0x10 },
          { strx := 1, type := 0x0e, sect := 1, value := 0x20 }]]

def textHasher (s : String) : UInt64 := .ofNat (s.toList.foldl (fun n c => 256 * n + c.toNat) 0)

/-- Both object files have a function `f`, and the one of the first is found for both. -/
theorem twoFiles_not_keepsFilesApart :
    twoFiles.ComesFrom 0x10 "a.o" ∧ twoFiles.ComesFrom 0x20 "b.o" ∧
      findFunction (twoFiles.symbols textHasher) "f" (textHasher "b.o") =
        some ⟨"f", 0x10, 0x10, 0, false⟩ ∧
      ¬ KeepsFilesApart textHasher twoFiles twoFiles := by
  refine ⟨by decide +kernel, by decide +kernel, by decide +kernel, ?_⟩
  intro h
  let p : MachoPlace := ⟨"f", { strx := 1, type := 0x0e, sect := 1, value := 0x20 }, 0xe0, none⟩
  have hfrom := h.hooked p (by decide +kernel) (by decide +kernel) "b.o" (by decide +kernel)
    ⟨"f", 0x10, 0x10, 0, false⟩ (by decide +kernel)
  exact absurd hfrom (by decide +kernel)

end

end MachoImage

end JetLive

import JetLive.Library.Loop
import JetLive.Loader.SymbolsFilter
import Mathlib.Data.List.Find

/-!
# The symbols of an ELF file

The loader goes through the symbol tables of a file and keeps a running hash, that of the
last `STT_FILE` entry; local symbols carry it. Other symbols carry no hash, and they answer
to every hash when they are looked up.

An `ElfPlace` is an entry together with the file it belongs to. The symbols of a program come
from places, and a lookup is judged by the places that its result comes from. It respects
the linkage of a new function unless that is local and the old program has a non-local
function of its name in front (`ElfPlace.Shadowed`).
-/

namespace JetLive

structure ElfEntry where
  name : String
  value : Address := 0
  size : ℕ := 0
  bind : ElfSymbolBinding
  type : ElfSymbolType
  sectionIndex : ℕ := 0
  visibility : ElfSymbolVisibility := .kDefault
  deriving DecidableEq, Repr

/-- A section, with its entries if it is a symbol table. -/
structure ElfSection where
  name : String
  symbols : Option (List ElfEntry) := none
  deriving DecidableEq, Repr

structure ElfImage where
  baseAddress : Address := 0
  sections : List ElfSection
  deriving DecidableEq, Repr

namespace ElfEntry

/-- The entry as the filter sees it. -/
def elfSymbol (hash : UInt64) (e : ElfEntry) : ElfSymbol where
  name := e.name
  hash := hash
  type := e.type
  binding := e.bind
  visibility := e.visibility
  sectionIndex := e.sectionIndex
  size := e.size
  virtualAddress := e.value

def symbol (baseAddress : Address) (hash : UInt64) (e : ElfEntry) : Symbol where
  name := e.name
  size := e.size
  runtimeAddress := baseAddress + e.value
  hash := hash
  checkHash := e.bind = .kLocal

/-- The entry is defined here and seen by other files. -/
def exported (e : ElfEntry) : Bool :=
  (e.bind = .kGlobal || e.bind = .kWeak) && e.sectionIndex ≠ 0

end ElfEntry

/-! ## The loader -/

namespace ElfProgramInfoLoader

structure Progress where
  res : Symbols := {}
  currentHash : UInt64 := 0

section

variable (stringHasher : String → UInt64)

def nextHash (currentHash : UInt64) (e : ElfEntry) : UInt64 :=
  if e.type = .kFile then stringHasher e.name else currentHash

def symbolHash (currentHash : UInt64) (e : ElfEntry) : UInt64 :=
  if e.bind = .kLocal then nextHash stringHasher currentHash e else 0

def kept (shouldKeep : ElfContext → ElfSymbol → Bool) (baseAddress : Address)
    (currentHash : UInt64) (entry : ElfContext × ElfEntry) : Option Symbol :=
  let hash := symbolHash stringHasher currentHash entry.2
  if shouldKeep entry.1 (entry.2.elfSymbol hash) then some (entry.2.symbol baseAddress hash)
  else none

def loadSymbol (baseAddress : Address) (s : Progress) (entry : ElfContext × ElfEntry) :
    Progress where
  currentHash := nextHash stringHasher s.currentHash entry.2
  res :=
    { functions := s.res.functions ++ (kept stringHasher
        DefaultSymbolsFilter.shouldReloadElfSymbol baseAddress s.currentHash entry).toList
      vars := s.res.vars ++ (kept stringHasher
        DefaultSymbolsFilter.shouldTransferElfSymbol baseAddress s.currentHash entry).toList
      exportedSymbolNames :=
        if entry.2.exported then insert entry.2.name s.res.exportedSymbolNames
        else s.res.exportedSymbolNames }

/-- The loop over the sections from an index on. The names of the sections become known on
the way. -/
def loadSections (baseAddress : Address) :
    ℕ → List String → List ElfSection → Progress → Progress
  | _, _, [], s => s
  | i, sectionNames, sec :: sections, s =>
      let sectionNames := sectionNames.set i sec.name
      let s := (sec.symbols.getD []).foldl
        (fun s e => loadSymbol stringHasher baseAddress s (⟨sectionNames⟩, e)) s
      loadSections baseAddress (i + 1) sectionNames sections s

end

end ElfProgramInfoLoader

def ElfImage.symbols (stringHasher : String → UInt64) (image : ElfImage) : Symbols :=
  (ElfProgramInfoLoader.loadSections stringHasher image.baseAddress 0
    (List.replicate image.sections.length "") image.sections {}).res

/-- Read the symbols of a program; the executable has the empty path. -/
def ElfProgramInfoLoader.getProgramSymbols (stringHasher : String → UInt64)
    (getBaseAddress : String → Address) (load : String → Option (List ElfSection))
    (thisExecutablePath filepath : String) : Symbols × List LogEntry :=
  let realFilepath := if filepath = "" then thisExecutablePath else filepath
  match load realFilepath with
  | none => ({}, [.log .kError ("Cannot load " ++ realFilepath ++ " file")])
  | some sections =>
      (ElfImage.symbols stringHasher ⟨getBaseAddress filepath, sections⟩, [])

/-! ## Places -/

/-- An entry of a symbol table with the `STT_FILE` entry that it follows. -/
structure ElfPlace where
  entry : ElfEntry
  file : Option String
  deriving DecidableEq, Repr

namespace ElfPlace

def IsLocal (p : ElfPlace) : Prop := p.entry.bind = .kLocal

instance (p : ElfPlace) : Decidable p.IsLocal := inferInstanceAs (Decidable (_ = _))

def hash (stringHasher : String → UInt64) (p : ElfPlace) : UInt64 :=
  if p.IsLocal then p.file.elim 0 stringHasher else 0

def symbol (stringHasher : String → UInt64) (baseAddress : Address) (p : ElfPlace) : Symbol :=
  p.entry.symbol baseAddress (p.hash stringHasher)

/-- The other place has the same name and linkage, and the same file if they are local. -/
structure Pairs (p q : ElfPlace) : Prop where
  name : q.entry.name = p.entry.name
  linkage : q.IsLocal ↔ p.IsLocal
  file : p.IsLocal → q.file = p.file

instance (p q : ElfPlace) : Decidable (p.Pairs q) :=
  decidable_of_iff (q.entry.name = p.entry.name ∧ (q.IsLocal ↔ p.IsLocal) ∧
      (p.IsLocal → q.file = p.file))
    ⟨fun h => ⟨h.1, h.2.1, h.2.2⟩, fun h => ⟨h.name, h.linkage, h.file⟩⟩

/-- A non-local place of the same name stands in front of all places that pair. -/
def Shadowed (p : ElfPlace) (old : List ElfPlace) : Prop :=
  ∃ pre q post, old = pre ++ q :: post ∧ q.entry.name = p.entry.name ∧ ¬ q.IsLocal ∧
    ∀ r ∈ pre, ¬ p.Pairs r

end ElfPlace

namespace ElfImage

open ElfProgramInfoLoader

/-- The entries of the symbol tables, each with the names of the sections known by then. -/
def entriesFrom : ℕ → List String → List ElfSection → List (ElfContext × ElfEntry)
  | _, _, [] => []
  | i, sectionNames, sec :: sections =>
      let sectionNames := sectionNames.set i sec.name
      (sec.symbols.getD []).map (fun e => (⟨sectionNames⟩, e)) ++
        entriesFrom (i + 1) sectionNames sections

def entries (image : ElfImage) : List (ElfContext × ElfEntry) :=
  entriesFrom 0 (List.replicate image.sections.length "") image.sections

def nextFile (file : Option String) (entry : ElfContext × ElfEntry) : Option String :=
  if entry.2.type = .kFile then some entry.2.name else file

def placed (stringHasher : String → UInt64) (shouldKeep : ElfContext → ElfSymbol → Bool)
    (file : Option String) (entry : ElfContext × ElfEntry) : Option ElfPlace :=
  let place : ElfPlace := ⟨entry.2, nextFile file entry⟩
  if shouldKeep entry.1 (entry.2.elfSymbol (place.hash stringHasher)) then some place else none

section

variable (stringHasher : String → UInt64) (image : ElfImage)

def places (shouldKeep : ElfContext → ElfSymbol → Bool) : List ElfPlace :=
  Loop.outputs nextFile (placed stringHasher shouldKeep) none image.entries

def functionPlaces : List ElfPlace :=
  image.places stringHasher DefaultSymbolsFilter.shouldReloadElfSymbol

def variablePlaces : List ElfPlace :=
  image.places stringHasher DefaultSymbolsFilter.shouldTransferElfSymbol

def fileNames : List String :=
  (image.entries.filter fun entry => entry.2.type = .kFile).map fun entry => entry.2.name

end

variable {stringHasher : String → UInt64} {image : ElfImage}

theorem loadSections_eq_foldl (baseAddress : Address) (i : ℕ) (sectionNames : List String)
    (sections : List ElfSection) (s : Progress) :
    loadSections stringHasher baseAddress i sectionNames sections s =
      (entriesFrom i sectionNames sections).foldl (loadSymbol stringHasher baseAddress) s := by
  induction sections generalizing i sectionNames s with
  | nil => rfl
  | cons sec sections ih =>
      rw [loadSections, entriesFrom, List.foldl_append, List.foldl_map, ih]

/-- The hash of a place is the one that the loader gives to the entry. -/
theorem kept_eq (shouldKeep : ElfContext → ElfSymbol → Bool) (baseAddress : Address)
    {currentHash : UInt64} {file : Option String} (h : currentHash = file.elim 0 stringHasher)
    (entry : ElfContext × ElfEntry) :
    kept stringHasher shouldKeep baseAddress currentHash entry =
      (placed stringHasher shouldKeep file entry).map (·.symbol stringHasher baseAddress) := by
  have hhash : symbolHash stringHasher currentHash entry.2 =
      (⟨entry.2, nextFile file entry⟩ : ElfPlace).hash stringHasher := by
    unfold symbolHash nextHash ElfPlace.hash nextFile ElfPlace.IsLocal
    subst h
    by_cases hfile : entry.2.type = .kFile
    · simp [hfile]
    · simp [hfile]
  unfold kept placed
  rw [hhash]
  dsimp only
  split
  · rfl
  · rfl

/-- The symbols that the loader collects with a filter. -/
theorem foldl_loadSymbol_output {shouldKeep : ElfContext → ElfSymbol → Bool}
    (output : Progress → List Symbol)
    (houtput : ∀ s entry, output (loadSymbol stringHasher image.baseAddress s entry) = output s ++
      (kept stringHasher shouldKeep image.baseAddress s.currentHash entry).toList)
    (hinit : output {} = []) :
    output (loadSections stringHasher image.baseAddress 0
        (List.replicate image.sections.length "") image.sections {}) =
      (image.places stringHasher shouldKeep).map (·.symbol stringHasher image.baseAddress) := by
  rw [loadSections_eq_foldl, Loop.foldl_outputs nextFile (placed stringHasher shouldKeep)
    (R := fun s file => s.currentHash = file.elim 0 stringHasher)
    (·.symbol stringHasher image.baseAddress) output ?_ ?_ (s := none) rfl, hinit]
  · rfl
  · intro s file entry hs
    unfold loadSymbol nextHash nextFile
    dsimp only
    split
    · rfl
    · exact hs
  · intro s file entry hs
    rw [houtput, kept_eq shouldKeep image.baseAddress hs]

theorem functions_eq : (image.symbols stringHasher).functions =
    (image.functionPlaces stringHasher).map (·.symbol stringHasher image.baseAddress) :=
  foldl_loadSymbol_output (fun s => s.res.functions) (fun _ _ => rfl) rfl

theorem vars_eq : (image.symbols stringHasher).vars =
    (image.variablePlaces stringHasher).map (·.symbol stringHasher image.baseAddress) :=
  foldl_loadSymbol_output (fun s => s.res.vars) (fun _ _ => rfl) rfl

/-- Every place comes from an entry, after the files in front of it. -/
theorem mem_places {shouldKeep : ElfContext → ElfSymbol → Bool} {p : ElfPlace} :
    p ∈ image.places stringHasher shouldKeep ↔
      ∃ pre entry post, image.entries = pre ++ entry :: post ∧
        p = ⟨entry.2, nextFile (pre.foldl nextFile none) entry⟩ ∧
        shouldKeep entry.1 (entry.2.elfSymbol (p.hash stringHasher)) = true := by
  unfold places
  rw [Loop.mem_outputs]
  constructor
  · rintro ⟨pre, entry, post, hentries, hplaced⟩
    simp only [placed, Option.ite_none_right_eq_some, Option.some.injEq] at hplaced
    obtain ⟨hkeep, rfl⟩ := hplaced
    exact ⟨pre, entry, post, hentries, rfl, hkeep⟩
  · rintro ⟨pre, entry, post, hentries, rfl, hkeep⟩
    refine ⟨pre, entry, post, hentries, ?_⟩
    exact if_pos hkeep

theorem isLocal_of_mem_variablePlaces {p : ElfPlace} (h : p ∈ image.variablePlaces stringHasher) :
    p.IsLocal := by
  obtain ⟨_, entry, _, _, rfl, hkeep⟩ := mem_places.mp h
  exact DefaultSymbolsFilter.binding_of_shouldTransferElfSymbol hkeep

/-- The running file is the name of an `STT_FILE` entry. -/
theorem foldl_nextFile (l : List (ElfContext × ElfEntry)) {file : Option String} {f : String}
    (h : l.foldl nextFile file = some f) :
    file = some f ∨ ∃ entry ∈ l, entry.2.type = .kFile ∧ entry.2.name = f := by
  induction l generalizing file with
  | nil => exact Or.inl h
  | cons entry l ih =>
      rcases ih h with hnext | ⟨entry', hmem, hfile⟩
      · by_cases htype : entry.2.type = .kFile
        · rw [nextFile, if_pos htype] at hnext
          exact Or.inr ⟨entry, List.mem_cons_self, htype, Option.some.inj hnext⟩
        · rw [nextFile, if_neg htype] at hnext
          exact Or.inl hnext
      · exact Or.inr ⟨entry', List.mem_cons_of_mem _ hmem, hfile⟩

theorem mem_fileNames_of_mem_places {shouldKeep : ElfContext → ElfSymbol → Bool} {p : ElfPlace}
    {f : String} (hp : p ∈ image.places stringHasher shouldKeep) (hf : p.file = some f) :
    f ∈ image.fileNames := by
  obtain ⟨pre, entry, post, hentries, rfl, _⟩ := mem_places.mp hp
  have hfold : (pre ++ [entry]).foldl nextFile none = some f := by
    rw [List.foldl_append]
    exact hf
  rcases foldl_nextFile _ hfold with hnone | ⟨entry', hmem, hfile, rfl⟩
  · cases hnone
  · refine List.mem_map_of_mem (List.mem_filter.mpr ⟨?_, by simpa using hfile⟩)
    rw [hentries, ← List.singleton_append, ← List.append_assoc]
    exact List.mem_append_left _ hmem

end ElfImage

/-! ## Lookups -/

namespace ElfPlace

/-- The other place answers to the name and the hash of this one. -/
def Answered (p q : ElfPlace) : Prop :=
  q.entry.name = p.entry.name ∧ (q.IsLocal → p.IsLocal ∧ q.file = p.file)

instance (p q : ElfPlace) : Decidable (p.Answered q) := inferInstanceAs (Decidable (_ ∧ _))

variable {p q : ElfPlace} {old : List ElfPlace}

theorem pairs_iff_answered : p.Pairs q ↔ p.Answered q ∧ (p.IsLocal → q.IsLocal) := by
  constructor
  · intro h
    exact ⟨⟨h.name, fun hq => ⟨h.linkage.mp hq, h.file (h.linkage.mp hq)⟩⟩, h.linkage.mpr⟩
  · rintro ⟨⟨hname, hanswer⟩, hlocal⟩
    exact ⟨hname, ⟨fun hq => (hanswer hq).1, hlocal⟩, fun hp => (hanswer (hlocal hp)).2⟩

/-- A place is shadowed if the first place that answers to it is not local. -/
theorem shadowed_iff :
    p.Shadowed old ↔ ∃ q, old.find? (fun q => p.Answered q) = some q ∧ ¬ q.IsLocal := by
  constructor
  · rintro ⟨pre, q, post, rfl, hname, hq, hpre⟩
    rw [List.find?_append]
    cases hfind : pre.find? (fun q => p.Answered q) with
    | some r =>
        -- one that answers without pairing is not local
        have hanswered : p.Answered r := by simpa using List.find?_some hfind
        refine ⟨r, rfl, fun hr => ?_⟩
        exact hpre r (List.mem_of_find?_eq_some hfind)
          (pairs_iff_answered.mpr ⟨hanswered, fun _ => hr⟩)
    | none =>
        have hanswered : p.Answered q := ⟨hname, fun h => absurd h hq⟩
        exact ⟨q, by simp [hanswered], hq⟩
  · rintro ⟨q, hfind, hq⟩
    obtain ⟨hanswered, pre, post, rfl, hpre⟩ := List.find?_eq_some_iff_append.mp hfind
    have hanswered : p.Answered q := by simpa using hanswered
    refine ⟨pre, q, post, rfl, hanswered.1, hq, ?_⟩
    intro r hr hpairs
    simpa [(pairs_iff_answered.mp hpairs).1] using hpre r hr

/-- The first place that answers pairs, unless this one is local and shadowed. -/
theorem pairs_find?_iff :
    (∀ q, old.find? (fun q => p.Answered q) = some q → p.Pairs q) ↔
      (p.IsLocal → ¬ p.Shadowed old) := by
  constructor
  · intro h hp hshadowed
    obtain ⟨q, hfind, hq⟩ := shadowed_iff.mp hshadowed
    exact hq ((h q hfind).linkage.mpr hp)
  · intro h q hfind
    have hanswered : p.Answered q := by simpa using List.find?_some hfind
    refine pairs_iff_answered.mpr ⟨hanswered, fun hp => ?_⟩
    by_contra hq
    exact h hp (shadowed_iff.mpr ⟨q, hfind, hq⟩)

/-- The lookup gives a symbol that pairs with the place, and it gives one if there is any. -/
structure FoundBy (stringHasher : String → UInt64) (baseAddress : Address) (p : ElfPlace)
    (old : List ElfPlace) (found : Option Symbol) : Prop where
  pairs : ∀ sym, found = some sym →
    ∃ q ∈ old, p.Pairs q ∧ q.symbol stringHasher baseAddress = sym
  finds : (∃ q ∈ old, p.Pairs q) → found.isSome

end ElfPlace

namespace ElfImage

/-- Lookups of the new symbols in the old program respect linkage and file. -/
structure RespectsLinkage (stringHasher : String → UInt64) (old new : ElfImage) : Prop where
  functions : ∀ p ∈ new.functionPlaces stringHasher,
    let n := p.symbol stringHasher new.baseAddress
    p.FoundBy stringHasher old.baseAddress (old.functionPlaces stringHasher)
      (findFunction (old.symbols stringHasher) n.name n.hash)
  vars : ∀ p ∈ new.variablePlaces stringHasher,
    let n := p.symbol stringHasher new.baseAddress
    p.FoundBy stringHasher old.baseAddress (old.variablePlaces stringHasher)
      (findVariable (old.symbols stringHasher) n.name n.hash)

/-- Local functions and variables follow an `STT_FILE` entry. -/
def FollowsFiles (stringHasher : String → UInt64) (image : ElfImage) : Prop :=
  ∀ p ∈ image.functionPlaces stringHasher ++ image.variablePlaces stringHasher,
    p.IsLocal → p.file ≠ none

/-- The hash tells the files of the two programs apart, and none from no file. -/
structure Separates (stringHasher : String → UInt64) (old new : ElfImage) : Prop where
  injective : ∀ a ∈ old.fileNames ++ new.fileNames, ∀ b ∈ old.fileNames ++ new.fileNames,
    stringHasher a = stringHasher b → a = b
  ne_zero : ∀ a ∈ old.fileNames ++ new.fileNames, stringHasher a ≠ 0

section

variable {stringHasher : String → UInt64} {old new : ElfImage}

/-- The file of a place counts in lookups. -/
def Filed (files : List String) (p : ElfPlace) : Prop := p.IsLocal → ∃ f ∈ files, p.file = some f

theorem FollowsFiles.filed {image : ElfImage} {shouldKeep : ElfContext → ElfSymbol → Bool}
    {files : List String} (hfiles : image.fileNames ⊆ files) {p : ElfPlace}
    (hp : p ∈ image.places stringHasher shouldKeep) (hfollows : p.IsLocal → p.file ≠ none) :
    Filed files p := by
  intro hlocal
  obtain ⟨f, hf⟩ := Option.ne_none_iff_exists'.mp (hfollows hlocal)
  exact ⟨f, hfiles (mem_fileNames_of_mem_places hp hf), hf⟩

theorem Separates.answers_iff (h : Separates stringHasher old new) {p q : ElfPlace}
    (hp : Filed (old.fileNames ++ new.fileNames) p)
    (hq : Filed (old.fileNames ++ new.fileNames) q) (baseAddress : Address) :
    (q.symbol stringHasher baseAddress).answers p.entry.name (p.hash stringHasher) ↔
      p.Answered q := by
  rw [Symbol.answers_iff]
  refine and_congr Iff.rfl ?_
  have hcheck : (q.symbol stringHasher baseAddress).checkHash = true ↔ q.IsLocal := by
    simp [ElfPlace.symbol, ElfEntry.symbol, ElfPlace.IsLocal]
  rw [hcheck]
  refine imp_congr_right fun hqlocal => ?_
  obtain ⟨f, hf, hqf⟩ := hq hqlocal
  have hqhash : (q.symbol stringHasher baseAddress).hash = stringHasher f := by
    simp [ElfPlace.symbol, ElfEntry.symbol, ElfPlace.hash, hqlocal, hqf]
  rw [hqhash, hqf]
  by_cases hplocal : p.IsLocal
  · obtain ⟨g, hg, hpg⟩ := hp hplocal
    have hphash : p.hash stringHasher = stringHasher g := by
      simp [ElfPlace.hash, hplocal, hpg]
    rw [hphash, hpg]
    constructor
    · intro heq
      exact ⟨hplocal, congrArg some (h.injective f hf g hg heq)⟩
    · rintro ⟨_, heq⟩
      rw [Option.some.inj heq]
  · have hphash : p.hash stringHasher = 0 := if_neg hplocal
    rw [hphash]
    exact iff_of_false (h.ne_zero f hf) fun h => hplocal h.1

/-- What a lookup among the symbols of some places is worth. -/
theorem Separates.foundBy_iff (h : Separates stringHasher old new) {p : ElfPlace}
    {places : List ElfPlace} (hp : Filed (old.fileNames ++ new.fileNames) p)
    (hplaces : ∀ q ∈ places, Filed (old.fileNames ++ new.fileNames) q) (baseAddress : Address) :
    p.FoundBy stringHasher baseAddress places
        ((places.map (·.symbol stringHasher baseAddress)).find? fun sym =>
          sym.answers p.entry.name (p.hash stringHasher)) ↔
      (p.IsLocal → ¬ p.Shadowed places) := by
  have hfind : (places.map (·.symbol stringHasher baseAddress)).find? (fun sym =>
      sym.answers p.entry.name (p.hash stringHasher)) =
        (places.find? fun q => p.Answered q).map (·.symbol stringHasher baseAddress) := by
    rw [List.find?_map]
    refine congrArg _ (List.find?_congr fun q hq => ?_)
    rw [Bool.eq_iff_iff, decide_eq_true_iff]
    exact h.answers_iff hp (hplaces q hq) baseAddress
  rw [hfind, ← ElfPlace.pairs_find?_iff]
  constructor
  · intro hfound q hq
    obtain ⟨q', _, hpairs, hsymbol⟩ := hfound.pairs _ (by rw [hq]; rfl)
    have hanswered : p.Answered q := by simpa using List.find?_some hq
    refine ElfPlace.pairs_iff_answered.mpr ⟨hanswered, fun hlocal => ?_⟩
    -- the symbol tells whether its place is local
    have hcheck := congrArg Symbol.checkHash hsymbol
    have hlocal' : q'.entry.bind = .kLocal := hpairs.linkage.mpr hlocal
    simpa [ElfPlace.symbol, ElfEntry.symbol, hlocal', ElfPlace.IsLocal] using hcheck
  · intro hpairs
    refine ⟨?_, ?_⟩
    · intro sym hsym
      obtain ⟨q, hq, rfl⟩ := Option.map_eq_some_iff.mp hsym
      exact ⟨q, List.mem_of_find?_eq_some hq, hpairs q hq, rfl⟩
    · rintro ⟨q, hq, hpair⟩
      rw [Option.isSome_map, List.find?_isSome]
      exact ⟨q, hq, by simpa using (ElfPlace.pairs_iff_answered.mp hpair).1⟩

/-- Lookups respect linkage and file, unless a local function of the new program is shadowed
by a non-local function of the old one. -/
theorem respectsLinkage_iff (h : Separates stringHasher old new)
    (hold : old.FollowsFiles stringHasher) (hnew : new.FollowsFiles stringHasher) :
    RespectsLinkage stringHasher old new ↔
      ∀ p ∈ new.functionPlaces stringHasher,
        p.IsLocal → ¬ p.Shadowed (old.functionPlaces stringHasher) := by
  have hfiled {p : ElfPlace} (hp : p ∈ old.functionPlaces stringHasher ∨
      p ∈ old.variablePlaces stringHasher ∨ p ∈ new.functionPlaces stringHasher ∨
      p ∈ new.variablePlaces stringHasher) : Filed (old.fileNames ++ new.fileNames) p := by
    rcases hp with hp | hp | hp | hp
    · exact FollowsFiles.filed (List.subset_append_left _ _) hp
        (hold p (List.mem_append_left _ hp))
    · exact FollowsFiles.filed (List.subset_append_left _ _) hp
        (hold p (List.mem_append_right _ hp))
    · exact FollowsFiles.filed (List.subset_append_right _ _) hp
        (hnew p (List.mem_append_left _ hp))
    · exact FollowsFiles.filed (List.subset_append_right _ _) hp
        (hnew p (List.mem_append_right _ hp))
  have hfunction (p : ElfPlace) (hp : p ∈ new.functionPlaces stringHasher) :
      p.FoundBy stringHasher old.baseAddress (old.functionPlaces stringHasher)
          (findFunction (old.symbols stringHasher) p.entry.name (p.hash stringHasher)) ↔
        (p.IsLocal → ¬ p.Shadowed (old.functionPlaces stringHasher)) := by
    unfold findFunction
    rw [functions_eq]
    exact h.foundBy_iff (hfiled (by simp [hp])) (fun q hq => hfiled (by simp [hq])) _
  have hvariable (p : ElfPlace) (hp : p ∈ new.variablePlaces stringHasher) :
      p.FoundBy stringHasher old.baseAddress (old.variablePlaces stringHasher)
        (findVariable (old.symbols stringHasher) p.entry.name (p.hash stringHasher)) := by
    unfold findVariable
    rw [vars_eq, h.foundBy_iff (hfiled (by simp [hp])) fun q hq => hfiled (by simp [hq])]
    -- the old variables are local
    rintro _ ⟨pre, q, post, hplaces, _, hq, _⟩
    have hmem : q ∈ old.variablePlaces stringHasher := by
      rw [hplaces]
      exact List.mem_append_right _ List.mem_cons_self
    exact hq (isLocal_of_mem_variablePlaces hmem)
  constructor
  · intro hrespects p hp
    exact (hfunction p hp).mp (hrespects.functions p hp)
  · intro hclear
    exact ⟨fun p hp => (hfunction p hp).mpr (hclear p hp), hvariable⟩

end

/-! ### Two files with functions of one name -/

def ofSymbols (symbols : List ElfEntry) : ElfImage where
  sections := [⟨"", none⟩, ⟨".text", none⟩, ⟨".symtab", some symbols⟩]

def fileEntry (name : String) : ElfEntry := { name, bind := .kLocal, type := .kFile }

def functionEntry (bind : ElfSymbolBinding) (value : Address) : ElfEntry :=
  { name := "f", value, size := 16, bind, type := .kFunction, sectionIndex := 1 }

def lengthHasher (s : String) : UInt64 := .ofNat s.length

/-- Both files have a local function, and there is a global one. -/
def localsAndGlobal : ElfImage :=
  ofSymbols [fileEntry "a.cpp", functionEntry .kLocal 0x10, fileEntry "bb.cpp",
    functionEntry .kLocal 0x20, functionEntry .kGlobal 0x30]

def secondLocal : ElfImage := ofSymbols [fileEntry "bb.cpp", functionEntry .kLocal 0x10]

/-- Neither file has a local function, and there is a global one. -/
def globalOnly : ElfImage :=
  ofSymbols [fileEntry "a.cpp", fileEntry "bb.cpp", functionEntry .kGlobal 0x30]

instance (p : ElfPlace) (old : List ElfPlace) : Decidable (p.Shadowed old) :=
  decidable_of_iff (∃ q ∈ old.find? (fun q => p.Answered q), ¬ q.IsLocal)
    ElfPlace.shadowed_iff.symm

theorem secondLocal_respectsLinkage :
    RespectsLinkage lengthHasher localsAndGlobal secondLocal ∧
      findFunction (localsAndGlobal.symbols lengthHasher) "f" (lengthHasher "bb.cpp") =
        some ⟨"f", 16, 0x20, lengthHasher "bb.cpp", true⟩ := by
  have hseparates : Separates lengthHasher localsAndGlobal secondLocal :=
    ⟨by decide +kernel, by decide +kernel⟩
  have hclear : ∀ p ∈ secondLocal.functionPlaces lengthHasher,
      p.IsLocal → ¬ p.Shadowed (localsAndGlobal.functionPlaces lengthHasher) := by
    decide +kernel
  exact ⟨(respectsLinkage_iff hseparates (by unfold FollowsFiles; decide +kernel)
    (by unfold FollowsFiles; decide +kernel)).mpr hclear, by decide +kernel⟩

/-- A static function is added to a file while another file has a global function of this
name, which is then found in its place. -/
theorem globalOnly_not_respectsLinkage :
    Separates lengthHasher globalOnly secondLocal ∧ globalOnly.fileNames.Nodup ∧
      globalOnly.FollowsFiles lengthHasher ∧ secondLocal.FollowsFiles lengthHasher ∧
      ¬ RespectsLinkage lengthHasher globalOnly secondLocal := by
  refine ⟨⟨by decide +kernel, by decide +kernel⟩, by decide +kernel,
    by unfold FollowsFiles; decide +kernel, by unfold FollowsFiles; decide +kernel, ?_⟩
  intro hrespects
  let p : ElfPlace := ⟨functionEntry .kLocal 0x10, some "bb.cpp"⟩
  have hnone : ¬ ∃ q ∈ globalOnly.functionPlaces lengthHasher, p.Pairs q := by decide +kernel
  obtain ⟨q, hq, hpairs, _⟩ := (hrespects.functions p (by decide +kernel)).pairs
    ⟨"f", 16, 0x30, 0, false⟩ (by decide +kernel)
  exact hnone ⟨q, hq, hpairs⟩

end ElfImage

end JetLive

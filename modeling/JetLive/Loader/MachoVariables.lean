import JetLive.Loader.MachoFiles
import Mathlib.Data.List.Perm.Basic

/-!
# The object files of Mach-O variables

A static variable has a symbol of its section and an `N_STSYM` stab, in any order. If the stab comes
first, the symbol takes the hash of the object file from the maps of the loader, and if it comes
later, the stored record is patched. In both cases the record ends up with the hash of the file
under which the stab stands. So the records do not depend on where the symbols of the sections stand
in the table (`Reordered.vars_perm`).
-/

namespace JetLive

open MachoProgramInfoLoader

/-! ## The layout of an image -/

def LoadCommand.sections : LoadCommand → List MachoSection
  | .segment sections => sections
  | .symtab .. | .other => []

theorem modify_comm {α : Type*} (l : List α) (i j : ℕ) {f g : α → α}
    (h : ∀ a, f (g a) = g (f a)) : (l.modify i f).modify j g = (l.modify j g).modify i f := by
  apply List.ext_getElem?
  intro k
  simp only [List.getElem?_modify]
  cases l[k]? with
  | none => rfl
  | some a => by_cases hi : i = k <;> by_cases hj : j = k <;> simp [hi, hj, h]

namespace MachoImage

def sections (image : MachoImage) : List MachoSection := image.commands.flatMap LoadCommand.sections

theorem layout_eq_foldl (image : MachoImage) :
    image.layout = image.entries.foldl (fun l entry => l.addBound entry.2)
      (image.sections.foldl Layout.addSection {}) := by
  have hsections : image.commands.foldl Layout.addSections {} =
      image.sections.foldl Layout.addSection {} := by
    rw [sections, List.foldl_flatMap]
    congr 1
    funext l command
    cases command <;> rfl
  rw [layout, hsections, entries, List.foldl_flatMap]
  congr 1
  funext l command
  cases command with
  | symtab stringTable symbols => rw [Layout.addBounds, LoadCommand.entries, List.foldl_map]
  | segment sections => rfl
  | other => rfl

theorem addBound_comm (l : Layout) (m n : Nlist) :
    (l.addBound m).addBound n = (l.addBound n).addBound m := by
  unfold Layout.addBound
  by_cases hm : m.typeBits = 0xe
  · by_cases hn : n.typeBits = 0xe
    · simp only [hm, hn, if_true]
      rw [modify_comm _ _ _ (Finset.insert_comm _ _)]
    · simp only [hm, hn, if_true, if_false]
  · simp only [hm, if_false]

/-! ## The table -/

def addressesOf (type : MachoSymbolType) (entries : List (List Char × Nlist)) : List Address :=
  (entries.filter fun entry => entry.2.symbolType = some type).map fun entry => entry.2.value

/-- Every address has at most one `N_STSYM` stab and at most one symbol of a section, and these have
the same name. -/
structure Unambiguous (entries : List (List Char × Nlist)) : Prop where
  stsym : (addressesOf .kSTSYM entries).Nodup
  sections : (addressesOf .kSection entries).Nodup
  name : ∀ stab ∈ entries, stab.2.symbolType = some .kSTSYM →
    ∀ entry ∈ entries, entry.2.symbolType = some .kSection → entry.2.value = stab.2.value →
      entry.2.name entry.1 = stab.2.name stab.1

/-- The symbols of the sections have other positions in the second table, and nothing else has
changed. -/
structure Reordered (image image' : MachoImage) : Prop where
  baseAddress : image'.baseAddress = image.baseAddress
  sections : image'.sections = image.sections
  perm : image'.entries.Perm image.entries
  others : image'.entries.filter (fun entry => entry.2.symbolType ≠ some .kSection) =
    image.entries.filter fun entry => entry.2.symbolType ≠ some .kSection

variable {stringHasher : String → UInt64} {image image' : MachoImage}
  {entries : List (List Char × Nlist)}

theorem addressesOf_concat (type : MachoSymbolType) (entries : List (List Char × Nlist))
    (entry : List Char × Nlist) : addressesOf type (entries ++ [entry]) =
      addressesOf type entries ++
        if entry.2.symbolType = some type then [entry.2.value] else [] := by
  unfold addressesOf
  rw [List.filter_append, List.map_append, List.filter_singleton]
  split <;> simp_all

theorem Unambiguous.perm {entries' : List (List Char × Nlist)} (h : Unambiguous entries)
    (hperm : entries'.Perm entries) : Unambiguous entries' where
  stsym := ((hperm.filter _).map _).nodup_iff.mpr h.stsym
  sections := ((hperm.filter _).map _).nodup_iff.mpr h.sections
  name stab hstab htype entry hentry :=
    h.name stab (hperm.mem_iff.mp hstab) htype entry (hperm.mem_iff.mp hentry)

theorem Unambiguous.of_concat {entry : List Char × Nlist} (h : Unambiguous (entries ++ [entry])) :
    Unambiguous entries where
  stsym := (List.nodup_append.mp (addressesOf_concat .kSTSYM entries entry ▸ h.stsym)).1
  sections := (List.nodup_append.mp (addressesOf_concat .kSection entries entry ▸ h.sections)).1
  name stab hstab htype entry' hentry' :=
    h.name stab (List.mem_append_left _ hstab) htype entry' (List.mem_append_left _ hentry')

theorem Reordered.layout (h : Reordered image image') : image'.layout = image.layout := by
  rw [layout_eq_foldl, layout_eq_foldl, h.sections]
  exact h.perm.foldl_eq' (fun m _ n _ l => addBound_comm l m.2 n.2) _

/-! ## The stabs -/

def stabs (entries : List (List Char × Nlist)) : Stabs := entries.foldl Stabs.next {}

theorem stabs_concat (entries : List (List Char × Nlist)) (entry : List Char × Nlist) :
    stabs (entries ++ [entry]) = (stabs entries).next entry :=
  List.foldl_concat ..

/-- The symbols of the sections do not matter. -/
theorem stabs_filter (entries : List (List Char × Nlist)) :
    stabs (entries.filter fun entry => entry.2.symbolType ≠ some .kSection) = stabs entries := by
  induction entries using List.reverseRecOn with
  | nil => rfl
  | append_singleton entries entry ih =>
      rw [List.filter_append, stabs_concat, List.filter_singleton]
      by_cases htype : entry.2.symbolType = some .kSection
      · simpa [htype, Stabs.next] using ih
      · simpa [htype, stabs_concat] using congrArg (·.next entry) ih

theorem Reordered.stabs (h : Reordered image image') :
    MachoImage.stabs image'.entries = MachoImage.stabs image.entries := by
  rw [← stabs_filter, h.others, stabs_filter]

theorem stsym_stabs_eq_none {a : Address} (h : a ∉ addressesOf .kSTSYM entries) :
    (MachoImage.stabs entries).stsym a = none := by
  induction entries using List.reverseRecOn with
  | nil => rfl
  | append_singleton entries entry ih =>
      rw [addressesOf_concat, List.mem_append, not_or] at h
      rw [stabs_concat, Stabs.next]
      split
      · exact ih h.1
      · rename_i htype
        rw [if_pos htype, List.mem_singleton] at h
        exact (Function.update_of_ne h.2 _ _).trans (ih h.1)
      · exact ih h.1

/-! ## The variables -/

def isVariable (layout : Layout) (entry : List Char × Nlist) : Bool :=
  entry.2.symbolType = some .kSection &&
    DefaultSymbolsFilter.shouldTransferMachoSymbol ⟨layout.sectionNames⟩
      (machoSymbol layout entry.1 entry.2 .kSection 0)

/-- The place of a variable, with the object file of the `N_STSYM` stab of its address. -/
def variablePlace (layout : Layout) (t : Stabs) (entry : List Char × Nlist) : MachoPlace where
  name := entry.2.name entry.1
  entry := entry.2
  size := (symbolSize layout entry.2 .kSection).getD 0
  stsym := t.stsym entry.2.value

def variableSymbols (stringHasher : String → UInt64) (layout : Layout) (baseAddress : Address)
    (t : Stabs) (entries : List (List Char × Nlist)) : List Symbol :=
  (entries.filter (isVariable layout)).map fun entry =>
    (variablePlace layout t entry).symbol stringHasher baseAddress

/-- If one record at most has the address, and it has the name and no hash yet, it is the one that
gets the hash. -/
theorem patchVariable_eq_map {name : String} {address : Address} {hash : UInt64}
    {vars : List Symbol}
    (hmatch : ∀ sym ∈ vars, sym.runtimeAddress = address → sym.name = name ∧ sym.hash = 0)
    (hnodup : (vars.map fun sym => sym.runtimeAddress).Nodup) :
    patchVariable name address hash vars = vars.map fun sym =>
      if sym.runtimeAddress = address then { sym with hash, checkHash := true } else sym := by
  induction vars with
  | nil => rfl
  | cons sym vars ih =>
      obtain ⟨hsym, hmatch⟩ := List.forall_mem_cons.mp hmatch
      rw [List.map_cons, List.nodup_cons] at hnodup
      rw [patchVariable, List.map_cons]
      by_cases haddress : sym.runtimeAddress = address
      · obtain ⟨hname, hhash⟩ := hsym haddress
        have hrest : vars.map (fun sym => if sym.runtimeAddress = address then
            { sym with hash, checkHash := true } else sym) = vars := by
          refine (List.map_congr_left fun sym' hsym' => if_neg fun heq => ?_).trans (List.map_id _)
          exact hnodup.1 (List.mem_map.mpr ⟨sym', hsym', heq.trans haddress.symm⟩)
        rw [if_pos ⟨hname, hhash, haddress⟩, if_pos haddress, hrest]
      · rw [if_neg fun h => haddress h.2.2, if_neg haddress, ih hmatch hnodup.2]

section

variable {layout : Layout} {baseAddress : Address} {t : Stabs} {entry : List Char × Nlist}

theorem symbolType_of_isVariable (h : isVariable layout entry = true) :
    entry.2.symbolType = some .kSection := by
  rw [isVariable, Bool.and_eq_true, decide_eq_true_iff] at h
  exact h.1

theorem nodup_variableSymbols (h : (addressesOf .kSection entries).Nodup) :
    ((variableSymbols stringHasher layout baseAddress t entries).map
      fun sym => sym.runtimeAddress).Nodup := by
  have hsub : ((entries.filter (isVariable layout)).map fun entry => entry.2.value).Sublist
      (addressesOf .kSection entries) := by
    refine (List.monotone_filter_right entries fun entry hentry => ?_).map _
    exact decide_eq_true (symbolType_of_isVariable hentry)
  have hinjective : Function.Injective fun a : Address => baseAddress + a := by
    intro a b hab
    simpa using hab
  have hnodup := (h.sublist hsub).map hinjective
  rw [List.map_map] at hnodup
  rw [variableSymbols, List.map_map]
  exact hnodup

theorem variableSymbols_append (entries entries' : List (List Char × Nlist)) :
    variableSymbols stringHasher layout baseAddress t (entries ++ entries') =
      variableSymbols stringHasher layout baseAddress t entries ++
        variableSymbols stringHasher layout baseAddress t entries' := by
  rw [variableSymbols, List.filter_append, List.map_append]
  rfl

theorem variableSymbols_congr {t' : Stabs} (h : t.stsym = t'.stsym) :
    variableSymbols stringHasher layout baseAddress t entries =
      variableSymbols stringHasher layout baseAddress t' entries := by
  unfold variableSymbols variablePlace
  rw [h]

theorem stsym_next (h : entry.2.symbolType ≠ some .kSTSYM) : (t.next entry).stsym = t.stsym := by
  unfold Stabs.next
  split
  · rfl
  · rename_i htype
    exact absurd htype h
  · rfl

/-- A later stab of an address gives its file to the record with this address. -/
theorem patchVariable_variableSymbols (h : Unambiguous (entries ++ [entry]))
    (htype : entry.2.symbolType = some .kSTSYM) :
    patchVariable (entry.2.name entry.1) (baseAddress + entry.2.value)
        (MachoPlace.fileHash stringHasher (stabs entries).file)
        (variableSymbols stringHasher layout baseAddress (stabs entries) entries) =
      variableSymbols stringHasher layout baseAddress (stabs (entries ++ [entry])) entries := by
  have hnone : (stabs entries).stsym entry.2.value = none := by
    refine stsym_stabs_eq_none fun hmem => ?_
    have hnodup := h.stsym
    rw [addressesOf_concat, if_pos htype] at hnodup
    exact (List.nodup_append.mp hnodup).2.2 _ hmem _ (List.mem_singleton_self _) rfl
  have hstabs : stabs (entries ++ [entry]) =
      { stabs entries with
        stsym := Function.update (stabs entries).stsym entry.2.value
          (some (stabs entries).file) } := by
    rw [stabs_concat, Stabs.next, htype]
  rw [patchVariable_eq_map _ (nodup_variableSymbols h.of_concat.sections), variableSymbols,
    variableSymbols, List.map_map, hstabs]
  · refine List.map_congr_left fun v _ => ?_
    by_cases haddress : v.2.value = entry.2.value
    · simp [MachoPlace.symbol, variablePlace, MachoPlace.hash, haddress]
    · simp [MachoPlace.symbol, variablePlace, MachoPlace.hash, haddress]
  · intro sym hsym haddress
    obtain ⟨v, hv, rfl⟩ := List.mem_map.mp hsym
    obtain ⟨hv, hvariable⟩ := List.mem_filter.mp hv
    have hvalue : v.2.value = entry.2.value := by
      simpa [MachoPlace.symbol, variablePlace] using haddress
    refine ⟨h.name entry (by simp) htype v (by simp [hv]) (symbolType_of_isVariable hvariable)
      hvalue, ?_⟩
    simp [MachoPlace.symbol, variablePlace, MachoPlace.hash, hvalue, hnone]

theorem addExported_vars (stringTable : List Char) (n : Nlist) (s : Progress) :
    (addExported stringTable n s).res.vars = s.res.vars := by
  unfold addExported
  split <;> rfl

/-- What comes before `addSymbol` patches a variable if the entry is an `N_STSYM` stab. -/
theorem vars_beforeAddSymbol (stringHasher : String → UInt64) (layout : Layout)
    (baseAddress : Address) (stringTable : List Char) (n : Nlist) (type : MachoSymbolType)
    (s : Progress) :
    (reportSize layout n type (noteStab stringHasher baseAddress stringTable n type
      (addExported stringTable n s))).res.vars =
      if type = .kSTSYM then
        patchVariable (n.name stringTable) (baseAddress + n.value) s.currentHash s.res.vars
      else s.res.vars := by
  have hcurrent : (addExported stringTable n s).currentHash = s.currentHash := by
    unfold addExported
    split <;> rfl
  have hreported (s : Progress) : (reportSize layout n type s).res.vars = s.res.vars := by
    unfold reportSize
    split <;> rfl
  rw [hreported, ← addExported_vars stringTable n s, ← hcurrent]
  unfold noteStab
  split
  · rfl
  · rfl
  · rename_i hstsym
    rw [if_neg hstsym]

theorem loadSymbol_vars {s : Progress} (h : Tracks stringHasher s t) (layout : Layout)
    (baseAddress : Address) (entry : List Char × Nlist) :
    (loadSymbol stringHasher layout baseAddress s entry).res.vars =
      (if entry.2.symbolType = some .kSTSYM then
        patchVariable (entry.2.name entry.1) (baseAddress + entry.2.value)
          (MachoPlace.fileHash stringHasher t.file) s.res.vars
      else s.res.vars) ++
        variableSymbols stringHasher layout baseAddress (t.next entry) [entry] := by
  unfold loadSymbol
  cases htype : entry.2.symbolType with
  | none =>
      simp [addExported_vars, variableSymbols, isVariable, htype]
  | some type =>
      have htracks := ((h.addExported entry.1 entry.2).noteStab htype baseAddress).reportSize
        layout entry.2 type
      have hvars := vars_beforeAddSymbol stringHasher layout baseAddress entry.1 entry.2 type s
      rw [h.currentHash] at hvars
      dsimp only
      generalize reportSize layout entry.2 type (noteStab stringHasher baseAddress entry.1
        entry.2 type (addExported entry.1 entry.2 s)) = before at htracks hvars
      have hcheck := htracks.hashAddressStabType_iff entry.2.value
      rw [htracks.addressHashMap] at hcheck
      unfold addSymbol
      rw [htracks.addressHashMap, hvars]
      simp only [Option.some.injEq]
      congr 1
      by_cases hsection : type = .kSection
      · subst hsection
        -- the filter does not look at the hash
        have hfilter (hash : UInt64) :
            DefaultSymbolsFilter.shouldTransferMachoSymbol ⟨layout.sectionNames⟩
              (machoSymbol layout entry.1 entry.2 .kSection hash) = isVariable layout entry := by
          simp [isVariable, htype, DefaultSymbolsFilter.shouldTransferMachoSymbol, machoSymbol]
        rw [variableSymbols, List.filter_singleton, hfilter]
        cases isVariable layout entry with
        | false => rfl
        | true => simp [MachoPlace.symbol, variablePlace, machoSymbol, MachoPlace.hash, hcheck]
      · simp [variableSymbols, isVariable, htype, hsection,
          DefaultSymbolsFilter.shouldTransferMachoSymbol, machoSymbol]

end

/-- The variables are the symbols of sections that pass the filter, each with the object file of the
`N_STSYM` stab of its address, wherever the stab stands. -/
theorem vars_eq (h : Unambiguous image.entries) :
    (image.symbols stringHasher).vars = variableSymbols stringHasher image.layout
      image.baseAddress (stabs image.entries) image.entries := by
  have key : ∀ entries, Unambiguous entries →
      Tracks stringHasher
        (entries.foldl (loadSymbol stringHasher image.layout image.baseAddress) {})
        (stabs entries) ∧
      (entries.foldl (loadSymbol stringHasher image.layout image.baseAddress) {}).res.vars =
        variableSymbols stringHasher image.layout image.baseAddress (stabs entries) entries := by
    intro entries h
    induction entries using List.reverseRecOn with
    | nil =>
        refine ⟨⟨rfl, fun _ => rfl, fun _ _ h => ?_, fun _ _ _ => by simp⟩, rfl⟩
        exact absurd h (by simp [stabs])
    | append_singleton entries entry ih =>
        obtain ⟨htracks, hvars⟩ := ih h.of_concat
        rw [List.foldl_concat, stabs_concat]
        refine ⟨htracks.loadSymbol image.layout image.baseAddress entry, ?_⟩
        rw [loadSymbol_vars htracks, hvars, variableSymbols_append]
        congr 1
        split
        · rename_i htype
          rw [patchVariable_variableSymbols h htype, stabs_concat]
        · rename_i htype
          exact variableSymbols_congr (stsym_next htype).symm
  rw [symbols, load_eq_foldl]
  exact (key _ h).2

/-- Other positions of the symbols of sections leave the records of the variables of each name the
same. -/
theorem Reordered.vars_perm (h : Reordered image image') (hentries : Unambiguous image.entries)
    (stringHasher : String → UInt64) (name : String) :
    ((image'.symbols stringHasher).vars.filter fun sym => sym.name = name).Perm
      ((image.symbols stringHasher).vars.filter fun sym => sym.name = name) := by
  rw [vars_eq hentries, vars_eq (hentries.perm h.perm), h.layout, h.baseAddress, h.stabs]
  exact (((h.perm.filter _).map _).filter _)

/-! ### Two object files with a static variable of one name -/

/-- The strings `_x`, `a.o` and `b.o`, and the given table. -/
def staticVariables (symbols : List Nlist) : MachoImage where
  commands :=
    [.segment [⟨"__data", 0, 0x100⟩], .symtab "\x00_x\x00a.o\x00b.o\x00".toList symbols]

def stabsFirst : MachoImage := staticVariables
  [{ strx := 4, type := 0x66 }, { strx := 1, type := 0x26, sect := 1, value := 0x10 },
    { strx := 8, type := 0x66 }, { strx := 1, type := 0x26, sect := 1, value := 0x20 },
    { strx := 1, type := 0x0e, sect := 1, value := 0x10 },
    { strx := 1, type := 0x0e, sect := 1, value := 0x20 }]

/-- The second symbol comes first, and the first one between the stabs. -/
def stabsMixed : MachoImage := staticVariables
  [{ strx := 1, type := 0x0e, sect := 1, value := 0x20 },
    { strx := 4, type := 0x66 }, { strx := 1, type := 0x26, sect := 1, value := 0x10 },
    { strx := 1, type := 0x0e, sect := 1, value := 0x10 },
    { strx := 8, type := 0x66 }, { strx := 1, type := 0x26, sect := 1, value := 0x20 }]

theorem stabsMixed_vars_perm :
    (Reordered stabsFirst stabsMixed ∧ Unambiguous stabsFirst.entries) ∧
      (stabsFirst.symbols textHasher).vars =
        [⟨"x", 0x10, 0x10, textHasher "a.o", true⟩, ⟨"x", 0xe0, 0x20, textHasher "b.o", true⟩] ∧
      ((stabsMixed.symbols textHasher).vars.filter fun sym => sym.name = "x").Perm
        ((stabsFirst.symbols textHasher).vars.filter fun sym => sym.name = "x") := by
  have hreordered : Reordered stabsFirst stabsMixed :=
    ⟨rfl, rfl, by decide +kernel, by decide +kernel⟩
  have hentries : Unambiguous stabsFirst.entries :=
    ⟨by decide +kernel, by decide +kernel, by decide +kernel⟩
  exact ⟨⟨hreordered, hentries⟩, by decide +kernel, hreordered.vars_perm hentries textHasher "x"⟩

end MachoImage

end JetLive

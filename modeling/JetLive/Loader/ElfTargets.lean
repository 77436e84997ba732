import JetLive.Library.SortedKeys
import JetLive.Loader.ElfRelocations

/-!
# The functions of relocations

A relocation of `.text` belongs to the function that its offset lies in. The loader looks for it
among the symbols of `.text` by their addresses: it takes one step back from `upper_bound`, and
tests whether the symbol there contains the offset. Of several symbols with one address only the
last one is in the map, and of all symbols that start in front of the offset only the nearest one
is tested. So a function is missed if a label or an alias without a size stands between its start
and the offset. If there are no symbols, the iterator that is tested is the end of the map.
-/

namespace JetLive

open Containers SortedKeys

instance : Extent ElfEntry where
  virtualAddress := ElfEntry.value
  size := ElfEntry.size

section Extents

variable {σ : Type} [Extent σ]

def Encloses (sym : σ) (offset : Address) : Prop :=
  (Extent.virtualAddress sym).toNat ≤ offset.toNat ∧
    offset.toNat < (Extent.virtualAddress sym).toNat + Extent.size sym

instance (sym : σ) (offset : Address) : Decidable (Encloses sym offset) :=
  inferInstanceAs (Decidable (_ ∧ _))

/-- The offset is below the end of the symbol, which is an address of 64 bits. -/
def EndsAbove (sym : σ) (offset : Address) : Prop :=
  offset.toNat < ((Extent.virtualAddress sym).toNat + Extent.size sym) % 2 ^ 64

instance (sym : σ) (offset : Address) : Decidable (EndsAbove sym offset) :=
  inferInstanceAs (Decidable (_ < _))

end Extents

/-! ## The lookup -/

namespace SymbolMap

variable {σ : Type} [Extent σ]

/-- The lookup with its iterator: `none` if the end is dereferenced, and `some none` if the symbol
does not contain the offset. -/
def lookUp (m : SymbolMap σ) (offset : Address) : Option (Option σ) :=
  (floor m.symbols.keys offset.toNat).recTopCoe none fun key =>
    (m.symbols.lookup key).map fun sym =>
      if offset < Extent.virtualAddress sym ||
          Extent.virtualAddress sym + BitVec.ofNat 64 (Extent.size sym) ≤ offset then none
      else some sym

variable {m : SymbolMap σ} {offset : Address} {sym : σ} {key : ℕ}

theorem exists_lookup_of_mem (h : key ∈ m.symbols.keys) :
    ∃ sym, m.symbols.lookup key = some sym :=
  Finmap.mem_iff.mp (Finmap.mem_keys.mp h)

theorem lookup_enter (m : SymbolMap σ) (sym : σ) :
    (m.enter sym).symbols.lookup (Extent.virtualAddress sym).toNat = some sym :=
  Finmap.lookup_insert m.symbols

theorem lookup_enter_of_ne (m : SymbolMap σ) (h : (Extent.virtualAddress sym).toNat ≠ key) :
    (m.enter sym).symbols.lookup key = m.symbols.lookup key :=
  Finmap.lookup_insert_of_ne m.symbols h.symm

/-- The end is dereferenced exactly if there are no symbols. -/
theorem lookUp_eq_none_iff : m.lookUp offset = none ↔ m.symbols.keys = ∅ := by
  rw [lookUp]
  cases hfloor : floor m.symbols.keys offset.toNat with
  | top => exact iff_of_true rfl (floor_eq_top_iff.mp hfloor)
  | coe key =>
      have hmem := mem_of_floor_eq_coe hfloor
      obtain ⟨sym, hsym⟩ := exists_lookup_of_mem hmem
      rw [WithTop.recTopCoe_coe, hsym]
      exact iff_of_false (by simp) (Finset.ne_empty_of_mem hmem)

theorem not_outside_iff (sym : σ) (offset : Address) :
    (offset < Extent.virtualAddress sym ||
        Extent.virtualAddress sym + BitVec.ofNat 64 (Extent.size sym) ≤ offset) = false ↔
      (Extent.virtualAddress sym).toNat ≤ offset.toNat ∧ EndsAbove sym offset := by
  rw [Bool.or_eq_false_iff, decide_eq_false_iff_not, decide_eq_false_iff_not, BitVec.lt_def,
    BitVec.le_def, not_lt, not_le, BitVec.toNat_add, BitVec.toNat_ofNat, Nat.add_mod_mod, EndsAbove]

/-- The lookup succeeds exactly with the symbol that starts nearest in front of the offset, if it
ends behind it. -/
theorem lookUp_eq_some_iff : m.lookUp offset = some (some sym) ↔
    ∃ key, IsGreatest {b | b ∈ m.symbols.keys ∧ b ≤ offset.toNat} key ∧
      m.symbols.lookup key = some sym ∧ EndsAbove sym offset := by
  rw [lookUp]
  constructor
  · intro h
    cases hfloor : floor m.symbols.keys offset.toNat with
    | top => simp [hfloor] at h
    | coe key =>
        rw [hfloor, WithTop.recTopCoe_coe, Option.map_eq_some_iff] at h
        obtain ⟨sym', hsym, htest⟩ := h
        split at htest
        · cases htest
        · rename_i hinside
          obtain rfl := Option.some.inj htest
          rw [Bool.not_eq_true, not_outside_iff, m.keyed key sym' hsym] at hinside
          exact ⟨key, isGreatest_of_floor_eq_coe hfloor hinside.1, hsym, hinside.2⟩
  · rintro ⟨key, hkey, hsym, hend⟩
    have hinside := (not_outside_iff sym offset).mpr
      ⟨(m.keyed key sym hsym).trans_le hkey.1.2, hend⟩
    rw [floor_of_isGreatest hkey, WithTop.recTopCoe_coe, hsym, Option.map_some, hinside]
    rfl

theorem encloses_of_lookUp (h : m.lookUp offset = some (some sym)) : Encloses sym offset := by
  obtain ⟨key, hkey, hsym, hend⟩ := lookUp_eq_some_iff.mp h
  exact ⟨(m.keyed key sym hsym).trans_le hkey.1.2, hend.trans_le (Nat.mod_le _ _)⟩

theorem before_eq (m : SymbolMap σ) (offset : Address) :
    m.before offset =
      (floor m.symbols.keys offset.toNat).recTopCoe none fun key => m.symbols.lookup key := by
  unfold before
  dsimp only
  split_ifs with hbelow hkeys
  · have hgreatest := Finset.isGreatest_max' _ hbelow
    rw [Finset.coe_filter] at hgreatest
    rw [floor_of_isGreatest hgreatest, WithTop.recTopCoe_coe]
  · have habove : ∀ b ∈ m.symbols.keys, offset.toNat < b := by
      intro b hb
      by_contra hle
      exact hbelow ⟨b, Finset.mem_filter.mpr ⟨hb, not_lt.mp hle⟩⟩
    rw [floor_of_forall_lt habove, first, ← Finset.coe_min' hkeys, WithTop.recTopCoe_coe]
  · rw [floor_eq_top_iff.mpr (Finset.not_nonempty_iff_eq_empty.mp hkeys), WithTop.recTopCoe_top]

/-- `enclosing` does not tell the two ways to fail apart. -/
theorem enclosing_eq_join (m : SymbolMap σ) (offset : Address) :
    m.enclosing offset = (m.lookUp offset).join := by
  rw [enclosing, before_eq, lookUp]
  cases floor m.symbols.keys offset.toNat with
  | top => rfl
  | coe key =>
      rw [WithTop.recTopCoe_coe, WithTop.recTopCoe_coe]
      cases m.symbols.lookup key with
      | none => rfl
      | some sym =>
          rw [Option.map_some, Option.join_some, Option.filter_some]
          cases offset < Extent.virtualAddress sym ||
            Extent.virtualAddress sym + BitVec.ofNat 64 (Extent.size sym) ≤ offset <;> rfl

end SymbolMap

/-! ## The symbols of a section -/

def ElfContents.rows : ElfContents → List ElfEntry
  | .symtab symbols => symbols
  | .rela .. | .other => []

/-- The row is entered into the map of its section. -/
def ElfEntry.isSymbol (row : ElfEntry) : Bool := row.type ≠ .kSection && row.type ≠ .kFile

/-- The rows that are entered into the map of a section. -/
def rowsIn (sectionIndex : ℕ) (rows : List ElfEntry) : List ElfEntry :=
  rows.filter fun row => row.isSymbol && row.sectionIndex = sectionIndex

/-- Of the rows that start nearest in front of the offset, the last one. -/
def nearestRow (rows : List ElfEntry) (offset : Address) : Option ElfEntry :=
  let below := rows.filter fun row => row.value ≤ offset
  (below.filter fun row => below.all fun row' => row'.value ≤ row.value).getLast?

/-- The symbol of a row, up to the hash of its file. -/
def ElfSymbol.withoutHash (sym : ElfSymbol) : ElfSymbol := { sym with hash := 0 }

namespace ElfProgramInfoLoader

open ObjectScan

/-- The map of every section has the last of the rows with each address. -/
structure Scanned (n : ℕ) (rows : List ElfEntry) (s : ObjectScan) : Prop where
  length : s.symbolsInSections.length = n
  lookup : ∀ i < n, ∀ a, ((s.symbolsOf i).symbols.lookup a).map ElfSymbol.withoutHash =
    ((rowsIn i rows).filter fun row => row.value.toNat = a).getLast?.map (ElfEntry.elfSymbol 0)

variable {stringHasher : String → UInt64} {n : ℕ} {rows : List ElfEntry} {s : ObjectScan}

theorem rowsIn_concat_of_not (i : ℕ) (rows : List ElfEntry) {row : ElfEntry}
    (h : ¬ (row.isSymbol = true ∧ row.sectionIndex = i)) :
    rowsIn i (rows ++ [row]) = rowsIn i rows := by
  rw [rowsIn, List.filter_append, List.filter_cons_of_neg (by simpa using h), List.filter_nil,
    List.append_nil]
  rfl

theorem rowsIn_concat (rows : List ElfEntry) {row : ElfEntry} (h : row.isSymbol = true) :
    rowsIn row.sectionIndex (rows ++ [row]) = rowsIn row.sectionIndex rows ++ [row] := by
  rw [rowsIn, List.filter_append, List.filter_cons_of_pos (by simpa using h), List.filter_nil]
  rfl

theorem symbolsOf_modify (s : ObjectScan) {i : ℕ} (j : ℕ) (hi : i < s.symbolsInSections.length)
    (f : SymbolMap ElfSymbol → SymbolMap ElfSymbol) :
    (s.symbolsInSections.modify j f).getD i .empty =
      if j = i then f (s.symbolsOf i) else s.symbolsOf i := by
  rw [symbolsOf, List.getD_eq_getElem?_getD, List.getD_eq_getElem?_getD, List.getElem?_modify,
    List.getElem?_eq_getElem hi]
  split <;> rfl

namespace Scanned

/-- A row that is not entered. -/
theorem skip (h : Scanned n rows s) {s' : ObjectScan} {row : ElfEntry}
    (hs : s'.symbolsInSections = s.symbolsInSections) (hrow : row.isSymbol = false) :
    Scanned n (rows ++ [row]) s' where
  length := hs ▸ h.length
  lookup i hi a := by
    rw [rowsIn_concat_of_not i rows (by simp [hrow]), symbolsOf, hs]
    exact h.lookup i hi a

/-- A row that is entered. -/
theorem enter (h : Scanned n rows s) {s' : ObjectScan} {row : ElfEntry} (hash : UInt64)
    (hs : s'.symbolsInSections = s.symbolsInSections.modify row.sectionIndex
      fun symbols => symbols.enter (row.elfSymbol hash))
    (hrow : row.isSymbol = true) : Scanned n (rows ++ [row]) s' where
  length := by rw [hs, List.length_modify, h.length]
  lookup i hi a := by
    rw [symbolsOf, hs, symbolsOf_modify s _ (h.length ▸ hi)]
    split
    · rename_i hsection
      subst hsection
      rw [rowsIn_concat rows hrow, List.filter_append]
      by_cases ha : row.value.toNat = a
      · subst ha
        rw [List.filter_cons_of_pos (by simp), List.filter_nil, List.getLast?_concat]
        exact congrArg (Option.map _) (SymbolMap.lookup_enter _ (row.elfSymbol hash))
      · rw [List.filter_cons_of_neg (by simpa using ha), List.filter_nil, List.append_nil,
          ← h.lookup _ hi a, SymbolMap.lookup_enter_of_ne _ ha]
    · rename_i hsection
      rw [rowsIn_concat_of_not i rows fun hrow => hsection hrow.2]
      exact h.lookup i hi a

/-- One more row. -/
theorem addEntry (h : Scanned n rows s) (entry : ElfEntry × ℕ) :
    Scanned n (rows ++ [entry.1]) (ObjectScan.addEntry stringHasher s entry) := by
  obtain ⟨row, j⟩ := entry
  unfold ObjectScan.addEntry
  dsimp only
  split_ifs with hsection hfile
  · exact h.skip rfl (by simp [ElfEntry.isSymbol, hsection])
  · exact h.skip rfl (by simp [ElfEntry.isSymbol, hfile])
  · exact h.enter _ rfl (by simp [ElfEntry.isSymbol, hsection, hfile])
  · exact h.enter _ rfl (by simp [ElfEntry.isSymbol, hsection, hfile])

/-- The rows of a table. -/
theorem foldl_addEntry (h : Scanned n rows s) (entries : List (ElfEntry × ℕ)) :
    Scanned n (rows ++ entries.map Prod.fst)
      (entries.foldl (ObjectScan.addEntry stringHasher) s) := by
  induction entries generalizing rows s with
  | nil => simpa using h
  | cons entry entries ih =>
      rw [List.map_cons, ← List.singleton_append, ← List.append_assoc, List.foldl_cons]
      exact ih (h.addEntry entry)

theorem addName (h : Scanned n rows s) (name : String) (i : ℕ) :
    Scanned n rows (s.addName name i) := by
  have hsymbols : (s.addName name i).symbolsInSections = s.symbolsInSections := by
    unfold ObjectScan.addName
    split_ifs <;> rfl
  refine ⟨hsymbols ▸ h.length, fun i hi a => ?_⟩
  rw [symbolsOf, hsymbols]
  exact h.lookup i hi a

theorem addSection (h : Scanned n rows s) (entry : ElfObjectSection × ℕ) :
    Scanned n (rows ++ entry.1.contents.rows) (s.addSection stringHasher entry) := by
  have hname := h.addName entry.1.name entry.2
  unfold ObjectScan.addSection
  dsimp only
  cases entry.1.contents with
  | symtab symbols => simpa [ElfContents.rows] using hname.foldl_addEntry symbols.zipIdx
  | rela info entries => simpa [ElfContents.rows] using hname
  | other => simpa [ElfContents.rows] using hname

theorem foldl_addSection (h : Scanned n rows s) (entries : List (ElfObjectSection × ℕ)) :
    Scanned n (rows ++ entries.flatMap fun entry => entry.1.contents.rows)
      (entries.foldl (ObjectScan.addSection stringHasher) s) := by
  induction entries generalizing rows s with
  | nil => simpa using h
  | cons entry entries ih =>
      rw [List.flatMap_cons, ← List.append_assoc, List.foldl_cons]
      exact ih (h.addSection entry)

end Scanned

end ElfProgramInfoLoader

namespace ElfObject

open ElfProgramInfoLoader

variable (stringHasher : String → UInt64) (o : ElfObject)

def rows : List ElfEntry := o.sections.flatMap fun sec => sec.contents.rows

theorem scanned_scan : Scanned o.sections.length o.rows (o.scan stringHasher) := by
  have hstart : Scanned o.sections.length []
      { symbolsInSections := List.replicate o.sections.length .empty } := by
    refine ⟨List.length_replicate, fun i hi a => ?_⟩
    rw [ObjectScan.symbolsOf, List.getD_eq_getElem?_getD, List.getElem?_replicate, if_pos hi]
    rfl
  have hrows : o.sections.zipIdx.flatMap (fun entry => entry.1.contents.rows) = o.rows := by
    conv_rhs => rw [rows, ← List.zipIdx_map_fst 0 o.sections, List.flatMap_map]
  rw [← List.nil_append o.rows, ← hrows]
  exact hstart.foldl_addSection o.sections.zipIdx

/-- The symbols of a section. An index behind the last section is the one of none. -/
def symbolRows (i : ℕ) : List ElfEntry := if i < o.sections.length then rowsIn i o.rows else []

theorem lookup_scan (i a : ℕ) :
    (((o.scan stringHasher).symbolsOf i).symbols.lookup a).map ElfSymbol.withoutHash =
      ((o.symbolRows i).filter fun row => row.value.toNat = a).getLast?.map
        (ElfEntry.elfSymbol 0) := by
  have hscanned := o.scanned_scan stringHasher
  unfold symbolRows
  split
  · rename_i hi
    exact hscanned.lookup i hi a
  · rename_i hi
    rw [ObjectScan.symbolsOf, List.getD_eq_getElem?_getD,
      List.getElem?_eq_none (hscanned.length ▸ not_lt.mp hi)]
    rfl

variable {stringHasher o} {i : ℕ} {offset : Address}

/-- Every key is the address of a row. -/
theorem mem_keys_scan_iff {key : ℕ} :
    key ∈ ((o.scan stringHasher).symbolsOf i).symbols.keys ↔
      ∃ row ∈ o.symbolRows i, row.value.toNat = key := by
  have hlookup := congrArg Option.isSome (o.lookup_scan stringHasher i key)
  rw [Option.isSome_map, Option.isSome_map] at hlookup
  rw [Finmap.mem_keys, ← Finmap.lookup_isSome, hlookup, List.getLast?_isSome]
  simp [List.filter_eq_nil_iff]

theorem nearestRow_of_isGreatest {rows : List ElfEntry} {key : ℕ}
    (h : IsGreatest {b | (∃ row ∈ rows, row.value.toNat = b) ∧ b ≤ offset.toNat} key) :
    nearestRow rows offset = (rows.filter fun row => row.value.toNat = key).getLast? := by
  obtain ⟨⟨⟨row₀, hrow₀, hkey⟩, hle⟩, hgreatest⟩ := h
  unfold nearestRow
  dsimp only
  rw [List.filter_filter]
  congr 1
  refine List.filter_congr fun row hrow => ?_
  rw [Bool.eq_iff_iff, Bool.and_eq_true, List.all_eq_true, decide_eq_true_iff, decide_eq_true_iff]
  constructor
  · rintro ⟨hnearest, hrowle⟩
    have hmem : row₀ ∈ rows.filter fun row => row.value ≤ offset := by
      simpa [hrow₀, BitVec.le_def, hkey] using hle
    have hle₀ := of_decide_eq_true (hnearest row₀ hmem)
    rw [BitVec.le_def, hkey] at hle₀
    exact le_antisymm (hgreatest ⟨⟨row, hrow, rfl⟩, hrowle⟩) hle₀
  · intro heq
    refine ⟨fun row' hrow' => ?_, heq.trans_le hle⟩
    obtain ⟨hrow', hle'⟩ := List.mem_filter.mp hrow'
    rw [decide_eq_true_iff, BitVec.le_def, heq]
    exact hgreatest ⟨⟨row', hrow', rfl⟩, of_decide_eq_true hle'⟩

theorem mem_of_nearestRow {rows : List ElfEntry} {near : ElfEntry}
    (h : nearestRow rows offset = some near) :
    near ∈ rows ∧ near.value.toNat ≤ offset.toNat := by
  obtain ⟨hmem, _⟩ := List.mem_filter.mp (List.mem_of_getLast? h)
  obtain ⟨hrow, hle⟩ := List.mem_filter.mp hmem
  exact ⟨hrow, of_decide_eq_true hle⟩

/-- The lookup among the symbols of a section succeeds exactly if the nearest row ends behind the
offset. -/
theorem exists_lookUp_iff :
    (∃ sym, ((o.scan stringHasher).symbolsOf i).lookUp offset = some (some sym)) ↔
      ∃ near, nearestRow (o.symbolRows i) offset = some near ∧ EndsAbove near offset := by
  simp only [SymbolMap.lookUp_eq_some_iff]
  constructor
  · rintro ⟨sym, key, hkey, hsym, hend⟩
    have hrow := o.lookup_scan stringHasher i key
    simp only [mem_keys_scan_iff] at hkey
    rw [hsym, ← nearestRow_of_isGreatest hkey, Option.map_some, eq_comm,
      Option.map_eq_some_iff] at hrow
    obtain ⟨near, hnear, heq⟩ := hrow
    have hend' : EndsAbove sym.withoutHash offset := hend
    rw [← heq] at hend'
    exact ⟨near, hnear, hend'⟩
  · rintro ⟨near, hnear, hend⟩
    obtain ⟨hmem, hle⟩ := mem_of_nearestRow hnear
    obtain ⟨key, hkey⟩ := exists_isGreatest
      ⟨near.value.toNat, mem_keys_scan_iff.mpr ⟨near, hmem, rfl⟩, hle⟩
    have hrow := o.lookup_scan stringHasher i key
    have hkey' := hkey
    simp only [mem_keys_scan_iff] at hkey'
    rw [← nearestRow_of_isGreatest hkey', hnear, Option.map_some, Option.map_eq_some_iff] at hrow
    obtain ⟨sym, hsym, heq⟩ := hrow
    have hend' : EndsAbove (near.elfSymbol 0) offset := hend
    rw [← heq] at hend'
    exact ⟨sym, key, hkey, hsym, hend'⟩

theorem lookUp_scan_eq_none_iff :
    ((o.scan stringHasher).symbolsOf i).lookUp offset = none ↔ o.symbolRows i = [] := by
  rw [SymbolMap.lookUp_eq_none_iff, Finset.eq_empty_iff_forall_notMem,
    List.eq_nil_iff_forall_not_mem]
  simp only [mem_keys_scan_iff, not_exists, not_and]
  exact ⟨fun h row hrow => h _ row hrow rfl, fun h _ row hrow => absurd hrow (h row)⟩

/-! ## The function of an offset -/

variable (stringHasher o)

def textRows : List ElfEntry := o.symbolRows (o.scan stringHasher).textInfo

/-- The lookup of the function that a relocation of `.text` belongs to. -/
def target (offset : Address) : Option (Option ElfSymbol) :=
  let s := o.scan stringHasher
  (s.symbolsOf s.textInfo).lookUp offset

/-- The lookup does not dereference the end, and succeeds exactly if a symbol of `.text` contains
the offset, with a symbol that contains it. -/
structure FindsTarget (offset : Address) : Prop where
  dereferenceable : o.target stringHasher offset ≠ none
  succeeds_iff : (∃ sym, o.target stringHasher offset = some (some sym)) ↔
    ∃ row ∈ o.textRows stringHasher, Encloses row offset
  encloses : ∀ sym, o.target stringHasher offset = some (some sym) → Encloses sym offset

variable {stringHasher o}

/-- The target of a relocation is the result of the lookup. -/
theorem target_of_reference {e : ElfRela} {ref : ElfReference}
    (h : o.reference stringHasher (o.scan stringHasher).textInfo e = .ok ref) :
    o.target stringHasher e.offset = some (some ref.target) := by
  have hfound := (found_of_reference h).2
  rw [SymbolMap.enclosing_eq_join, Option.join_eq_some_iff] at hfound
  exact hfound

/-- The lookup is right exactly if `.text` has a symbol, and if the nearest one in front of the
offset ends behind it whenever some symbol contains the offset. -/
theorem findsTarget_iff (o : ElfObject) (offset : Address) :
    o.FindsTarget stringHasher offset ↔ o.textRows stringHasher ≠ [] ∧
      ((∃ row ∈ o.textRows stringHasher, Encloses row offset) →
        ∃ near, nearestRow (o.textRows stringHasher) offset = some near ∧
          EndsAbove near offset) := by
  constructor
  · rintro ⟨hdereferenceable, hsucceeds, _⟩
    refine ⟨mt lookUp_scan_eq_none_iff.mpr hdereferenceable, fun hrow => ?_⟩
    exact exists_lookUp_iff.mp (hsucceeds.mpr hrow)
  · rintro ⟨hrows, hnearest⟩
    refine ⟨mt lookUp_scan_eq_none_iff.mp hrows, ⟨fun hsym => ?_, fun hrow => ?_⟩, ?_⟩
    · obtain ⟨near, hnear, hend⟩ := exists_lookUp_iff.mp hsym
      obtain ⟨hmem, hle⟩ := mem_of_nearestRow hnear
      exact ⟨near, hmem, hle, hend.trans_le (Nat.mod_le _ _)⟩
    · exact exists_lookUp_iff.mpr (hnearest hrow)
    · exact fun sym => SymbolMap.encloses_of_lookUp

/-- An object with a variable that is referenced at the offset `6`, and these symbols of `.text`. -/
def withText (symbols : List ElfEntry) : ElfObject where
  sections :=
    [⟨"", .other⟩, ⟨".text", .other⟩, ⟨".rela.text", .rela 1 [⟨6, 1, rX8664Pc32, -4⟩]⟩,
      ⟨".bss", .other⟩,
      ⟨".symtab", .symtab ([{ name := "", bind := .kLocal, type := .kNo }, bssSymbol,
        bssVariable "a" 0] ++ symbols)⟩]

def longFunction : ElfEntry :=
  { name := "f", size := 16, bind := .kGlobal, type := .kFunction, sectionIndex := 1 }

def innerLabel : ElfEntry :=
  { name := "again", value := 4, bind := .kLocal, type := .kNo, sectionIndex := 1 }

/-- Without symbols the end is dereferenced, and the label hides the function. -/
theorem withText_not_findsTarget :
    (withText []).target ElfImage.lengthHasher 6 = none ∧
      (withText [longFunction, innerLabel]).target ElfImage.lengthHasher 6 = some none ∧
      longFunction ∈ (withText [longFunction, innerLabel]).textRows ElfImage.lengthHasher ∧
      Encloses longFunction 6 ∧
      ¬ (withText []).FindsTarget ElfImage.lengthHasher 6 ∧
      ¬ (withText [longFunction, innerLabel]).FindsTarget ElfImage.lengthHasher 6 := by
  have hend : (withText []).target ElfImage.lengthHasher 6 = none := by decide +kernel
  have hhidden : (withText [longFunction, innerLabel]).target ElfImage.lengthHasher 6 =
      some none := by
    decide +kernel
  have hmem : longFunction ∈ (withText [longFunction, innerLabel]).textRows
      ElfImage.lengthHasher := by
    decide +kernel
  have hencloses : Encloses longFunction 6 := by decide
  refine ⟨hend, hhidden, hmem, hencloses, fun h => h.dereferenceable hend, fun h => ?_⟩
  obtain ⟨sym, hsym⟩ := h.succeeds_iff.mpr ⟨longFunction, hmem, hencloses⟩
  exact absurd (hhidden.symm.trans hsym) (by simp)

end ElfObject

end JetLive

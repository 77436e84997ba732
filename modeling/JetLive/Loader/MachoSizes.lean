import JetLive.Library.SortedKeys
import JetLive.Loader.MachoVariables

/-!
# The sizes of Mach-O symbols

A Mach-O symbol has no size of its own. The loader collects the addresses of the symbols of each
section, with the end of the section, and lets a symbol end at the next of these bounds. An entry
counts as a symbol of a section by the bits `N_TYPE` of its type alone, and some stabs have the
same bits: `N_BNSYM`, `N_ENSYM` and `N_LENG`. Their values become bounds as well, so a symbol ends
at a stab in front of the next symbol (`sizesTile_iff`).
-/

namespace JetLive

open MachoProgramInfoLoader SortedKeys

theorem mem_of_lookup_eq_some {α β : Type*} [BEq α] [LawfulBEq α] {l : List (α × β)} {a : α} {b : β}
    (h : l.lookup a = some b) : (a, b) ∈ l := by
  obtain ⟨l₁, l₂, rfl, _⟩ := List.lookup_eq_some_iff.mp h
  simp

/-- The symbols of sections are told apart from the stabs in the third pass. -/
theorem Nlist.symbolType_eq_kSection_iff (n : Nlist) :
    n.symbolType = some .kSection ↔ n.stab = 0 ∧ n.typeBits = 0xe := by
  have hstabs : ∀ p ∈ stabTypes, p.2 ≠ .kSection := by decide
  have hsymbols : ∀ p ∈ symbolTypes, p.2 = .kSection → p.1 = 0xe := by decide
  unfold symbolType
  split
  · rename_i hstab
    refine iff_of_false (fun h => ?_) fun h => hstab h.1
    exact hstabs _ (mem_of_lookup_eq_some h) rfl
  · rename_i hstab
    rw [not_not] at hstab
    rw [and_iff_right hstab]
    constructor
    · intro h
      exact hsymbols _ (mem_of_lookup_eq_some h) rfl
    · intro h
      rw [h]
      rfl

/-! ## Bounds -/

namespace MachoProgramInfoLoader.Layout

/-- After the first pass the only bound of a section is its end. -/
structure HasEnds (sections : List MachoSection) (l : Layout) : Prop where
  sectionIndex : l.sectionIndex = sections.length
  length_le : l.symbolsBounds.length ≤ sections.length + 1
  bounds : ∀ j sec, sections[j]? = some sec →
    l.symbolsBounds[j + 1]? = some {(sec.addr + sec.size).toNat}

theorem HasEnds.addSection {sections : List MachoSection} {l : Layout} (h : HasEnds sections l)
    (sec : MachoSection) : HasEnds (sections ++ [sec]) (l.addSection sec) where
  sectionIndex := by simp [Layout.addSection, h.sectionIndex]
  length_le := by
    have hle := h.length_le
    simp only [Layout.addSection, List.length_modify, List.length_rightpad, h.sectionIndex,
      List.length_append, List.length_singleton]
    omega
  bounds j sec' hsec := by
    have hle := h.length_le
    simp only [Layout.addSection, List.getElem?_modify, List.rightpad, h.sectionIndex]
    rcases lt_trichotomy j sections.length with hj | rfl | hj
    · rw [List.getElem?_append_left hj] at hsec
      have hbounds := h.bounds j sec' hsec
      have hlt := (List.getElem?_eq_some_iff.mp hbounds).1
      rw [List.getElem?_append_left hlt, hbounds]
      simp [hj.ne']
    · rw [List.getElem?_concat_length] at hsec
      obtain rfl := Option.some.inj hsec
      rw [List.getElem?_append_right hle, List.getElem?_replicate, if_pos (by omega)]
      simp
    · rw [List.getElem?_eq_none (by simp; omega)] at hsec
      cases hsec

theorem hasEnds_foldl_addSection (sections : List MachoSection) :
    HasEnds sections (sections.foldl Layout.addSection {}) := by
  induction sections using List.reverseRecOn with
  | nil => exact ⟨rfl, Nat.zero_le _, by simp⟩
  | append_singleton sections sec ih =>
      rw [List.foldl_concat]
      exact ih.addSection sec

theorem getElem?_addBound {l : Layout} {i : ℕ} {bounds : Finset ℕ}
    (h : l.symbolsBounds[i]? = some bounds) (n : Nlist) :
    (l.addBound n).symbolsBounds[i]? = some
      (if n.typeBits = 0xe ∧ n.sect.toNat = i then insert n.value.toNat bounds else bounds) := by
  unfold Layout.addBound
  by_cases htype : n.typeBits = 0xe
  · rw [if_pos htype, List.getElem?_modify, h]
    simp only [htype, true_and]
    rfl
  · simp only [htype, false_and, if_false]
    exact h

end MachoProgramInfoLoader.Layout

/-- The addresses in a section at which there is an entry of some kind. -/
def addressesIn (kind : Nlist → Bool) (i : ℕ) (entries : List (List Char × Nlist)) : Finset ℕ :=
  ((entries.filter fun entry => kind entry.2 && entry.2.sect.toNat = i).map
    fun entry => entry.2.value.toNat).toFinset

theorem mem_addressesIn {kind : Nlist → Bool} {i a : ℕ} {entries : List (List Char × Nlist)} :
    a ∈ addressesIn kind i entries ↔ ∃ entry ∈ entries, kind entry.2 = true ∧
      entry.2.sect.toNat = i ∧ entry.2.value.toNat = a := by
  simp only [addressesIn, List.mem_toFinset, List.mem_map, List.mem_filter, Bool.and_eq_true,
    decide_eq_true_iff, and_assoc]

theorem addressesIn_concat (kind : Nlist → Bool) (i : ℕ) (entries : List (List Char × Nlist))
    (entry : List Char × Nlist) : addressesIn kind i (entries ++ [entry]) =
      if kind entry.2 = true ∧ entry.2.sect.toNat = i then
        insert entry.2.value.toNat (addressesIn kind i entries)
      else addressesIn kind i entries := by
  unfold addressesIn
  split
  · rename_i hentry
    rw [List.filter_append, List.filter_cons_of_pos (by simpa using hentry), List.filter_nil,
      List.map_append, List.toFinset_append, Finset.union_comm]
    simp
  · rename_i hentry
    rw [List.filter_append, List.filter_cons_of_neg (by simpa using hentry), List.filter_nil,
      List.append_nil]

/-- The entry has the bits of `N_SECT`. -/
def Nlist.hasSectionBits (n : Nlist) : Bool := n.typeBits = 0xe

def Nlist.isSection (n : Nlist) : Bool := n.symbolType = some .kSection

/-- A stab with the bits of `N_SECT`. -/
def Nlist.isSectionStab (n : Nlist) : Bool := n.stab ≠ 0 && n.typeBits = 0xe

/-- The second pass adds the values of all entries with the bits of `N_SECT`. -/
theorem getElem?_foldl_addBound {l : Layout} {i : ℕ} {ends : Finset ℕ}
    (h : l.symbolsBounds[i]? = some ends) (entries : List (List Char × Nlist)) :
    (entries.foldl (fun l entry => l.addBound entry.2) l).symbolsBounds[i]? =
      some (ends ∪ addressesIn Nlist.hasSectionBits i entries) := by
  induction entries using List.reverseRecOn with
  | nil => simpa [addressesIn] using h
  | append_singleton entries entry ih =>
      rw [List.foldl_concat, Layout.getElem?_addBound ih]
      rw [addressesIn_concat]
      simp only [Nlist.hasSectionBits, decide_eq_true_iff]
      split
      · rw [Finset.union_insert]
      · rfl

theorem addressesIn_hasSectionBits (i : ℕ) (entries : List (List Char × Nlist)) :
    addressesIn Nlist.hasSectionBits i entries =
      addressesIn Nlist.isSection i entries ∪ addressesIn Nlist.isSectionStab i entries := by
  ext a
  simp only [Finset.mem_union, mem_addressesIn, ← exists_or, ← and_or_left, ← or_and_right]
  refine exists_congr fun entry => and_congr_right fun _ => and_congr_left fun _ => ?_
  simp only [Nlist.hasSectionBits, Nlist.isSection, Nlist.isSectionStab,
    Nlist.symbolType_eq_kSection_iff, Bool.and_eq_true, decide_eq_true_iff]
  tauto

theorem addressesIn_lt {kind : Nlist → Bool} {i a : ℕ} {entries : List (List Char × Nlist)}
    (h : a ∈ addressesIn kind i entries) : a < 2 ^ 64 := by
  obtain ⟨entry, _, _, _, rfl⟩ := mem_addressesIn.mp h
  exact entry.2.value.isLt

/-! ## Sizes -/

theorem size_machoSymbol (layout : Layout) (stringTable : List Char) (n : Nlist) (hash : UInt64) :
    (machoSymbol layout stringTable n .kSection hash).size =
      (upperBound (layout.symbolsBounds.getD n.sect.toNat ∅) n.value.toNat).untopD
        n.value.toNat - n.value.toNat := by
  rw [machoSymbol, symbolSize, if_pos rfl, Layout.nextBound]
  dsimp only
  split
  · rename_i habove
    rw [upperBound, ← Finset.coe_min' habove]
    rfl
  · rename_i habove
    rw [upperBound, Finset.not_nonempty_iff_eq_empty.mp habove]
    exact (Nat.sub_self _).symm

section Bounds

variable {symbols stabs : Finset ℕ} {a sectionEnd next : ℕ}

/-- The next bound above the address, without the stabs. -/
structure IsNext (symbols : Finset ℕ) (a sectionEnd next : ℕ) : Prop where
  le : a ≤ next
  mem : next ∈ symbols ∧ a < next ∨ next = sectionEnd
  le_symbol : ∀ b ∈ symbols, a < b → next ≤ b
  le_end : next ≤ sectionEnd
  symbol_le_end : ∀ b ∈ symbols, b ≤ sectionEnd

theorem isNext_untopD (hle : a ≤ sectionEnd) (hsymbols : ∀ b ∈ symbols, b ≤ sectionEnd) :
    IsNext symbols a sectionEnd ((upperBound symbols a).untopD sectionEnd) := by
  rcases untopD_upperBound_cases symbols a sectionEnd with ⟨⟨hmem, hlt⟩, hleast⟩ | ⟨heq, hnone⟩
  · exact ⟨hlt.le, .inl ⟨hmem, hlt⟩, fun b hb hab => hleast ⟨hb, hab⟩, hsymbols _ hmem, hsymbols⟩
  · rw [heq]
    exact ⟨hle, .inr rfl, fun b hb hab => absurd (hnone b hb) (not_le.mpr hab), le_rfl, hsymbols⟩

/-- The bounds with the stabs have the same next one exactly if no stab comes before it. The end is
an address of 64 bits. -/
theorem IsNext.untopD_bounds_iff (h : IsNext symbols a sectionEnd next) (ha : a < 2 ^ 64)
    (hsymbols : ∀ b ∈ symbols, b < 2 ^ 64) (hstabs : ∀ b ∈ stabs, b < 2 ^ 64)
    (hwrap : 2 ^ 64 ≤ sectionEnd → sectionEnd % 2 ^ 64 ≤ a) :
    (upperBound ({sectionEnd % 2 ^ 64} ∪ (symbols ∪ stabs)) a).untopD a = next ↔
      next < 2 ^ 64 ∧ ∀ b ∈ stabs, b ≤ a ∨ a < next ∧ next ≤ b := by
  set bounds := {sectionEnd % 2 ^ 64} ∪ (symbols ∪ stabs) with hbounds
  have hmem : ∀ b, b ∈ bounds ↔ b = sectionEnd % 2 ^ 64 ∨ b ∈ symbols ∨ b ∈ stabs := by
    simp [hbounds]
  rw [untopD_upperBound_eq_iff]
  constructor
  · rintro (⟨⟨hnext, hlt⟩, hleast⟩ | ⟨rfl, hnone⟩)
    · refine ⟨?_, fun b hb => ?_⟩
      · rcases (hmem next).mp hnext with rfl | hnext | hnext
        · exact Nat.mod_lt _ (by decide)
        · exact hsymbols next hnext
        · exact hstabs next hnext
      · rw [or_iff_not_imp_left, not_le]
        exact fun hab => ⟨hlt, hleast ⟨(hmem b).mpr (.inr (.inr hb)), hab⟩⟩
    · exact ⟨ha, fun b hb => .inl (hnone b ((hmem b).mpr (.inr (.inr hb))))⟩
  · rintro ⟨hnext, hstab⟩
    rcases h.le.lt_or_eq with hlt | rfl
    · refine .inl ⟨⟨(hmem next).mpr ?_, hlt⟩, fun b hb => ?_⟩
      · rcases h.mem with ⟨hsymbol, _⟩ | rfl
        · exact .inr (.inl hsymbol)
        · exact .inl (Nat.mod_eq_of_lt hnext).symm
      · rcases (hmem b).mp hb.1 with rfl | hsymbol | hmem
        · by_cases hend : 2 ^ 64 ≤ sectionEnd
          · exact absurd (hwrap hend) (not_le.mpr hb.2)
          · exact h.le_end.trans_eq (Nat.mod_eq_of_lt (not_le.mp hend)).symm
        · exact h.le_symbol b hsymbol hb.2
        · exact ((hstab b hmem).resolve_left (not_le.mpr hb.2)).2
    · -- the address is the end of the section
      obtain rfl := h.mem.resolve_left fun hlt => lt_irrefl a hlt.2
      refine .inr ⟨rfl, fun b hb => ?_⟩
      rcases (hmem b).mp hb with rfl | hsymbol | hmem
      · exact Nat.mod_le _ _
      · exact h.symbol_le_end b hsymbol
      · exact (hstab b hmem).resolve_right fun hlt => lt_irrefl a hlt.1

end Bounds

namespace MachoImage

variable (image : MachoImage)

def sectionOf (n : Nlist) : Option MachoSection :=
  if n.sect = 0 then none else image.sections[n.sect.toNat - 1]?

def symbolAddresses (n : Nlist) : Finset ℕ :=
  addressesIn Nlist.isSection n.sect.toNat image.entries

/-- The values of the stabs that count as symbols of the section of an entry. -/
def stabAddresses (n : Nlist) : Finset ℕ :=
  addressesIn Nlist.isSectionStab n.sect.toNat image.entries

/-- Where a symbol of a section should end: at the next symbol of the section, or at its end. -/
def symbolEnd (n : Nlist) (sec : MachoSection) : ℕ :=
  (upperBound (image.symbolAddresses n) n.value.toNat).untopD (sec.addr.toNat + sec.size.toNat)

def SymbolsWithin : Prop :=
  ∀ entry ∈ image.entries, entry.2.symbolType = some .kSection →
    ∃ sec, image.sectionOf entry.2 = some sec ∧ sec.addr.toNat ≤ entry.2.value.toNat ∧
      entry.2.value.toNat ≤ sec.addr.toNat + sec.size.toNat

instance : Decidable image.SymbolsWithin :=
  inferInstanceAs (Decidable (∀ entry ∈ image.entries, entry.2.symbolType = some .kSection →
    ∃ sec ∈ image.sectionOf entry.2, sec.addr.toNat ≤ entry.2.value.toNat ∧
      entry.2.value.toNat ≤ sec.addr.toNat + sec.size.toNat))

/-- No stab has its value between a symbol of its section and the end of the symbol, and the end
is an address of 64 bits. -/
def StabsApart : Prop :=
  ∀ entry ∈ image.entries, entry.2.symbolType = some .kSection →
    ∀ sec ∈ image.sectionOf entry.2,
      image.symbolEnd entry.2 sec < 2 ^ 64 ∧ ∀ a ∈ image.stabAddresses entry.2,
        a ≤ entry.2.value.toNat ∨
          entry.2.value.toNat < image.symbolEnd entry.2 sec ∧ image.symbolEnd entry.2 sec ≤ a

instance : Decidable image.StabsApart := by
  unfold StabsApart
  infer_instance

def withoutStabs : MachoImage where
  baseAddress := image.baseAddress
  commands := image.commands.map fun
    | .symtab stringTable symbols => .symtab stringTable (symbols.filter fun n => n.stab = 0)
    | .segment sections => .segment sections
    | .other => .other

/-- The size of a symbol is the distance to where it should end, and the same without the stabs. -/
structure SizesTile : Prop where
  size_eq : ∀ entry ∈ image.entries, entry.2.symbolType = some .kSection →
    ∀ sec, image.sectionOf entry.2 = some sec → ∀ hash,
      (machoSymbol image.layout entry.1 entry.2 .kSection hash).size =
        image.symbolEnd entry.2 sec - entry.2.value.toNat
  size_withoutStabs : ∀ entry ∈ image.entries, entry.2.symbolType = some .kSection → ∀ hash,
    (machoSymbol image.layout entry.1 entry.2 .kSection hash).size =
      (machoSymbol image.withoutStabs.layout entry.1 entry.2 .kSection hash).size

variable {image} {n : Nlist} {sec : MachoSection}

theorem bounds_layout (h : image.sectionOf n = some sec) :
    image.layout.symbolsBounds.getD n.sect.toNat ∅ =
      {(sec.addr + sec.size).toNat} ∪ (image.symbolAddresses n ∪ image.stabAddresses n) := by
  unfold sectionOf at h
  split at h
  · cases h
  · rename_i hsect
    have hindex : n.sect.toNat - 1 + 1 = n.sect.toNat := by
      have hpos : n.sect.toNat ≠ 0 := fun hzero => hsect (UInt8.toNat_inj.mp hzero)
      omega
    have hends := (Layout.hasEnds_foldl_addSection image.sections).bounds _ sec h
    rw [hindex] at hends
    rw [layout_eq_foldl, List.getD_eq_getElem?_getD, getElem?_foldl_addBound hends,
      addressesIn_hasSectionBits]
    rfl

/-- One symbol ends where it should exactly if no stab counts as a symbol in front of that. -/
theorem SymbolsWithin.size_eq_iff (h : image.SymbolsWithin) {entry : List Char × Nlist}
    (hentry : entry ∈ image.entries) (htype : entry.2.symbolType = some .kSection)
    (hsec : image.sectionOf entry.2 = some sec) (hash : UInt64) :
    (machoSymbol image.layout entry.1 entry.2 .kSection hash).size =
        image.symbolEnd entry.2 sec - entry.2.value.toNat ↔
      image.symbolEnd entry.2 sec < 2 ^ 64 ∧ ∀ a ∈ image.stabAddresses entry.2,
        a ≤ entry.2.value.toNat ∨
          entry.2.value.toNat < image.symbolEnd entry.2 sec ∧ image.symbolEnd entry.2 sec ≤ a := by
  have hwithin : ∀ a ∈ image.symbolAddresses entry.2,
      sec.addr.toNat ≤ a ∧ a ≤ sec.addr.toNat + sec.size.toNat := by
    intro a ha
    obtain ⟨entry', hentry', htype', hsect, rfl⟩ := mem_addressesIn.mp ha
    obtain ⟨sec', hsec', hbetween⟩ := h entry' hentry' (of_decide_eq_true htype')
    rw [sectionOf, UInt8.toNat_inj.mp hsect, ← sectionOf, hsec, Option.some.injEq] at hsec'
    exact hsec' ▸ hbetween
  have hself : entry.2.value.toNat ∈ image.symbolAddresses entry.2 :=
    mem_addressesIn.mpr ⟨entry, hentry, decide_eq_true htype, rfl, rfl⟩
  obtain ⟨hstart, hend⟩ := hwithin _ hself
  have hnext := isNext_untopD hend fun a ha => (hwithin a ha).2
  have hwrap : 2 ^ 64 ≤ sec.addr.toNat + sec.size.toNat →
      (sec.addr.toNat + sec.size.toNat) % 2 ^ 64 ≤ entry.2.value.toNat := by
    have hsize := sec.size.isLt
    omega
  rw [size_machoSymbol, bounds_layout hsec, BitVec.toNat_add, symbolEnd,
    tsub_left_inj (le_untopD_upperBound _ le_rfl) hnext.le]
  exact hnext.untopD_bounds_iff entry.2.value.isLt (fun a ha => addressesIn_lt ha)
    (fun a ha => addressesIn_lt ha) hwrap

/-! ## Images without stabs -/

theorem sections_withoutStabs : image.withoutStabs.sections = image.sections := by
  rw [sections, sections, withoutStabs, List.flatMap_map]
  congr 1
  funext command
  cases command <;> rfl

theorem entries_withoutStabs :
    image.withoutStabs.entries = image.entries.filter fun entry => entry.2.stab = 0 := by
  rw [entries, entries, withoutStabs, List.flatMap_map, List.filter_flatMap]
  congr 1
  funext command
  cases command with
  | symtab stringTable symbols => simp [LoadCommand.entries, List.filter_map, Function.comp_def]
  | segment sections => rfl
  | other => rfl

theorem mem_entries_withoutStabs {entry : List Char × Nlist}
    (htype : entry.2.symbolType = some .kSection) :
    entry ∈ image.withoutStabs.entries ↔ entry ∈ image.entries := by
  rw [entries_withoutStabs, List.mem_filter, and_iff_left]
  exact decide_eq_true ((Nlist.symbolType_eq_kSection_iff _).mp htype).1

theorem sectionOf_withoutStabs (n : Nlist) :
    image.withoutStabs.sectionOf n = image.sectionOf n := by
  rw [sectionOf, sectionOf, sections_withoutStabs]

theorem symbolAddresses_withoutStabs (n : Nlist) :
    image.withoutStabs.symbolAddresses n = image.symbolAddresses n := by
  ext a
  simp only [symbolAddresses, mem_addressesIn]
  refine exists_congr fun entry => and_congr_left fun hentry => ?_
  exact mem_entries_withoutStabs (of_decide_eq_true hentry.1)

theorem stabAddresses_withoutStabs (n : Nlist) : image.withoutStabs.stabAddresses n = ∅ := by
  rw [Finset.eq_empty_iff_forall_notMem]
  intro a ha
  obtain ⟨entry, hentry, hstab, _⟩ := mem_addressesIn.mp ha
  rw [entries_withoutStabs] at hentry
  have hzero := of_decide_eq_true (List.mem_filter.mp hentry).2
  simp [Nlist.isSectionStab, hzero] at hstab

theorem SymbolsWithin.withoutStabs (h : image.SymbolsWithin) :
    image.withoutStabs.SymbolsWithin := by
  intro entry hentry htype
  rw [sectionOf_withoutStabs]
  exact h entry ((mem_entries_withoutStabs htype).mp hentry) htype

/-- The symbols of the sections end where they should exactly if no stab counts as a symbol of the
same section in front of that. -/
theorem sizesTile_iff (h : image.SymbolsWithin) : image.SizesTile ↔ image.StabsApart := by
  constructor
  · intro hsizes entry hentry htype sec hsec
    exact (h.size_eq_iff hentry htype hsec 0).mp (hsizes.size_eq entry hentry htype sec hsec 0)
  · intro hends
    have hsize : ∀ entry ∈ image.entries, entry.2.symbolType = some .kSection →
        ∀ sec, image.sectionOf entry.2 = some sec → ∀ hash,
          (machoSymbol image.layout entry.1 entry.2 .kSection hash).size =
            image.symbolEnd entry.2 sec - entry.2.value.toNat := by
      intro entry hentry htype sec hsec hash
      exact (h.size_eq_iff hentry htype hsec hash).mpr (hends entry hentry htype sec hsec)
    refine ⟨hsize, fun entry hentry htype hash => ?_⟩
    obtain ⟨sec, hsec, _⟩ := h entry hentry htype
    have hend : image.withoutStabs.symbolEnd entry.2 sec = image.symbolEnd entry.2 sec := by
      rw [symbolEnd, symbolEnd, symbolAddresses_withoutStabs]
    have hwithout := h.withoutStabs.size_eq_iff ((mem_entries_withoutStabs htype).mpr hentry) htype
      ((sectionOf_withoutStabs _).trans hsec) hash
    rw [hend, stabAddresses_withoutStabs] at hwithout
    rw [hsize entry hentry htype sec hsec hash,
      hwithout.mpr ⟨(hends entry hentry htype sec hsec).1, by simp⟩]

/-! ### Two functions with the stabs of the first -/

/-- Functions `f` and `g` at an address, where `f` has the stabs `N_BNSYM`, with its address, and
`N_ENSYM`, with its size. -/
def twoFunctions (address : Address) : MachoImage where
  commands :=
    [.segment [⟨"__text", address, 0x200⟩],
      .symtab "\x00_f\x00_g\x00".toList
        [{ type := 0x2e, sect := 1, value := address },
          { type := 0x4e, sect := 1, value := 0x120 },
          { strx := 1, type := 0x0f, sect := 1, value := address },
          { strx := 4, type := 0x0f, sect := 1, value := address + 0x120 }]]

/-- Above all sizes of functions the stabs do no harm. -/
theorem sizesTile_twoFunctions :
    (twoFunctions 0x1000).SymbolsWithin ∧ (twoFunctions 0x1000).SizesTile :=
  have h : (twoFunctions 0x1000).SymbolsWithin := by decide +kernel
  ⟨h, (sizesTile_iff h).mpr (by decide +kernel)⟩

/-- At `0x100` the size `0x120` of `f` is taken for the address of a symbol: `f` gets the size
`0x20`. -/
theorem not_sizesTile_twoFunctions :
    (twoFunctions 0x100).SymbolsWithin ∧
      ((twoFunctions 0x100).symbols fun _ => 0).functions.map (fun f => (f.name, f.size)) =
        [("f", 0x20), ("g", 0xe0)] ∧
      ((twoFunctions 0x100).withoutStabs.symbols fun _ => 0).functions.map
        (fun f => (f.name, f.size)) = [("f", 0x120), ("g", 0xe0)] ∧
      ¬ (twoFunctions 0x100).SizesTile := by
  refine ⟨by decide +kernel, by decide +kernel, by decide +kernel, fun h => ?_⟩
  have hsize := h.size_eq ("\x00_f\x00_g\x00".toList, ⟨1, 0x0f, 1, 0, 0x100⟩)
    (by decide +kernel) (by decide +kernel) ⟨"__text", 0x100, 0x200⟩ (by decide +kernel) 0
  exact absurd hsize (by decide +kernel)

end MachoImage

end JetLive

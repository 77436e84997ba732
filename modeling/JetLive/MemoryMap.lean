import JetLive.Live.Dependencies
import JetLive.Utility

/-!
# The memory map

On Linux the regions of the process come from the lines of `/proc/<pid>/maps`. `mappedRegion` says
what a line of this file means, `SortedMaps` that the file has only such lines, in order, besides
those that are passed over. The regions are then put together from the mapped ones: the gaps
between them become free regions, unless both neighbours have the same name.
-/

namespace JetLive

/-! ## Reading addresses -/

def hexValue (c : Char) : Option ℕ :=
  if '0' ≤ c ∧ c ≤ '9' then some (c.toNat - '0'.toNat)
  else if 'a' ≤ c ∧ c ≤ 'f' then some (c.toNat - 'a'.toNat + 10)
  else if 'A' ≤ c ∧ c ≤ 'F' then some (c.toNat - 'A'.toNat + 10)
  else none

def isHexDigit (c : Char) : Bool := (hexValue c).isSome

/-- The characters `std::isspace` accepts. -/
def isSpace (c : Char) : Bool := [' ', '\t', '\n', '\x0b', '\x0c', '\r'].contains c

def hexNumber (digits : List Char) : ℕ :=
  digits.foldl (fun n c => 16 * n + (hexValue c).getD 0) 0

/-- What `ss >> std::hex >> value` stores of the characters in a stream, and the characters it
leaves. Without digits it stores `0`, and the largest value if there are too many. -/
def extractHex (buffer : List Char) : ℕ × List Char :=
  let unread := buffer.dropWhile isSpace
  let negative := unread.head? = some '-'
  let unread := if negative ∨ unread.head? = some '+' then unread.tail else unread
  let unread :=
    if ['0', 'x'].isPrefixOf unread ∨ ['0', 'X'].isPrefixOf unread then unread.drop 2 else unread
  let value := hexNumber (unread.takeWhile isHexDigit)
  (if 2 ^ 64 ≤ value then 2 ^ 64 - 1 else if negative then (2 ^ 64 - value) % 2 ^ 64 else value,
   unread.dropWhile isHexDigit)

def lineWords (line : List Char) : List (List Char) :=
  (line.splitOnP isSpace).filter (· ≠ [])

/-- The name of a region: the sixth word of its line. -/
def regionName (line : List Char) : String := String.ofList ((lineWords line).getD 5 [])

/-- The region of a line with a `-` and a blank. Both addresses go through the stream `ss`, which
keeps what could not be read. If the blank stands before the `-`, the length of the second address
wraps around and the rest of the line is taken. -/
def readRegion (ss line : List Char) : Option (MemoryRegion × List Char) :=
  match line.idxOf? '-', line.idxOf? ' ' with
  | some addrDelim, some addrEnd =>
      let addrBeginStr := ['0', 'x'] ++ line.take addrDelim
      let addrEndStr := ['0', 'x'] ++ (line.drop (addrDelim + 1)).take
        (if addrDelim < addrEnd then addrEnd - addrDelim - 1 else line.length)
      let regionBegin := extractHex (ss ++ addrBeginStr)
      let regionEnd := extractHex (regionBegin.2 ++ addrEndStr)
      some ({ name := regionName line, regionBegin := regionBegin.1, regionEnd := regionEnd.1,
              isInUse := true }, regionEnd.2)
  | _, _ => none

/-- One more region: it prolongs the last one if both have the same name, and a gap before it
becomes a free region. -/
def addRegion (res : List MemoryRegion) (region : MemoryRegion) : List MemoryRegion :=
  match res.getLast? with
  | none => [region]
  | some back =>
      if back.name = region.name ∧ region.name ≠ "" then
        res.dropLast ++ [{ back with regionEnd := region.regionEnd }]
      else if back.regionEnd ≠ region.regionBegin then
        res ++ [{ regionBegin := back.regionEnd, regionEnd := region.regionBegin,
                  isInUse := false }, region]
      else res ++ [region]

def readLine (s : List MemoryRegion × List Char) (line : List Char) :
    List MemoryRegion × List Char :=
  match readRegion s.2 line with
  | none => s
  | some (region, ss) => (addRegion s.1 region, ss)

/-- `getMemoryRegions` on Linux; `maps` is the content of `/proc/<pid>/maps`, if it can be
opened. -/
def getMemoryRegions (maps : Option (List Char)) : List MemoryRegion :=
  match maps with
  | none => []
  | some text => ((getLines text).foldl readLine ([], [])).1

/-! ## Mapped lines -/

/-- The region a line of the file maps: two addresses in base 16, the first one smaller, and a
blank after them. -/
def mappedRegion (line : List Char) : Option MemoryRegion :=
  let regionBegin := line.takeWhile isHexDigit
  match line.dropWhile isHexDigit with
  | '-' :: rest =>
      let regionEnd := rest.takeWhile isHexDigit
      match rest.dropWhile isHexDigit with
      | ' ' :: _ =>
          if regionBegin ≠ [] ∧ regionEnd ≠ [] ∧ hexNumber regionBegin < hexNumber regionEnd ∧
              hexNumber regionEnd < 2 ^ 64 then
            some { name := regionName line, regionBegin := hexNumber regionBegin,
                   regionEnd := hexNumber regionEnd, isInUse := true }
          else none
      | _ => none
  | _ => none

def mappedRegions (text : List Char) : List MemoryRegion := (getLines text).filterMap mappedRegion

/-- Every line with a `-` and a blank maps a region, and the regions are sorted by address and do
not overlap. -/
structure SortedMaps (text : List Char) : Prop where
  mapped : ∀ line ∈ getLines text, '-' ∈ line → ' ' ∈ line → (mappedRegion line).isSome
  sorted : (mappedRegions text).Pairwise fun l l' => l.regionEnd ≤ l'.regionBegin

/-- A written address is read back, and nothing is left in the stream. -/
theorem extractHex_of_digits {digits : List Char} (hdigits : ∀ c ∈ digits, isHexDigit c)
    (hlt : hexNumber digits < 2 ^ 64) :
    extractHex (['0', 'x'] ++ digits) = (hexNumber digits, []) := by
  have htake : digits.takeWhile isHexDigit = digits := List.takeWhile_eq_self_iff.mpr hdigits
  have hdrop : digits.dropWhile isHexDigit = [] := List.dropWhile_eq_nil_iff.mpr hdigits
  have hspace : isSpace '0' = false := by decide
  have hge : ¬ 18446744073709551616 ≤ hexNumber digits := by omega
  simp [extractHex, hspace, htake, hdrop, hge]

/-- What a mapped line looks like. -/
theorem mappedRegion_eq_some {line : List Char} {l : MemoryRegion}
    (h : mappedRegion line = some l) :
    ∃ first second rest, line = first ++ '-' :: (second ++ ' ' :: rest) ∧
      (∀ c ∈ first, isHexDigit c) ∧ (∀ c ∈ second, isHexDigit c) ∧
      hexNumber first < hexNumber second ∧ hexNumber second < 2 ^ 64 ∧
      l = { name := regionName line, regionBegin := hexNumber first,
            regionEnd := hexNumber second, isInUse := true } := by
  unfold mappedRegion at h
  split at h
  · rename_i rest hfirst
    split at h
    · rename_i rest' hsecond
      obtain ⟨⟨_, _, hlt, hbound⟩, hl⟩ := Option.ite_none_right_eq_some.mp h
      refine ⟨_, _, rest', ?_, fun c => List.mem_takeWhile_imp, fun c => List.mem_takeWhile_imp,
        hlt, hbound, (Option.some.inj hl).symm⟩
      rw [← hsecond, List.takeWhile_append_dropWhile, ← hfirst, List.takeWhile_append_dropWhile]
    · exact absurd h (by simp)
  · exact absurd h (by simp)

theorem idxOf?_append_cons_of_notMem {l : List Char} {c : Char} (h : c ∉ l) (l' : List Char) :
    (l ++ c :: l').idxOf? c = some l.length := by
  have hnone : l.findIdx? (· == c) = none := List.idxOf?_eq_none_iff.mpr h
  rw [List.idxOf?, List.findIdx?_append, hnone]
  simp [List.findIdx?_cons]

/-- A mapped line is read as the region it maps. -/
theorem readRegion_of_mappedRegion {line : List Char} {l : MemoryRegion}
    (h : mappedRegion line = some l) : readRegion [] line = some (l, []) := by
  obtain ⟨first, second, rest, rfl, hfirst, hsecond, hlt, hbound, rfl⟩ := mappedRegion_eq_some h
  have hnotMem : ∀ {digits : List Char} {c : Char}, (∀ c ∈ digits, isHexDigit c) →
      isHexDigit c = false → c ∉ digits := by
    intro digits c hdigits hc hmem
    exact absurd (hdigits c hmem) (by simp [hc])
  have hdelim := idxOf?_append_cons_of_notMem (hnotMem hfirst (by decide : isHexDigit '-' = false))
    (second ++ ' ' :: rest)
  have hblank : ' ' ∉ first ++ '-' :: second := by
    simp [hnotMem hfirst (by decide : isHexDigit ' ' = false),
      hnotMem hsecond (by decide : isHexDigit ' ' = false)]
  have hend := idxOf?_append_cons_of_notMem hblank rest
  rw [List.append_assoc, List.cons_append] at hend
  have hlt' : first.length < (first ++ '-' :: second).length := by simp
  have hlength : (first ++ '-' :: second).length - first.length - 1 = second.length := by
    simp only [List.length_append, List.length_cons]
    omega
  have hdrop : (first ++ '-' :: (second ++ ' ' :: rest)).drop (first.length + 1) =
      second ++ ' ' :: rest := by
    simp [List.drop_append]
  simp only [readRegion, hdelim, hend, List.nil_append, List.take_left, hdrop, if_pos hlt', hlength,
    extractHex_of_digits hfirst (hlt.trans hbound), extractHex_of_digits hsecond hbound]

theorem readRegion_eq_none {line : List Char} (h : ¬ ('-' ∈ line ∧ ' ' ∈ line)) (ss : List Char) :
    readRegion ss line = none := by
  unfold readRegion
  by_cases hdelim : '-' ∈ line
  · rw [List.idxOf?_eq_none_iff.mpr fun hend => h ⟨hdelim, hend⟩]
    split <;> simp_all
  · rw [List.idxOf?_eq_none_iff.mpr hdelim]

theorem mappedRegion_eq_none {line : List Char} (h : ¬ ('-' ∈ line ∧ ' ' ∈ line)) :
    mappedRegion line = none := by
  rw [Option.eq_none_iff_forall_ne_some]
  intro l hl
  obtain ⟨first, second, rest, rfl, _⟩ := mappedRegion_eq_some hl
  exact h (by simp)

/-- The loop over the lines only sees the mapped regions. -/
theorem foldl_readLine {lines : List (List Char)}
    (h : ∀ line ∈ lines, '-' ∈ line → ' ' ∈ line → (mappedRegion line).isSome)
    (res : List MemoryRegion) :
    lines.foldl readLine (res, []) = ((lines.filterMap mappedRegion).foldl addRegion res, []) := by
  induction lines generalizing res with
  | nil => rfl
  | cons line lines ih =>
      obtain ⟨hline, hlines⟩ := List.forall_mem_cons.mp h
      rw [List.foldl_cons]
      by_cases hmapped : '-' ∈ line ∧ ' ' ∈ line
      · obtain ⟨l, hl⟩ := Option.isSome_iff_exists.mp (hline hmapped.1 hmapped.2)
        rw [readLine, readRegion_of_mappedRegion hl, ih hlines, List.filterMap_cons_some hl]
        rfl
      · rw [readLine, readRegion_eq_none hmapped, ih hlines,
          List.filterMap_cons_none (mappedRegion_eq_none hmapped)]

theorem getMemoryRegions_eq {text : List Char} (h : SortedMaps text) :
    getMemoryRegions (some text) = (mappedRegions text).foldl addRegion [] := by
  rw [getMemoryRegions, foldl_readLine h.mapped]
  rfl

/-- A mapped region is not empty and lies in the address space. -/
theorem mem_mappedRegions {text : List Char} {l : MemoryRegion} (h : l ∈ mappedRegions text) :
    l.regionBegin < l.regionEnd ∧ l.regionEnd < 2 ^ 64 ∧ l.isInUse = true := by
  obtain ⟨line, _, hl⟩ := List.mem_filterMap.mp h
  obtain ⟨first, second, rest, _, _, _, hlt, hbound, rfl⟩ := mappedRegion_eq_some hl
  exact ⟨hlt, hbound, rfl⟩

/-! ## Regions and gaps -/

/-- The free region between two mapped ones that follow each other and do not have the same
name. -/
def Gap (lines : List MemoryRegion) (r : MemoryRegion) : Prop :=
  ∃ l l', [l, l'] <:+: lines ∧ ¬ (l.name = l'.name ∧ l'.name ≠ "") ∧
    l.regionEnd ≠ l'.regionBegin ∧ r = { regionBegin := l.regionEnd, regionEnd := l'.regionBegin }

/-- What the loop has made of the mapped regions so far. -/
structure Merged (lines res : List MemoryRegion) : Prop where
  chain : res.IsChain fun r r' => r.regionEnd = r'.regionBegin
  nonempty : ∀ r ∈ res, r.regionBegin < r.regionEnd
  covered : ∀ l ∈ lines, ∃ r ∈ res, r.isInUse = true ∧ r.regionBegin ≤ l.regionBegin ∧
    l.regionEnd ≤ r.regionEnd
  free_iff : ∀ r, r ∈ res ∧ r.isInUse = false ↔ Gap lines r

variable {lines res : List MemoryRegion} {l l' r : MemoryRegion}

theorem not_gap_of_length_le (h : lines.length ≤ 1) : ¬ Gap lines r := by
  rintro ⟨m, m', hpair, _⟩
  have hlength : 2 ≤ lines.length := hpair.length_le
  omega

theorem gap_append_singleton : Gap (lines ++ [l] ++ [l']) r ↔ Gap (lines ++ [l]) r ∨
    ¬ (l.name = l'.name ∧ l'.name ≠ "") ∧ l.regionEnd ≠ l'.regionBegin ∧
      r = { regionBegin := l.regionEnd, regionEnd := l'.regionBegin } := by
  constructor
  · rintro ⟨m, m', hpair, hgap⟩
    rcases List.infix_concat_iff.mp hpair with ⟨first, hsuffix⟩ | hpair
    · rw [List.append_assoc] at hsuffix
      obtain ⟨rfl, heq⟩ := List.append_inj' hsuffix rfl
      obtain ⟨rfl, rfl⟩ : m = l ∧ m' = l' := by simpa using heq
      exact .inr hgap
    · exact .inl ⟨m, m', hpair, hgap⟩
  · rintro (⟨m, m', hpair, hgap⟩ | hgap)
    · exact ⟨m, m', List.infix_concat_iff.mpr (.inr hpair), hgap⟩
    · refine ⟨l, l', List.infix_concat_iff.mpr (.inl ⟨lines, by simp⟩), hgap⟩

/-- No mapped region meets a gap. -/
theorem Gap.disjoint (h : Gap lines r) (hpos : ∀ l ∈ lines, l.regionBegin < l.regionEnd)
    (hsorted : lines.Pairwise fun l l' => l.regionEnd ≤ l'.regionBegin) (hl : l ∈ lines) :
    l.regionEnd ≤ r.regionBegin ∨ r.regionEnd ≤ l.regionBegin := by
  obtain ⟨m, m', ⟨first, rest, rfl⟩, _, _, rfl⟩ := h
  simp only [List.pairwise_append, List.pairwise_cons, List.mem_append, List.mem_cons,
    List.not_mem_nil, or_false] at hsorted hl hpos
  obtain ⟨⟨_, _, hfirst⟩, _, hrest⟩ := hsorted
  rcases hl with (hl | rfl | rfl) | hl
  · exact .inl ((hfirst l hl m (.inl rfl)).trans (hpos m (.inl (.inr (.inl rfl)))).le)
  · exact .inl le_rfl
  · exact .inr le_rfl
  · exact .inr ((hpos m' (.inl (.inr (.inr rfl)))).le.trans (hrest m' (.inr (.inr rfl)) l hl))

/-- The last region so far ends where the last mapped one does. -/
def SameEnd (lines res : List MemoryRegion) : Prop :=
  ∃ lines' l res' back, lines = lines' ++ [l] ∧ res = res' ++ [back] ∧ back.name = l.name ∧
    back.regionEnd = l.regionEnd ∧ back.isInUse = true

theorem merged_singleton (hpos : l.regionBegin < l.regionEnd) (huse : l.isInUse = true) :
    Merged [l] [l] where
  chain := List.isChain_singleton l
  nonempty := by simpa using hpos
  covered := by simpa using huse
  free_iff r := by
    simp only [not_gap_of_length_le (List.length_singleton (a := l)).le, iff_false,
      List.mem_singleton]
    rintro ⟨rfl, hfree⟩
    exact absurd (huse.symm.trans hfree) (by simp)

/-- A region of the same name prolongs the last one. -/
theorem Merged.prolong {res' : List MemoryRegion} {back : MemoryRegion}
    (h : Merged (lines ++ [l]) (res' ++ [back])) (huse : back.isInUse = true)
    (hend : back.regionEnd = l.regionEnd) (hl' : l'.regionBegin < l'.regionEnd)
    (hle : l.regionEnd ≤ l'.regionBegin) (hname : l.name = l'.name ∧ l'.name ≠ "") :
    Merged (lines ++ [l] ++ [l']) (res' ++ [{ back with regionEnd := l'.regionEnd }]) := by
  have hback := h.nonempty back (by simp)
  refine ⟨?_, ?_, ?_, ?_⟩
  · have hchain := h.chain
    rw [List.isChain_append] at hchain ⊢
    simpa using hchain
  · intro r hr
    rcases List.mem_append.mp hr with hr | hr
    · exact h.nonempty r (List.mem_append_left _ hr)
    · obtain rfl := List.mem_singleton.mp hr
      change back.regionBegin < l'.regionEnd
      omega
  · intro m hm
    rcases List.mem_append.mp hm with hm | hm
    · obtain ⟨r, hr, huse', hbegin, hend'⟩ := h.covered m hm
      rcases List.mem_append.mp hr with hr | hr
      · exact ⟨r, List.mem_append_left _ hr, huse', hbegin, hend'⟩
      · obtain rfl := List.mem_singleton.mp hr
        refine ⟨_, List.mem_append_right _ (List.mem_singleton_self _), huse, hbegin, ?_⟩
        change m.regionEnd ≤ l'.regionEnd
        omega
    · obtain rfl := List.mem_singleton.mp hm
      refine ⟨_, List.mem_append_right _ (List.mem_singleton_self _), huse, ?_, le_rfl⟩
      change back.regionBegin ≤ m.regionBegin
      omega
  · intro r
    rw [gap_append_singleton, ← h.free_iff]
    simp only [List.mem_append, List.mem_singleton]
    constructor
    · rintro ⟨hr | rfl, hfree⟩
      · exact .inl ⟨.inl hr, hfree⟩
      · exact absurd (huse.symm.trans hfree) (by simp)
    · rintro (⟨hr | rfl, hfree⟩ | hgap)
      · exact ⟨.inl hr, hfree⟩
      · exact absurd (huse.symm.trans hfree) (by simp)
      · exact absurd hname hgap.1

/-- The free regions among those added are the gap in front of the mapped region. -/
theorem Merged.extend {new : List MemoryRegion} (h : Merged (lines ++ [l]) res)
    (hchain : (res ++ new).IsChain fun r r' => r.regionEnd = r'.regionBegin)
    (hpos : ∀ r ∈ new, r.regionBegin < r.regionEnd) (hl' : l' ∈ new) (huse : l'.isInUse = true)
    (hfree : ∀ r, r ∈ new ∧ r.isInUse = false ↔ ¬ (l.name = l'.name ∧ l'.name ≠ "") ∧
      l.regionEnd ≠ l'.regionBegin ∧
      r = { regionBegin := l.regionEnd, regionEnd := l'.regionBegin }) :
    Merged (lines ++ [l] ++ [l']) (res ++ new) where
  chain := hchain
  nonempty r hr := (List.mem_append.mp hr).elim (h.nonempty r) (hpos r)
  covered m hm := by
    rcases List.mem_append.mp hm with hm | hm
    · obtain ⟨r, hr, hr'⟩ := h.covered m hm
      exact ⟨r, List.mem_append_left _ hr, hr'⟩
    · obtain rfl := List.mem_singleton.mp hm
      exact ⟨m, List.mem_append_right _ hl', huse, le_rfl, le_rfl⟩
  free_iff r := by
    rw [gap_append_singleton, ← h.free_iff, ← hfree, List.mem_append, or_and_right]

theorem SameEnd.concat {res' : List MemoryRegion} {back : MemoryRegion}
    (hname : back.name = l.name) (hend : back.regionEnd = l.regionEnd)
    (huse : back.isInUse = true) : SameEnd (lines ++ [l]) (res' ++ [back]) :=
  ⟨lines, l, res', back, rfl, rfl, hname, hend, huse⟩

theorem addRegion_concat (res : List MemoryRegion) (back region : MemoryRegion) :
    addRegion (res ++ [back]) region =
      if back.name = region.name ∧ region.name ≠ "" then
        res ++ [{ back with regionEnd := region.regionEnd }]
      else if back.regionEnd ≠ region.regionBegin then
        res ++ [back] ++ [{ regionBegin := back.regionEnd, regionEnd := region.regionBegin,
                            isInUse := false }, region]
      else res ++ [back] ++ [region] := by
  rw [addRegion, List.getLast?_concat, List.dropLast_concat]

/-- One more mapped region. -/
theorem Merged.addRegion (h : Merged lines res) (hsame : SameEnd lines res)
    (hl' : l'.regionBegin < l'.regionEnd) (huse : l'.isInUse = true)
    (hsorted : ∀ l ∈ lines, l.regionEnd ≤ l'.regionBegin) :
    Merged (lines ++ [l']) (addRegion res l') ∧ SameEnd (lines ++ [l']) (addRegion res l') := by
  obtain ⟨lines, l, res, back, rfl, rfl, hname, hend, huse'⟩ := hsame
  have hle := hsorted l (by simp)
  rw [addRegion_concat]
  split_ifs with hsame hne <;> rw [hname] at hsame
  · exact ⟨h.prolong huse' hend hl' hle hsame, .concat (hname.trans hsame.1) rfl huse'⟩
  · rw [hend] at hne ⊢
    refine ⟨h.extend ?_ ?_ (by simp) huse ?_, ?_⟩
    · rw [List.isChain_append]
      refine ⟨h.chain, by simp, ?_⟩
      simpa using hend
    · simpa using ⟨lt_of_le_of_ne hle hne, hl'⟩
    · intro r
      simp only [List.mem_cons, List.not_mem_nil, or_false]
      constructor
      · rintro ⟨rfl | rfl, hfree⟩
        · exact ⟨hsame, hne, rfl⟩
        · exact absurd (huse.symm.trans hfree) (by simp)
      · rintro ⟨_, _, rfl⟩
        exact ⟨.inl rfl, rfl⟩
    · change SameEnd _ (res ++ [back] ++ ([_] ++ [l']))
      rw [← List.append_assoc]
      exact .concat rfl rfl huse
  · have heq : l.regionEnd = l'.regionBegin := hend.symm.trans (not_not.mp hne)
    refine ⟨h.extend ?_ ?_ (by simp) huse ?_, .concat rfl rfl huse⟩
    · rw [List.isChain_append]
      refine ⟨h.chain, List.isChain_singleton l', ?_⟩
      simpa using hend.trans heq
    · simpa using hl'
    · intro r
      rw [List.mem_singleton]
      constructor
      · rintro ⟨rfl, hfree⟩
        exact absurd (huse.symm.trans hfree) (by simp)
      · rintro ⟨_, hgap, _⟩
        exact absurd heq hgap

/-- All mapped regions. -/
theorem merged_foldl_addRegion (hpos : ∀ l ∈ lines, l.regionBegin < l.regionEnd)
    (huse : ∀ l ∈ lines, l.isInUse = true)
    (hsorted : lines.Pairwise fun l l' => l.regionEnd ≤ l'.regionBegin) :
    Merged lines (lines.foldl addRegion []) ∧
      (lines ≠ [] → SameEnd lines (lines.foldl addRegion [])) := by
  induction lines using List.reverseRecOn with
  | nil =>
      refine ⟨⟨List.isChain_nil, by simp, by simp, fun r => ?_⟩, fun h => absurd rfl h⟩
      simp [not_gap_of_length_le]
  | append_singleton lines l ih =>
      simp only [List.forall_mem_append, List.forall_mem_singleton] at hpos huse
      obtain ⟨hsorted, _, hle⟩ := List.pairwise_append.mp hsorted
      obtain ⟨hmerged, hsame⟩ := ih hpos.1 huse.1 hsorted
      rw [List.foldl_concat]
      by_cases hlines : lines = []
      · subst hlines
        exact ⟨merged_singleton hpos.2 huse.2, fun _ => ⟨[], l, [], l, rfl, rfl, rfl, rfl, huse.2⟩⟩
      · obtain ⟨hmerged, hsame⟩ := hmerged.addRegion (hsame hlines) hpos.2 huse.2
          fun m hm => hle m hm l (List.mem_singleton_self l)
        exact ⟨hmerged, fun _ => hsame⟩

theorem SortedMaps.merged {text : List Char} (h : SortedMaps text) :
    Merged (mappedRegions text) (getMemoryRegions (some text)) := by
  rw [getMemoryRegions_eq h]
  exact (merged_foldl_addRegion (fun l hl => (mem_mappedRegions hl).1)
    (fun l hl => (mem_mappedRegions hl).2.2) h.sorted).1

theorem Merged.sorted (h : Merged lines res) :
    (res.map MemoryRegion.regionBegin).Pairwise (· < ·) := by
  refine List.IsChain.pairwise ((List.isChain_map _).mpr (h.chain.imp_of_mem_imp ?_))
  intro r r' hr _ heq
  exact (h.nonempty r hr).trans_eq heq

/-! ## A free place for a library -/

def totalSize (tellg : String → ℤ) (objectFilePaths : List String) : ℕ :=
  (objectFilePaths.map fun el => (tellg el).toNat).sum

section FreePlace

variable {tellg : String → ℤ} {objectFilePaths : List String} {text : List Char}

theorem foldl_tellg (h : ∀ el ∈ objectFilePaths, 0 ≤ tellg el) {n : ℕ} (hn : n < 2 ^ 64) :
    objectFilePaths.foldl (fun n el => (n + (tellg el % 2 ^ 64).toNat) % 2 ^ 64) n =
      (n + totalSize tellg objectFilePaths) % 2 ^ 64 := by
  induction objectFilePaths generalizing n with
  | nil => exact (Nat.mod_eq_of_lt hn).symm
  | cons el objectFilePaths ih =>
      obtain ⟨hel, hrest⟩ := List.forall_mem_cons.mp h
      rw [List.foldl_cons, ih hrest (Nat.mod_lt _ (by decide))]
      have htotal : totalSize tellg (el :: objectFilePaths) =
          (tellg el).toNat + totalSize tellg objectFilePaths := rfl
      omega

/-- A gap lies in the address space, after a mapped region and before another one. -/
theorem SortedMaps.gap_bounds (h : SortedMaps text) (hr : Gap (mappedRegions text) r) :
    0 < r.regionBegin ∧ r.regionBegin < r.regionEnd ∧ r.regionEnd < 2 ^ 64 ∧
      ∃ l ∈ mappedRegions text, r.regionEnd = l.regionBegin := by
  have hlt := h.merged.nonempty r ((h.merged.free_iff r).mpr hr).1
  obtain ⟨l, l', hpair, _, _, rfl⟩ := hr
  obtain ⟨hl, _⟩ := mem_mappedRegions (hpair.subset (by simp : l ∈ [l, l']))
  have hl' := hpair.subset (by simp : l' ∈ [l, l'])
  obtain ⟨hlt', hbound, _⟩ := mem_mappedRegions hl'
  exact ⟨(Nat.zero_le _).trans_lt hl, hlt, hlt'.trans hbound, l', hl', rfl⟩

/-- The base address is `0` or the begin of a gap larger than the size, which is reduced to
64 bits; it is `0` only if there is no such gap. -/
theorem findPrefferedBaseAddressForLibrary_cases (h : SortedMaps text)
    (hread : ∀ el ∈ objectFilePaths, 0 ≤ tellg el) {b : ℕ}
    (hb : b = findPrefferedBaseAddressForLibrary tellg (getMemoryRegions (some text))
      objectFilePaths) :
    (b = 0 ∧ ∀ r, Gap (mappedRegions text) r →
        r.regionEnd - r.regionBegin ≤ totalSize tellg objectFilePaths % 2 ^ 64) ∨
      ∃ r, Gap (mappedRegions text) r ∧ b = r.regionBegin ∧
        totalSize tellg objectFilePaths % 2 ^ 64 < r.regionEnd - r.regionBegin := by
  have hsize : ∀ {r}, Gap (mappedRegions text) r →
      (r.regionEnd + 2 ^ 64 - r.regionBegin) % 2 ^ 64 = r.regionEnd - r.regionBegin := by
    intro r hr
    obtain ⟨_, hlt, hbound, _⟩ := h.gap_bounds hr
    omega
  rw [findPrefferedBaseAddressForLibrary, foldl_tellg hread (by decide), Nat.zero_add] at hb
  subst hb
  split
  · rename_i r hfind
    have hlarge := List.find?_some hfind
    rw [Bool.and_eq_true, Bool.not_eq_true', decide_eq_true_iff] at hlarge
    have hr := (h.merged.free_iff r).mp ⟨List.mem_of_find?_eq_some hfind, hlarge.1⟩
    exact .inr ⟨r, hr, rfl, hsize hr ▸ hlarge.2⟩
  · rename_i hfind
    refine .inl ⟨rfl, fun r hr => ?_⟩
    obtain ⟨hmem, hfree⟩ := (h.merged.free_iff r).mpr hr
    have hsmall := List.find?_eq_none.mp hfind r hmem
    rw [hfree, hsize hr] at hsmall
    simpa using hsmall

/-- The regions are sorted, follow each other without holes, have every mapped region in one in use
and none in a free one, and a library of the given object files fits at the base address. -/
theorem getMemoryRegions_freePlace (h : SortedMaps text)
    (hread : ∀ el ∈ objectFilePaths, 0 ≤ tellg el)
    (hsize : totalSize tellg objectFilePaths < 2 ^ 64) :
    let regions := getMemoryRegions (some text)
    let b := findPrefferedBaseAddressForLibrary tellg regions objectFilePaths
    (regions.map MemoryRegion.regionBegin).Pairwise (· < ·) ∧
      (regions.IsChain fun r r' => r.regionEnd = r'.regionBegin) ∧
      (∀ l ∈ mappedRegions text, ∃ r ∈ regions, r.isInUse = true ∧
        r.regionBegin ≤ l.regionBegin ∧ l.regionEnd ≤ r.regionEnd) ∧
      (∀ r ∈ regions, r.isInUse = false → ∀ l ∈ mappedRegions text,
        l.regionEnd ≤ r.regionBegin ∨ r.regionEnd ≤ l.regionBegin) ∧
      (b = 0 ∨ ∀ l ∈ mappedRegions text,
        l.regionEnd ≤ b ∨ b + totalSize tellg objectFilePaths < l.regionBegin) := by
  intro regions b
  have hmerged := h.merged
  have hdisjoint : ∀ {r l}, Gap (mappedRegions text) r → l ∈ mappedRegions text →
      l.regionEnd ≤ r.regionBegin ∨ r.regionEnd ≤ l.regionBegin :=
    fun hr hl => hr.disjoint (fun l hl => (mem_mappedRegions hl).1) h.sorted hl
  refine ⟨hmerged.sorted, hmerged.chain, hmerged.covered, ?_, ?_⟩
  · exact fun r hr hfree l hl => hdisjoint ((hmerged.free_iff r).mp ⟨hr, hfree⟩) hl
  · rcases findPrefferedBaseAddressForLibrary_cases h hread (rfl : b = _) with
      ⟨hb, _⟩ | ⟨r, hr, hb, hlarge⟩
    · exact .inl hb
    · rw [Nat.mod_eq_of_lt hsize] at hlarge
      refine .inr fun l hl => ?_
      rcases hdisjoint hr hl with hbefore | hafter
      · exact .inl (hbefore.trans_eq hb.symm)
      · exact .inr (by omega)

end FreePlace

/-- A process with its executable, the heap next to it and a library further up. -/
def sampleMaps : List Char :=
  "1000-3000 r-xp 00000000 08:01 11 /bin/app\n".toList ++
    "3000-4000 rw-p 00000000 00:00 0 [heap]\n".toList ++
    "a000-b000 r-xp 00000000 08:01 12 /lib/libc.so\n".toList ++
    "c000-d000 rw-p 00002000 08:01 12 /lib/libc.so\n".toList

theorem sortedMaps_sampleMaps : SortedMaps sampleMaps where
  mapped := by decide +kernel
  sorted := by decide +kernel

/-- The gap within the library is not free, the one after the heap is. -/
example : (getMemoryRegions (some sampleMaps)).map
    (fun r => (r.regionBegin, r.regionEnd, r.isInUse)) =
      [(0x1000, 0x3000, true), (0x3000, 0x4000, true), (0x4000, 0xa000, false),
        (0xa000, 0xd000, true)] := by
  decide +kernel

def smallSizes (_ : String) : ℤ := 0x1000

theorem sampleMaps_freePlace :
    let b := findPrefferedBaseAddressForLibrary smallSizes
      (getMemoryRegions (some sampleMaps)) ["a.o", "b.o"]
    b = 0x4000 ∧ ∀ l ∈ mappedRegions sampleMaps, l.regionEnd ≤ b ∨ b + 0x2000 < l.regionBegin := by
  have hread : ∀ el ∈ ["a.o", "b.o"], 0 ≤ smallSizes el := by simp [smallSizes]
  have hsize : totalSize smallSizes ["a.o", "b.o"] = 0x2000 := by decide +kernel
  obtain ⟨_, _, _, _, hplace⟩ :=
    getMemoryRegions_freePlace sortedMaps_sampleMaps hread (by rw [hsize]; decide)
  have hbase : findPrefferedBaseAddressForLibrary smallSizes
      (getMemoryRegions (some sampleMaps)) ["a.o", "b.o"] = 0x4000 := by decide +kernel
  rw [hsize] at hplace
  exact ⟨hbase, hplace.resolve_left (by rw [hbase]; decide)⟩

/-- The sizes of three files, two of them as large as a file can be. -/
def largeSizes (el : String) : ℤ := if el = "c.o" then 2 else 2 ^ 63 - 1

/-- The sizes are added in 64 bits: `2 ^ 64` bytes seem to fit into any gap. -/
example : findPrefferedBaseAddressForLibrary largeSizes
    (getMemoryRegions (some sampleMaps)) ["a.o", "b.o", "c.o"] = 0x4000 := by
  decide +kernel

end JetLive

import JetLive.MemoryMap

/-!
# The memory map on macOS

On macOS the regions of the process come from the output of `vmmap`. The loop looks for the line
that begins the list of regions, skips the line with the names of the columns, and reads a region
from every line up to an empty one. The addresses stand in fixed columns; a line that does not reach
the second one makes `substr` throw `std::out_of_range`.

`regionLines` are the lines that are read as regions, `vmmapRegion` says what such a line means. The
regions are put together as on Linux, but have no names.
-/

namespace JetLive

namespace Macos

inductive VmmapMode
  | searching
  | skipping
  | parsing
  | ended
  deriving DecidableEq, Repr

structure Vmmap where
  mode : VmmapMode := .searching
  ss : List Char := []
  res : List MemoryRegion := []

def isRegionsHeader (line : List Char) : Bool :=
  "==== regions for process".toList.isPrefixOf line

/-- Part of a line; `none` is `std::out_of_range`. -/
def substr (line : List Char) (pos n : ℕ) : Option (List Char) :=
  if pos ≤ line.length then some ((line.drop pos).take n) else none

/-- The region of a line. Both addresses go through the stream `ss`, which keeps what could not be
read. -/
def readRegion (ss line : List Char) : Option (MemoryRegion × List Char) := do
  let addrBegin ← substr line 23 16
  let addrEnd ← substr line 40 16
  let regionBegin := extractHex (ss ++ (['0', 'x'] ++ addrBegin))
  let regionEnd := extractHex (regionBegin.2 ++ (['0', 'x'] ++ addrEnd))
  return ({ regionBegin := regionBegin.1, regionEnd := regionEnd.1, isInUse := true }, regionEnd.2)

/-- One more region: a gap before it becomes a free region. -/
def addRegion (res : List MemoryRegion) (region : MemoryRegion) : List MemoryRegion :=
  match res.getLast? with
  | none => res ++ [region]
  | some back =>
      if back.regionEnd ≠ region.regionBegin then
        res ++ [{ regionBegin := back.regionEnd, regionEnd := region.regionBegin,
                  isInUse := false }, region]
      else res ++ [region]

/-- What becomes of the mode at a line, and whether the line is read as a region. -/
def nextMode (mode : VmmapMode) (line : List Char) : VmmapMode × Bool :=
  match mode with
  | .searching => (if isRegionsHeader line then .skipping else .searching, false)
  | .skipping => (.parsing, false)
  | .parsing =>
      if isRegionsHeader line then (.skipping, false)
      else if line = [] then (.ended, false)
      else (.parsing, true)
  | .ended => (.ended, false)

def readLine (s : Vmmap) (line : List Char) : Option Vmmap :=
  let next := nextMode s.mode line
  if next.2 then
    (readRegion s.ss line).map fun region =>
      { mode := next.1, ss := region.2, res := addRegion s.res region.1 }
  else some { s with mode := next.1 }

/-- `getMemoryRegions` on macOS, from the output of `vmmap`; `none` is an exception. -/
def getMemoryRegions (procOut : List Char) : Option (List MemoryRegion) :=
  ((getLines procOut).foldlM readLine {}).map Vmmap.res

/-! ## The lines that are read -/

/-- The lines that are read as regions, from the given mode on. -/
def linesFrom : VmmapMode → List (List Char) → List (List Char)
  | _, [] => []
  | mode, line :: lines =>
      let next := nextMode mode line
      if next.2 then line :: linesFrom next.1 lines else linesFrom next.1 lines

def regionLines (procOut : List Char) : List (List Char) :=
  linesFrom .searching (getLines procOut)

def readInto (s : List MemoryRegion × List Char) (line : List Char) :
    Option (List MemoryRegion × List Char) :=
  (readRegion s.2 line).map fun region => (addRegion s.1 region.1, region.2)

theorem foldlM_readLine (lines : List (List Char)) (s : Vmmap) :
    (lines.foldlM readLine s).map Vmmap.res =
      ((linesFrom s.mode lines).foldlM readInto (s.res, s.ss)).map Prod.fst := by
  induction lines generalizing s with
  | nil => rfl
  | cons line lines ih =>
      rw [List.foldlM_cons, linesFrom, readLine]
      split
      · rw [List.foldlM_cons, readInto]
        cases readRegion s.ss line with
        | none => rfl
        | some region => exact ih _
      · exact ih _

theorem getMemoryRegions_eq (procOut : List Char) :
    getMemoryRegions procOut =
      ((regionLines procOut).foldlM readInto ([], [])).map Prod.fst :=
  foldlM_readLine (getLines procOut) {}

theorem readRegion_eq_none_iff (ss line : List Char) :
    readRegion ss line = none ↔ line.length < 40 := by
  unfold readRegion substr
  by_cases hfirst : 23 ≤ line.length
  · by_cases hsecond : 40 ≤ line.length
    · simp [hfirst, hsecond]
    · simp [hfirst, hsecond]
      omega
  · simp [hfirst]
    omega

/-- The reading throws if and only if one of the lines does not reach the second address. -/
theorem getMemoryRegions_eq_none_iff (procOut : List Char) :
    getMemoryRegions procOut = none ↔ ∃ line ∈ regionLines procOut, line.length < 40 := by
  have hfold : ∀ (lines : List (List Char)) (s : List MemoryRegion × List Char),
      lines.foldlM readInto s = none ↔ ∃ line ∈ lines, line.length < 40 := by
    intro lines
    induction lines with
    | nil => simp
    | cons line lines ih =>
        intro s
        rw [List.foldlM_cons, List.exists_mem_cons_iff, ← readRegion_eq_none_iff s.2 line, readInto]
        cases hread : readRegion s.2 line with
        | none => simp
        | some region => simpa using ih (addRegion s.1 region.1, region.2)
  rw [getMemoryRegions_eq, Option.map_eq_none_iff]
  exact hfold _ _

/-! ## What the lines mean -/

/-- The region of a line with two addresses in base 16 at the columns where `vmmap` writes them. -/
def vmmapRegion (line : List Char) : Option MemoryRegion :=
  let addrBegin := (line.drop 23).take 16
  let addrEnd := (line.drop 40).take 16
  if addrBegin.all isHexDigit ∧ addrEnd.all isHexDigit ∧
      hexNumber addrBegin < hexNumber addrEnd then
    some { regionBegin := hexNumber addrBegin, regionEnd := hexNumber addrEnd, isInUse := true }
  else none

def vmmapRegions (procOut : List Char) : List MemoryRegion :=
  (regionLines procOut).filterMap vmmapRegion

/-- Every line that is read has the addresses of a region, and the regions are sorted and do not
overlap. -/
structure SortedVmmap (procOut : List Char) : Prop where
  mapped : ∀ line ∈ regionLines procOut, (vmmapRegion line).isSome
  sorted : (vmmapRegions procOut).Pairwise fun l l' => l.regionEnd ≤ l'.regionBegin

theorem hexValue_lt {c : Char} {n : ℕ} (h : hexValue c = some n) : n < 16 := by
  have hle : ∀ {a b : Char}, a ≤ b → a.toNat ≤ b.toNat := fun hab => hab
  unfold hexValue at h
  split_ifs at h with hdigit hlower hupper <;> obtain rfl := Option.some.inj h
  · have := hle hdigit.2
    have : '9'.toNat - '0'.toNat = 9 := rfl
    omega
  · have := hle hlower.2
    have : 'f'.toNat - 'a'.toNat = 5 := rfl
    omega
  · have := hle hupper.2
    have : 'F'.toNat - 'A'.toNat = 5 := rfl
    omega

theorem hexNumber_lt (digits : List Char) : hexNumber digits < 16 ^ digits.length := by
  induction digits using List.reverseRecOn with
  | nil => simp [hexNumber]
  | append_singleton digits c ih =>
      have hvalue : (hexValue c).getD 0 < 16 := by
        cases h : hexValue c with
        | none => simp
        | some n => exact hexValue_lt h
      rw [hexNumber, List.foldl_append, List.length_append, List.length_singleton, pow_succ]
      change 16 * hexNumber digits + (hexValue c).getD 0 < _
      omega

/-- An address of sixteen digits lies in the address space. -/
theorem hexNumber_take_lt (line : List Char) : hexNumber (line.take 16) < 2 ^ 64 := by
  have hlength : (line.take 16).length ≤ 16 := List.length_take_le 16 line
  calc
    hexNumber (line.take 16) < 16 ^ (line.take 16).length := hexNumber_lt _
    _ ≤ 16 ^ 16 := Nat.pow_le_pow_right (by decide) hlength
    _ = 2 ^ 64 := by decide

theorem vmmapRegion_eq_some {line : List Char} {l : MemoryRegion} (h : vmmapRegion line = some l) :
    ∃ first second, first = (line.drop 23).take 16 ∧ second = (line.drop 40).take 16 ∧
      (∀ c ∈ first, isHexDigit c) ∧ (∀ c ∈ second, isHexDigit c) ∧
      hexNumber first < hexNumber second ∧
      l = { regionBegin := hexNumber first, regionEnd := hexNumber second, isInUse := true } := by
  obtain ⟨⟨hfirst, hsecond, hlt⟩, hl⟩ := Option.ite_none_right_eq_some.mp h
  exact ⟨_, _, rfl, rfl, List.all_eq_true.mp hfirst, List.all_eq_true.mp hsecond, hlt,
    (Option.some.inj hl).symm⟩

theorem readRegion_of_vmmapRegion {line : List Char} {l : MemoryRegion}
    (h : vmmapRegion line = some l) : readRegion [] line = some (l, []) := by
  obtain ⟨_, _, rfl, rfl, hbegin, hend, hlt, rfl⟩ := vmmapRegion_eq_some h
  have hlength : 40 < line.length := by
    by_contra hshort
    rw [List.drop_eq_nil_of_le (by omega : line.length ≤ 40)] at hlt
    simp [hexNumber] at hlt
  have hfirst : 23 ≤ line.length := by omega
  simp only [readRegion, substr, if_pos hfirst, if_pos hlength.le, Option.bind_eq_bind,
    Option.bind_some, List.nil_append, extractHex_of_digits hbegin (hexNumber_take_lt _),
    extractHex_of_digits hend (hexNumber_take_lt _)]
  rfl

theorem mem_vmmapRegions {procOut : List Char} {l : MemoryRegion} (h : l ∈ vmmapRegions procOut) :
    l.regionBegin < l.regionEnd ∧ l.regionEnd < 2 ^ 64 ∧ l.isInUse = true ∧ l.name = "" := by
  obtain ⟨line, _, hl⟩ := List.mem_filterMap.mp h
  obtain ⟨_, _, rfl, rfl, _, _, hlt, rfl⟩ := vmmapRegion_eq_some hl
  exact ⟨hlt, hexNumber_take_lt _, rfl, rfl⟩

/-- Regions without names are put together as on Linux. -/
theorem addRegion_eq (res : List MemoryRegion) {region : MemoryRegion} (h : region.name = "") :
    addRegion res region = JetLive.addRegion res region := by
  unfold addRegion JetLive.addRegion
  cases hlast : res.getLast? with
  | none =>
      rw [List.getLast?_eq_none_iff.mp hlast]
      rfl
  | some back => simp [h]

theorem foldlM_readInto {lines : List (List Char)}
    (h : ∀ line ∈ lines, (vmmapRegion line).isSome) (res : List MemoryRegion) :
    lines.foldlM readInto (res, []) =
      some ((lines.filterMap vmmapRegion).foldl JetLive.addRegion res, []) := by
  induction lines generalizing res with
  | nil => rfl
  | cons line lines ih =>
      obtain ⟨hline, hlines⟩ := List.forall_mem_cons.mp h
      obtain ⟨l, hl⟩ := Option.isSome_iff_exists.mp hline
      have hname : l.name = "" := by
        obtain ⟨_, _, _, _, _, _, _, rfl⟩ := vmmapRegion_eq_some hl
        rfl
      rw [List.foldlM_cons, readInto, readRegion_of_vmmapRegion hl,
        List.filterMap_cons_some hl, List.foldl_cons, ← addRegion_eq res hname]
      exact ih hlines _

theorem SortedVmmap.getMemoryRegions_eq {procOut : List Char} (h : SortedVmmap procOut) :
    getMemoryRegions procOut = some ((vmmapRegions procOut).foldl JetLive.addRegion []) := by
  rw [Macos.getMemoryRegions_eq, foldlM_readInto h.mapped]
  rfl

theorem SortedVmmap.merged {procOut : List Char} (h : SortedVmmap procOut) :
    Merged (vmmapRegions procOut) ((vmmapRegions procOut).foldl JetLive.addRegion []) :=
  (merged_foldl_addRegion (fun _ hl => (mem_vmmapRegions hl).1)
    (fun _ hl => (mem_vmmapRegions hl).2.2.1) h.sorted).1

/-- The regions in use are those that `vmmap` has written. -/
theorem filter_isInUse_foldl {lines : List MemoryRegion} (h : ∀ l ∈ lines, l.isInUse = true)
    (res : List MemoryRegion) (hnames : ∀ l ∈ lines, l.name = "") :
    (lines.foldl JetLive.addRegion res).filter (·.isInUse) =
      res.filter (·.isInUse) ++ lines := by
  induction lines generalizing res with
  | nil => simp
  | cons l lines ih =>
      obtain ⟨huse, h⟩ := List.forall_mem_cons.mp h
      obtain ⟨hname, hnames⟩ := List.forall_mem_cons.mp hnames
      have hadd : (addRegion res l).filter (·.isInUse) = res.filter (·.isInUse) ++ [l] := by
        unfold addRegion
        split
        · simp [huse]
        · split <;> simp [huse]
      rw [List.foldl_cons, ih h _ hnames, ← addRegion_eq res hname, hadd, List.append_assoc]
      rfl

section FreePlace

variable {tellg : String → ℤ} {objectFilePaths : List String} {procOut : List Char}

/-- The base address is the begin of a gap that is large enough, or `0` if there is none. -/
theorem SortedVmmap.baseAddress_cases (h : SortedVmmap procOut)
    (hread : ∀ el ∈ objectFilePaths, 0 ≤ tellg el)
    (hsize : totalSize tellg objectFilePaths < 2 ^ 64) {b : ℕ}
    (hb : b = findPrefferedBaseAddressForLibrary tellg
      ((vmmapRegions procOut).foldl JetLive.addRegion []) objectFilePaths) :
    (b = 0 ∧ ∀ r, Gap (vmmapRegions procOut) r →
        r.regionEnd - r.regionBegin ≤ totalSize tellg objectFilePaths) ∨
      ∃ r, Gap (vmmapRegions procOut) r ∧ b = r.regionBegin ∧
        totalSize tellg objectFilePaths < r.regionEnd - r.regionBegin := by
  have hmerged := h.merged
  have hwidth : ∀ {r}, Gap (vmmapRegions procOut) r →
      (r.regionEnd + 2 ^ 64 - r.regionBegin) % 2 ^ 64 = r.regionEnd - r.regionBegin := by
    intro r hr
    have hlt := hmerged.nonempty r ((hmerged.free_iff r).mpr hr).1
    obtain ⟨l, l', hpair, _, _, rfl⟩ := hr
    obtain ⟨hl', hbound, _⟩ := mem_vmmapRegions (hpair.subset (by simp : l' ∈ [l, l']))
    dsimp only at hlt ⊢
    omega
  rw [findPrefferedBaseAddressForLibrary, foldl_tellg hread (by decide), Nat.zero_add,
    Nat.mod_eq_of_lt hsize] at hb
  subst hb
  split
  · rename_i r hfind
    have hlarge := List.find?_some hfind
    rw [Bool.and_eq_true, Bool.not_eq_true', decide_eq_true_iff] at hlarge
    have hr := (hmerged.free_iff r).mp ⟨List.mem_of_find?_eq_some hfind, hlarge.1⟩
    exact .inr ⟨r, hr, rfl, hwidth hr ▸ hlarge.2⟩
  · rename_i hfind
    refine .inl ⟨rfl, fun r hr => ?_⟩
    obtain ⟨hmem, hfree⟩ := (hmerged.free_iff r).mpr hr
    have hsmall := List.find?_eq_none.mp hfind r hmem
    rw [hfree, hwidth hr] at hsmall
    simpa using hsmall

/-- **The regions of macOS**: the regions in use are those that `vmmap` has written, in order, and
the regions follow each other without holes. The base address that is found in them is `0` exactly
if no gap is larger than the library, and any other is free for the whole library. -/
theorem SortedVmmap.regions_freePlace (h : SortedVmmap procOut)
    (hread : ∀ el ∈ objectFilePaths, 0 ≤ tellg el)
    (hsize : totalSize tellg objectFilePaths < 2 ^ 64) :
    ∃ regions, getMemoryRegions procOut = some regions ∧
      regions.filter (·.isInUse) = vmmapRegions procOut ∧
      (regions.IsChain fun r r' => r.regionEnd = r'.regionBegin) ∧
      let b := findPrefferedBaseAddressForLibrary tellg regions objectFilePaths
      let size := totalSize tellg objectFilePaths
      (b = 0 ↔ ∀ r, Gap (vmmapRegions procOut) r → r.regionEnd - r.regionBegin ≤ size) ∧
        (b ≠ 0 → ∀ l ∈ vmmapRegions procOut, l.regionEnd ≤ b ∨ b + size < l.regionBegin) := by
  refine ⟨_, h.getMemoryRegions_eq, ?_, h.merged.chain, ?_⟩
  · exact filter_isInUse_foldl (fun _ hl => (mem_vmmapRegions hl).2.2.1) []
      fun _ hl => (mem_vmmapRegions hl).2.2.2
  · intro b size
    rcases h.baseAddress_cases hread hsize (rfl : b = _) with ⟨hb, hgaps⟩ | ⟨r, hr, hb, hlarge⟩
    · exact ⟨iff_of_true hb hgaps, fun hne => absurd hb hne⟩
    · have hpos : b ≠ 0 := by
        obtain ⟨l, l', hpair, _, _, rfl⟩ := id hr
        have hl := (mem_vmmapRegions (hpair.subset (by simp : l ∈ [l, l']))).1
        rw [hb]
        exact ((Nat.zero_le _).trans_lt hl).ne'
      refine ⟨iff_of_false hpos fun hgaps => absurd (hgaps r hr) (not_le.mpr hlarge), ?_⟩
      intro _ l hl
      have hdisjoint := hr.disjoint (fun _ hl => (mem_vmmapRegions hl).1) h.sorted hl
      rw [hb]
      omega

end FreePlace

/-- A program with two regions side by side, a gap and a library. -/
def sampleVmmap : List Char :=
  "==== regions for process 7\nREGION TYPE\n".toList ++
    "__TEXT                 0000000100000000-0000000100001000\n".toList ++
    "__DATA                 0000000100001000-0000000100002000\n".toList ++
    "__TEXT                 0000000100008000-0000000100009000\n\n".toList

theorem sampleVmmap_regions_freePlace :
    ∃ regions, getMemoryRegions sampleVmmap = some regions ∧
      regions.filter (·.isInUse) = vmmapRegions sampleVmmap ∧
      findPrefferedBaseAddressForLibrary smallSizes regions ["a.o", "b.o"] = 0x100002000 ∧
      ∀ l ∈ vmmapRegions sampleVmmap,
        l.regionEnd ≤ 0x100002000 ∨ 0x100002000 + 0x2000 < l.regionBegin := by
  have hsorted : SortedVmmap sampleVmmap := ⟨by decide +kernel, by decide +kernel⟩
  have hread : ∀ el ∈ ["a.o", "b.o"], 0 ≤ smallSizes el := by simp [smallSizes]
  have hsize : totalSize smallSizes ["a.o", "b.o"] = 0x2000 := by decide +kernel
  obtain ⟨regions, hregions, huse, _, hplace⟩ :=
    hsorted.regions_freePlace hread (by rw [hsize]; decide)
  have hbase : (getMemoryRegions sampleVmmap).map (fun regions =>
      findPrefferedBaseAddressForLibrary smallSizes regions ["a.o", "b.o"]) =
        some 0x100002000 := by
    decide +kernel
  rw [hregions] at hbase
  have hb : findPrefferedBaseAddressForLibrary smallSizes regions ["a.o", "b.o"] = 0x100002000 :=
    Option.some.inj hbase
  dsimp only at hplace
  rw [hb, hsize] at hplace
  exact ⟨regions, hregions, huse, hb, hplace.2 (by decide)⟩

end Macos

end JetLive

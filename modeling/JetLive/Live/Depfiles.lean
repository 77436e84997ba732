import JetLive.Library.MakeRule
import JetLive.Live.Dependencies

/-!
# The layout of depfiles

The compiler writes the prerequisites of an object as a make rule, in any layout. The handler
reads the file line by line. It skips the line of the target with all prerequisites on it, it
skips each line that does not contain the text of a directory filter, and it takes the others
apart at their blanks, escaped or not. So a prerequisite is found if a layout shows it
(`Shows`), and a file next to a prerequisite is found with it. `layouts_agree_iff` tells when two
rules give all their prerequisites under the filters, and the same dependencies, and
`wrappings_agree_iff` when two wrappings of one list of prerequisites do.
-/

namespace JetLive

open TeenyPath MakeRule

def LiesUnder (dirFilters : Finset String) (p : Path) : Prop :=
  ∃ dir ∈ dirFilters, withSeparator dir.toList <+: p

section

variable (fs : FileSystem) (dirFilters : Finset String) (cu : CompilationUnit) (r : Rule)

def withDepfile : FileSystem :=
  { fs with
    read := Function.update fs.read (findDepfile fs cu).depFilePath (some (String.ofList r.text)) }

def depfileDependencies : Finset String :=
  (getDependencies (withDepfile fs cu r) dirFilters cu).2.1

def FindsAll : Prop :=
  ∀ p ∈ r.prerequisites, pathExists fs p → LiesUnder dirFilters (resolveAbsolute fs p) →
    absolute fs p ∈ depfileDependencies fs dirFilters cu r

/-- A line after the first one contains the text of a filter, and a piece between its blanks is
a path of the file. -/
def Shows (a : String) : Prop :=
  ∃ x ∈ marked r.rest,
    (∃ dir ∈ dirFilters, dir.toList <:+: (x.1.text ++ x.2).dropWhile (· = ' ')) ∧
    ∃ w ∈ x.1.words, pathExists fs w ∧ absolute fs w = a

/-- Every prerequisite that lies under a filter is shown, or is the source file of the unit. -/
def ShowsAll : Prop :=
  ∀ p ∈ r.prerequisites, pathExists fs p → LiesUnder dirFilters (resolveAbsolute fs p) →
    absolute fs p = cu.sourceFilePath ∨ Shows fs dirFilters r (absolute fs p)

end

variable {fs : FileSystem} {dirFilters : Finset String} {cu : CompilationUnit} {r : Rule}

theorem getLines_text (r : Rule) : getLines r.text = r.lines := by
  unfold getLines
  dsimp only
  rw [r.splitOn_text, List.getLast?_concat, if_pos rfl, List.dropLast_concat]

/-- The paths on a line that exist are those among its words. -/
theorem exists_mem_linePaths_iff (hempty : ¬ pathExists fs []) {x : Line × List Char}
    (hx : x ∈ marked r.rest) (a : String) :
    (∃ p ∈ linePaths dirFilters (x.1.text ++ x.2), pathExists fs p ∧ absolute fs p = a) ↔
      (∃ dir ∈ dirFilters, dir.toList <:+: (x.1.text ++ x.2).dropWhile (· = ' ')) ∧
        ∃ w ∈ x.1.words, pathExists fs w ∧ absolute fs w = a := by
  obtain ⟨next, hmark⟩ := mark_of_mem_marked hx
  have hend : x.2.all lineEnd = true := hmark ▸ all_mark next
  have hwords := words_line x.1 hend
  unfold linePaths
  dsimp only
  split
  · rename_i hfilter
    rw [← hwords]
    simp only [hfilter, true_and, wordsOf, List.mem_filter, decide_eq_true_eq]
    constructor
    · rintro ⟨p, hp, hexists, hpath⟩
      exact ⟨p, ⟨hp, fun hnil => hempty (hnil ▸ hexists)⟩, hexists, hpath⟩
    · rintro ⟨p, ⟨hp, _⟩, hexists, hpath⟩
      exact ⟨p, hp, hexists, hpath⟩
  · rename_i hfilter
    simp [hfilter]

/-- The dependencies are the source file and the files that the layout shows. -/
theorem mem_depfileDependencies (hdepfile : (findDepfile fs cu).depFilePath ≠ "")
    (hempty : ¬ pathExists fs []) (a : String) :
    a ∈ depfileDependencies fs dirFilters cu r ↔
      a = cu.sourceFilePath ∨ Shows fs dirFilters r a := by
  have hread : (withDepfile fs cu r).read (findDepfile fs cu).depFilePath =
      some (String.ofList r.text) := Function.update_self _ _ _
  have hfind : findDepfile (withDepfile fs cu r) cu = findDepfile fs cu := rfl
  unfold depfileDependencies getDependencies
  dsimp only
  rw [hfind, if_neg hdepfile, hread]
  dsimp only
  rw [mem_foldl_addDependency, Finset.mem_singleton, findDepfile_sourceFilePath,
    String.toList_ofList, getLines_text]
  refine or_congr_right ?_
  simp only [Rule.lines, List.drop_succ_cons, List.drop_zero, List.mem_flatMap, List.mem_map]
  constructor
  · rintro ⟨p, ⟨_, ⟨x, hx, rfl⟩, hp⟩, hexists⟩
    exact ⟨x, hx, (exists_mem_linePaths_iff hempty hx a).mp ⟨p, hp, hexists⟩⟩
  · rintro ⟨x, hx, hshown⟩
    obtain ⟨p, hp, hexists⟩ := (exists_mem_linePaths_iff hempty hx a).mpr hshown
    exact ⟨p, ⟨_, ⟨x, hx, rfl⟩, hp⟩, hexists⟩

theorem findsAll_iff (hdepfile : (findDepfile fs cu).depFilePath ≠ "")
    (hempty : ¬ pathExists fs []) (r : Rule) :
    FindsAll fs dirFilters cu r ↔ ShowsAll fs dirFilters cu r := by
  unfold FindsAll ShowsAll
  simp only [mem_depfileDependencies hdepfile hempty]

theorem depfileDependencies_eq_iff (hdepfile : (findDepfile fs cu).depFilePath ≠ "")
    (hempty : ¬ pathExists fs []) (r r' : Rule) :
    depfileDependencies fs dirFilters cu r = depfileDependencies fs dirFilters cu r' ↔
      ∀ a ≠ cu.sourceFilePath, Shows fs dirFilters r a ↔ Shows fs dirFilters r' a := by
  simp only [mem_depfileDependencies hdepfile hempty, Finset.ext_iff]
  refine forall_congr' fun a => ?_
  by_cases ha : a = cu.sourceFilePath
  · simp [ha]
  · simp [ha]

/-- Two layouts give all prerequisites under the filters, and the same dependencies, exactly if
both show these prerequisites and the same files at all. -/
theorem layouts_agree_iff (hdepfile : (findDepfile fs cu).depFilePath ≠ "")
    (hempty : ¬ pathExists fs []) (r r' : Rule) :
    (FindsAll fs dirFilters cu r ∧ FindsAll fs dirFilters cu r' ∧
        depfileDependencies fs dirFilters cu r = depfileDependencies fs dirFilters cu r') ↔
      ShowsAll fs dirFilters cu r ∧ ShowsAll fs dirFilters cu r' ∧
        ∀ a ≠ cu.sourceFilePath, Shows fs dirFilters r a ↔ Shows fs dirFilters r' a := by
  refine and_congr (findsAll_iff hdepfile hempty r) (and_congr (findsAll_iff hdepfile hempty r') ?_)
  exact depfileDependencies_eq_iff hdepfile hempty r r'

/-- Two wrappings of one list of prerequisites: it is enough that one of them shows all, and
the other one the same files. -/
theorem wrappings_agree_iff (hdepfile : (findDepfile fs cu).depFilePath ≠ "")
    (hempty : ¬ pathExists fs []) {r r' : Rule} (hsame : r.prerequisites = r'.prerequisites) :
    (FindsAll fs dirFilters cu r ∧ FindsAll fs dirFilters cu r' ∧
        depfileDependencies fs dirFilters cu r = depfileDependencies fs dirFilters cu r') ↔
      ShowsAll fs dirFilters cu r ∧
        ∀ a ≠ cu.sourceFilePath, Shows fs dirFilters r a ↔ Shows fs dirFilters r' a := by
  rw [findsAll_iff hdepfile hempty, depfileDependencies_eq_iff hdepfile hempty]
  refine and_congr_right fun hshows => and_iff_right_of_imp fun hiff => ?_
  rw [findsAll_iff hdepfile hempty]
  intro p hp hexists hunder
  refine (hshows p (hsame ▸ hp) hexists hunder).elim Or.inl fun hshown => ?_
  exact or_iff_not_imp_left.mpr fun hne => (hiff _ hne).mp hshown

/-! ## Two prerequisites -/

namespace TwoPrerequisites

/-- The files below `/p`, and the depfile below `/b`. -/
def files : FileSystem where
  access p := p ∈ ["/p/a.cpp", "/p/b.h", "/b/a.o.d"]
  realpath _ := none
  isDirectory _ := false
  read _ := none

def unit : CompilationUnit where
  sourceFilePath := "/p/a.cpp"
  objFilePath := "/b/a.o"

/-- Some names on a line, with one blank in front of each. -/
def line (names : List String) (trailing : ℕ)
    (h : ∀ n ∈ names, n.toList ≠ [] ∧ '\n' ∉ n.toList ∧ n.toList.getLast? ≠ some '\\') : Line where
  names := names.map fun n => (1, n.toList)
  trailing := trailing
  separated := by
    intro x hx
    obtain ⟨n, _, rfl⟩ := List.mem_map.mp (List.mem_of_mem_tail hx)
    exact le_rfl
  named := by
    intro x hx
    obtain ⟨n, hn, rfl⟩ := List.mem_map.mp hx
    exact ⟨(h n hn).1, (h n hn).2.1⟩
  ended := by
    intro x hx hlast
    obtain ⟨n, hn, rfl⟩ := List.mem_map.mp (List.mem_of_getLast? hx)
    exact absurd hlast (h n hn).2.2

def onTargetLine : Rule where
  target := "/b/a.o".toList
  first := line ["/p/a.cpp", "/p/b.h"] 0 (by decide +kernel)
  rest := []
  named := by decide +kernel

/-- The second prerequisite stands on a line of its own. -/
def onTwoLines : Rule where
  target := "/b/a.o".toList
  first := line ["/p/a.cpp"] 1 (by decide +kernel)
  rest := [line ["/p/b.h"] 0 (by decide +kernel)]
  named := by decide +kernel

def onLaterLine : Rule where
  target := "/b/a.o".toList
  first := line [] 1 (by decide +kernel)
  rest := [line ["/p/a.cpp", "/p/b.h"] 0 (by decide +kernel)]
  named := by decide +kernel

/-- What one later line shows. -/
theorem shows_iff {r : Rule} {l : Line} (hrest : r.rest = [l]) {names : List String}
    (hwords : l.words = names.map String.toList)
    (hfilter : "/p".toList <:+: l.text.dropWhile (· = ' '))
    (hnames : ∀ n ∈ names, pathExists files n.toList ∧ absolute files n.toList = n) (a : String) :
    Shows files {"/p"} r a ↔ a ∈ names := by
  have hmarked : marked r.rest = [(l, [])] := by rw [hrest]; rfl
  unfold Shows
  simp only [hmarked, List.mem_singleton, exists_eq_left, Finset.mem_singleton, List.append_nil,
    hfilter, true_and, hwords, List.mem_map, exists_exists_and_eq_and]
  constructor
  · rintro ⟨n, hn, _, rfl⟩
    rw [(hnames n hn).2]
    exact hn
  · intro ha
    exact ⟨a, ha, hnames a ha⟩

end TwoPrerequisites

open TwoPrerequisites

theorem onTwoLines_agrees :
    onTwoLines.prerequisites = onLaterLine.prerequisites ∧
      FindsAll files {"/p"} unit onTwoLines ∧ FindsAll files {"/p"} unit onLaterLine ∧
      depfileDependencies files {"/p"} unit onTwoLines =
        depfileDependencies files {"/p"} unit onLaterLine := by
  have htwo : ∀ a, Shows files {"/p"} onTwoLines a ↔ a ∈ ["/p/b.h"] :=
    shows_iff rfl rfl (by decide +kernel) (by decide +kernel)
  have hlater : ∀ a, Shows files {"/p"} onLaterLine a ↔ a ∈ ["/p/a.cpp", "/p/b.h"] :=
    shows_iff rfl rfl (by decide +kernel) (by decide +kernel)
  have hpaths : ∀ p ∈ onTwoLines.prerequisites,
      absolute files p = "/p/a.cpp" ∨ absolute files p = "/p/b.h" := by decide +kernel
  have hsame : onTwoLines.prerequisites = onLaterLine.prerequisites := by decide +kernel
  refine ⟨hsame, (layouts_agree_iff (by decide +kernel) (by decide +kernel) _ _).mpr ⟨?_, ?_, ?_⟩⟩
  · intro p hp _ _
    rw [htwo, List.mem_singleton]
    exact hpaths p hp
  · intro p hp _ _
    rw [hlater]
    simpa using Or.inr (hpaths p (hsame ▸ hp))
  · intro a ha
    rw [htwo, hlater]
    simp [show a ≠ "/p/a.cpp" from ha]

/-- The second prerequisite is lost on the line of the target. -/
theorem onTargetLine_not_agrees :
    onTargetLine.prerequisites = onTwoLines.prerequisites ∧
      ¬ FindsAll files {"/p"} unit onTargetLine ∧
      depfileDependencies files {"/p"} unit onTargetLine ≠
        depfileDependencies files {"/p"} unit onTwoLines := by
  refine ⟨by decide +kernel, ?_, by decide +kernel⟩
  intro hfinds
  have hunder : LiesUnder {"/p"} (resolveAbsolute files "/p/b.h".toList) :=
    ⟨"/p", Finset.mem_singleton_self _, by decide +kernel⟩
  have hmem := hfinds "/p/b.h".toList (by decide +kernel) (by decide +kernel) hunder
  exact absurd hmem (by decide +kernel)

end JetLive

import JetLive.DataTypes
import JetLive.TeenyPath.Normal
import Mathlib.Data.List.DropRight

/-!
# Dependencies of the compilation units

The depfile of a unit, as the compiler has written it, gives the paths the unit
depends on; `updateDependencies` enters them into the two dependency maps of the
context and watches their directories. A change of a file is reported under the
path `eventPath`, made of the watched directory and the name of the file;
`eventPath_eq_iff` says for which recorded paths this is the recorded path again.
-/

namespace JetLive

open Containers TeenyPath

/-- The lines `std::getline` reads: what follows the last line break only counts if
it is not empty. -/
def getLines (content : Path) : List Path :=
  let lines := content.splitOn '\n'
  if lines.getLast? = some [] then lines.dropLast else lines

/-- The depfile of a unit: the one of the command, `file.o.d` or `file.d`. -/
def findDepfile (fs : FileSystem) (cu : CompilationUnit) : CompilationUnit :=
  let cu :=
    if cu.depFilePath = "" ∧ pathExists fs (cu.objFilePath ++ ".d").toList then
      { cu with depFilePath := cu.objFilePath ++ ".d" }
    else cu
  let depfilePath := cu.objFilePath.toList.dropLast ++ ['d']
  if cu.depFilePath = "" ∧ pathExists fs depfilePath then
    { cu with depFilePath := String.ofList depfilePath }
  else cu

/-- The paths on one line of a depfile: none unless the line contains one of the
directory filters. -/
def linePaths (dirFilters : Finset String) (line : Path) : List Path :=
  let line := line.dropWhile (· = ' ')
  if ∃ dir ∈ dirFilters, dir.toList <:+: line then
    (line.rdropWhile fun c => c = ' ' ∨ c = '\\').splitOn ' '
  else []

def absolute (fs : FileSystem) (p : Path) : String := String.ofList (resolveAbsolute fs p)

def addDependency (fs : FileSystem) (found : Finset String × List LogEntry) (p : Path) :
    Finset String × List LogEntry :=
  if pathExists fs p then (insert (String.ofList (resolveAbsolute fs p)) found.1, found.2)
  else
    (found.1, found.2 ++ [.log .kWarning ("Depfile doesn't exist: " ++ String.ofList p)])

/-- The dependencies of a unit, with the unit, whose depfile may have been found, and
the log entries. The first line of a depfile is the path of the object file. -/
def getDependencies (fs : FileSystem) (dirFilters : Finset String) (cu : CompilationUnit) :
    CompilationUnit × Finset String × List LogEntry :=
  let cu := findDepfile fs cu
  let deps : Finset String := {cu.sourceFilePath}
  if cu.depFilePath = "" then
    if ['.', 'a', 's', 'm'] <:+ cu.sourceFilePath.toList then (cu, deps, [])
    else (cu, deps, [.log .kWarning ("Empty depfile path for cu: " ++ cu.sourceFilePath)])
  else match fs.read cu.depFilePath with
    | none => (cu, deps, [.log .kWarning ("Cannot open depfile: " ++ cu.depFilePath)])
    | some content =>
        let paths := ((getLines content.toList).drop 1).flatMap (linePaths dirFilters)
        (cu, paths.foldl (addDependency fs) (deps, []))

theorem findDepfile_sourceFilePath (fs : FileSystem) (cu : CompilationUnit) :
    (findDepfile fs cu).sourceFilePath = cu.sourceFilePath := by
  unfold findDepfile
  dsimp only
  split <;> split <;> rfl

theorem mem_foldl_addDependency (fs : FileSystem) (paths : List Path)
    (found : Finset String × List LogEntry) (a : String) :
    a ∈ (paths.foldl (addDependency fs) found).1 ↔
      a ∈ found.1 ∨ ∃ p ∈ paths, pathExists fs p ∧ absolute fs p = a := by
  induction paths generalizing found with
  | nil => simp
  | cons p paths ih =>
      rw [List.foldl_cons, ih]
      by_cases hp : pathExists fs p
      · simp only [addDependency, hp, if_true, Finset.mem_insert, List.mem_cons, exists_eq_or_imp,
          true_and, absolute, eq_comm (a := a)]
        tauto
      · simp [addDependency, hp]

/-- The changes of the context made for the dependencies of a unit: the inverse
dependencies, the dependencies, the unit itself, and with a file watcher the
directories to monitor. The loops over the sets take the given order. -/
def updateDependencies (fs : FileSystem) (order : Iteration String) (watching : Bool)
    (cu : CompilationUnit) (context : LiveContext) : LiveContext × List LogEntry :=
  let path := cu.sourceFilePath
  let oldDeps := order.toList (lookupSet context.dependencies path)
  let inverse := oldDeps.foldl (fun m dep => eraseAt m path dep) context.inverseDependencies
  let found := getDependencies fs context.dirFilters cu
  let cuDeps := found.2.1
  let dirs := cuDeps.image parentOf
  ({ context with
     compilationUnits := context.compilationUnits.insert path found.1
     inverseDependencies :=
       (order.toList cuDeps).foldl (fun m dep => insertAt m path dep) inverse
     dependencies := context.dependencies.insert path cuDeps
     dirsToMonitor := if watching then context.dirsToMonitor ∪ dirs else context.dirsToMonitor },
   found.2.2)

def removeDependencies (order : Iteration String) (path : String) (context : LiveContext) :
    LiveContext :=
  { context with
    inverseDependencies :=
      (order.toList (lookupSet context.dependencies path)).foldl
        (fun m dep => eraseAt m path dep) context.inverseDependencies
    dependencies := context.dependencies.erase path }

/-- The unit is recorded under each of its dependencies. -/
theorem mem_inverseDependencies_updateDependencies (fs : FileSystem) (order : Iteration String)
    (watching : Bool) (cu : CompilationUnit) (context : LiveContext) {d : String}
    (hd : d ∈ (getDependencies fs context.dirFilters cu).2.1) :
    cu.sourceFilePath ∈
      lookupSet (updateDependencies fs order watching cu context).1.inverseDependencies d := by
  unfold updateDependencies
  rw [mem_foldl_insertAt]
  exact Or.inl ⟨(order.mem_toList _ d).mpr hd, rfl⟩

/-! ## The path of a file event -/

/-- The directory of an event is the watched directory with a separator at its end. -/
def withSeparator (dir : Path) : Path := if dir.getLast? = some '/' then dir else dir ++ ['/']

/-- The path `Live` builds for an event on the file `p`: its directory is watched, and
the event carries the directory and the name of the file. -/
def eventPath (p : Path) : Path := withSeparator (parentPath p) ++ filename p

/-- The path ends with the name of a file: not with a separator, `.` or `..`. -/
def NamesFile (p : Path) : Prop := filename p ≠ [] ∧ Plain (filename p)

/-- A path that events are reported under again: lexically normal, below a directory
that is not the root of the path, and with a single separator before the name. -/
def Refindable (p : Path) : Prop :=
  isLexicallyNormal p ∧ ¬ isRoot p ∧ '/' ∈ p ∧ (beforeLastSeparator p).getLast? ≠ some '/'

instance (p : Path) : Decidable (NamesFile p) := inferInstanceAs (Decidable (_ ∧ _ ∧ _))

instance (p : Path) : Decidable (Refindable p) := inferInstanceAs (Decidable (_ ∧ _ ∧ _ ∧ _))

theorem withSeparator_eq (dir : Path) : ∃ q, withSeparator dir = q ++ ['/'] ∧
    (dir = q ∨ dir = q ++ ['/']) := by
  unfold withSeparator
  split
  · rename_i h
    obtain ⟨q, rfl⟩ := List.getLast?_eq_some_iff.mp h
    exact ⟨q, rfl, Or.inr rfl⟩
  · exact ⟨dir, rfl, Or.inl rfl⟩

/-- Event paths are lexically normal. -/
theorem normal_eventPath {p : Path} (hfile : NamesFile p) : Normal (eventPath p) := by
  obtain ⟨q, hq, hdir⟩ := withSeparator_eq (parentPath p)
  have hnormal : Normal q := by
    rcases hdir with hdir | hdir
    · exact hdir ▸ normal_parentPath p
    · have h := normal_parentPath p
      rw [hdir] at h
      exact ((normal_append_cons q []).mp h).1
  rw [eventPath, hq, List.append_assoc, List.singleton_append, normal_append_cons]
  exact ⟨hnormal, (normal_of_notMem (separator_notMem_filename p)).mpr hfile.2⟩

theorem separator_mem_eventPath (p : Path) : '/' ∈ eventPath p := by
  obtain ⟨q, hq, _⟩ := withSeparator_eq (parentPath p)
  simp [eventPath, hq]

theorem getRoot_ne_nil_of_isAbsolute {p : Path} (h : isAbsolute p) : getRoot p ≠ [] := by
  unfold isAbsolute at h
  unfold getRoot
  split
  · split <;> simp
  · simp
  · split at h <;> simp_all

/-- The parent of a root is the root itself, so that a file right below `/` is
reported as lying below itself. -/
theorem eventPath_ne_of_isRoot {p : Path} (hfile : NamesFile p) (hroot : isRoot p) :
    eventPath p ≠ p := by
  intro heq
  have hparent : parentPath p = getRoot p := by
    rw [parentPath, if_pos hroot]
  obtain ⟨s, hs, hsep⟩ : ∃ s, withSeparator (getRoot p) = getRoot p ++ s ∧
      (s = [] ∨ s = ['/']) := by
    unfold withSeparator
    split
    · exact ⟨[], by simp, Or.inl rfl⟩
    · exact ⟨['/'], rfl, Or.inr rfl⟩
  have hdrop : p.drop (getRoot p).length = s ++ filename p := by
    rw [eventPath, hparent, hs, List.append_assoc] at heq
    nth_rewrite 2 [← heq]
    exact List.drop_left
  have hmem : filename p ∈ (p.drop (getRoot p).length).splitOn '/' := by
    rw [hdrop]
    have hname := List.splitOn_eq_singleton (separator_notMem_filename p)
    rcases hsep with rfl | rfl
    · simp [hname]
    · simp [List.splitOn_cons_eq_if_modifyHead, hname]
  have hrest : filename p ∈ ((p.drop (getRoot p).length).splitOn '/').filter (· ≠ []) :=
    List.mem_filter.mpr ⟨hmem, by simpa using hfile.1⟩
  simp only [isRoot, Bool.or_eq_true, Bool.and_eq_true, decide_eq_true_eq] at hroot
  rcases hroot with (⟨hlength, habs⟩ | rfl) | rfl
  · have hne := getRoot_ne_nil_of_isAbsolute habs
    rw [split, if_neg hne, List.singleton_append, List.length_cons, Nat.add_eq_right,
      List.length_eq_zero_iff] at hlength
    rw [hlength] at hrest
    exact absurd hrest List.not_mem_nil
  · exact hfile.1 rfl
  · exact hfile.1 rfl

/-- A recorded path of a file is found again under the path of its events exactly if
it is refindable. -/
theorem eventPath_eq_iff {p : Path} (hfile : NamesFile p) : eventPath p = p ↔ Refindable p := by
  constructor
  · intro heq
    have hnormal : isLexicallyNormal p := by
      rw [isLexicallyNormal_iff, ← heq]
      exact normal_eventPath hfile
    have hroot : ¬ isRoot p := fun h => eventPath_ne_of_isRoot hfile h heq
    have hsep : '/' ∈ p := heq ▸ separator_mem_eventPath p
    refine ⟨hnormal, hroot, hsep, ?_⟩
    intro hlast
    have hparent : parentPath p = beforeLastSeparator p := by
      rw [parentPath, if_neg hroot, if_pos hnormal]
    have hlength := congrArg List.length (beforeLastSeparator_append hsep)
    rw [eventPath, hparent, withSeparator, if_pos hlast] at heq
    have hlength' := congrArg List.length heq
    simp only [List.length_append, List.length_cons] at hlength hlength'
    omega
  · rintro ⟨hnormal, hroot, hsep, hlast⟩
    have hparent : parentPath p = beforeLastSeparator p := by
      rw [parentPath, if_neg hroot, if_pos hnormal]
    rw [eventPath, hparent, withSeparator, if_neg hlast, List.append_assoc,
      List.singleton_append, beforeLastSeparator_append hsep]

end JetLive

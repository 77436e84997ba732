import JetLive.TeenyPath.Components
import Mathlib.Data.List.Infix

/-!
# The search for `compile_commands.json`

Without a known path the file is searched for in the directory of the executable and then in the
directories above it. The loop goes up by the parents of TeenyPath, for which the first directory
of a path is a root. So it never looks into the first directory and into `/`, except that the first
directory is looked into if the executable is in it. `SearchEnds` says what the loop returns; it
does not always end.
-/

namespace JetLive

open TeenyPath

def compileCommandsJson : Path := "compile_commands.json".toList

/-- The loop over the directories, with as many turns as it is given. -/
def searchUp (fs : FileSystem) : ℕ → Path → Option Path
  | 0, _ => none
  | turns + 1, dbPath =>
      if pathExists fs dbPath ∨ dbPath = [] then some dbPath
      else
        let upper := parentPath (parentPath dbPath)
        if isRoot upper then some []
        else searchUp fs turns (append upper compileCommandsJson)

def getCompileCommandsPath (fs : FileSystem) (turns : ℕ)
    (compileCommandsPath thisExecutablePath : Path) : Option Path :=
  if compileCommandsPath ≠ [] ∧ pathExists fs compileCommandsPath then some compileCommandsPath
  else
    (searchUp fs turns (append (parentPath thisExecutablePath) compileCommandsJson)).map
      (resolveAbsolute fs)

def SearchEnds (fs : FileSystem) (dbPath r : Path) : Prop :=
  ∃ turns, searchUp fs turns dbPath = some r

section SearchEnds

variable {fs : FileSystem} {dbPath r : Path}

theorem searchEnds_of_exists (h : pathExists fs dbPath = true) :
    SearchEnds fs dbPath r ↔ r = dbPath := by
  constructor
  · rintro ⟨_ | turns, hr⟩
    · simp [searchUp] at hr
    · simpa [searchUp, h, eq_comm] using hr
  · rintro rfl
    exact ⟨1, by simp [searchUp, h]⟩

theorem searchEnds_of_root (h : pathExists fs dbPath = false) (hne : dbPath ≠ [])
    (hroot : isRoot (parentPath (parentPath dbPath)) = true) : SearchEnds fs dbPath r ↔ r = [] := by
  constructor
  · rintro ⟨_ | turns, hr⟩
    · simp [searchUp] at hr
    · simpa [searchUp, h, hne, hroot, eq_comm] using hr
  · rintro rfl
    exact ⟨1, by simp [searchUp, h, hne, hroot]⟩

theorem searchUp_succ (h : pathExists fs dbPath = false) (hne : dbPath ≠ [])
    (hroot : isRoot (parentPath (parentPath dbPath)) = false) (turns : ℕ) :
    searchUp fs (turns + 1) dbPath =
      searchUp fs turns (append (parentPath (parentPath dbPath)) compileCommandsJson) := by
  simp [searchUp, h, hne, hroot]

theorem searchEnds_of_up (h : pathExists fs dbPath = false) (hne : dbPath ≠ [])
    (hroot : isRoot (parentPath (parentPath dbPath)) = false) :
    SearchEnds fs dbPath r ↔
      SearchEnds fs (append (parentPath (parentPath dbPath)) compileCommandsJson) r := by
  constructor
  · rintro ⟨_ | turns, hr⟩
    · simp [searchUp] at hr
    · exact ⟨turns, by rwa [searchUp_succ h hne hroot] at hr⟩
  · rintro ⟨turns, hr⟩
    exact ⟨turns + 1, by rwa [searchUp_succ h hne hroot]⟩

/-- The loop does not end if a turn changes nothing. -/
theorem not_searchEnds_of_stuck (h : pathExists fs dbPath = false) (hne : dbPath ≠ [])
    (hroot : isRoot (parentPath (parentPath dbPath)) = false)
    (hstuck : append (parentPath (parentPath dbPath)) compileCommandsJson = dbPath) :
    ¬ SearchEnds fs dbPath r := by
  rintro ⟨turns, hr⟩
  induction turns with
  | zero => simp [searchUp] at hr
  | succ turns ih =>
      rw [searchUp_succ h hne hroot, hstuck] at hr
      exact ih hr

theorem getCompileCommandsPath_eq_some_iff {thisExecutablePath : Path} :
    (∃ turns, getCompileCommandsPath fs turns [] thisExecutablePath = some r) ↔
      ∃ dbPath, SearchEnds fs (append (parentPath thisExecutablePath) compileCommandsJson) dbPath ∧
        resolveAbsolute fs dbPath = r := by
  simp only [getCompileCommandsPath, ne_eq, not_true_eq_false, false_and, if_false,
    Option.map_eq_some_iff, SearchEnds]
  constructor
  · rintro ⟨turns, dbPath, hdb, hr⟩
    exact ⟨dbPath, ⟨turns, hdb⟩, hr⟩
  · rintro ⟨dbPath, ⟨turns, hdb⟩, hr⟩
    exact ⟨turns, dbPath, hdb, hr⟩

end SearchEnds

/-! ## Directories without links -/

/-- The file system with the given files, which are named by their components, seen from a working
directory. -/
def FileSystem.ofFiles (cwd : List Path) (present : List Path → Bool) : FileSystem where
  access s :=
    match s.toList with
    | '/' :: p => present (p.splitOn '/')
    | _ => false
  realpath s :=
    match s.toList with
    | [] => none
    | '/' :: p => if present (p.splitOn '/') then some s else none
    | p =>
        if present (cwd ++ p.splitOn '/') then
          some (String.ofList (absolutePath (cwd ++ p.splitOn '/')))
        else none
  isDirectory _ := false
  read _ := none

def firstDatabase (present : List Path → Bool) (dirs : List (List Path)) : Path :=
  match dirs.find? fun ds => present (ds ++ [compileCommandsJson]) with
  | some ds => absolutePath (ds ++ [compileCommandsJson])
  | none => []

/-- The file of the nearest directory among the given one and those above it. -/
def nearestDatabase (present : List Path → Bool) (dirs : List Path) : Path :=
  firstDatabase present dirs.inits.reverse

section OfFiles

variable {cwd : List Path} {present : List Path → Bool} {c d x name : Path} {cs ds dirs : List Path}
  {l l' : List (List Path)}

theorem component_compileCommandsJson : Component compileCommandsJson :=
  ⟨by decide, by decide, by decide, by decide⟩

theorem pathExists_absolutePath (hcs : ∀ x ∈ c :: cs, Component x) :
    pathExists (.ofFiles cwd present) (absolutePath (c :: cs)) = present (c :: cs) := by
  obtain ⟨hc, hcs'⟩ := List.forall_mem_cons.mp hcs
  rw [pathExists, resolveAbsolute, if_pos (isAbsolute_absolutePath_cons hc cs)]
  simp only [FileSystem.ofFiles, String.toList_ofList, absolutePath_cons]
  rw [splitOn_append_absolutePath hc.separator_notMem fun x hx => (hcs' x hx).separator_notMem]

theorem firstDatabase_append : firstDatabase present (l ++ l') =
    if ∃ ds ∈ l, present (ds ++ [compileCommandsJson]) = true then firstDatabase present l
    else firstDatabase present l' := by
  unfold firstDatabase
  rw [List.find?_append]
  split_ifs with h
  · obtain ⟨ds, hds⟩ := Option.isSome_iff_exists.mp (List.find?_isSome.mpr h)
    rw [hds, Option.some_or]
  · have hnone : l.find? (fun ds => present (ds ++ [compileCommandsJson])) = none :=
      List.find?_eq_none.mpr fun ds hds hpresent => h ⟨ds, hds, hpresent⟩
    rw [hnone, Option.none_or]

theorem firstDatabase_eq_nil_iff : firstDatabase present l = [] ↔
    ∀ ds ∈ l, present (ds ++ [compileCommandsJson]) = false := by
  unfold firstDatabase
  cases hfind : l.find? (fun ds => present (ds ++ [compileCommandsJson])) with
  | none => simpa using List.find?_eq_none.mp hfind
  | some ds =>
      have hne : absolutePath (ds ++ [compileCommandsJson]) ≠ [] := by
        rw [absolutePath_concat]
        simp
      refine iff_of_false hne fun h => ?_
      have hpresent := List.find?_some hfind
      rw [h ds (List.mem_of_find?_eq_some hfind)] at hpresent
      exact absurd hpresent (by simp)

/-- Directories that are not looked into do not matter if the file is found before or is in none of
them. -/
theorem firstDatabase_eq_append_iff : firstDatabase present l = firstDatabase present (l ++ l') ↔
    (∃ ds ∈ l, present (ds ++ [compileCommandsJson]) = true) ∨
      ∀ ds ∈ l', present (ds ++ [compileCommandsJson]) = false := by
  rw [firstDatabase_append]
  split_ifs with h
  · exact iff_of_true rfl (.inl h)
  · have hnil : firstDatabase present l = [] := firstDatabase_eq_nil_iff.mpr fun ds hds => by
      simpa using fun hpresent => h ⟨ds, hds, hpresent⟩
    rw [hnil, eq_comm, firstDatabase_eq_nil_iff, or_iff_right h]

theorem firstDatabase_cons (ds : List Path) : firstDatabase present (ds :: l) =
    if present (ds ++ [compileCommandsJson]) = true then absolutePath (ds ++ [compileCommandsJson])
    else firstDatabase present l := by
  cases h : present (ds ++ [compileCommandsJson]) <;> simp [firstDatabase, h]

/-- The directories below `d` on the way up from `d :: ds`, without `d` itself. -/
def below (d : Path) (ds : List Path) : List (List Path) :=
  (ds.inits.tail.map (d :: ·)).reverse

theorem below_concat (d : Path) (ds : List Path) (x : Path) :
    below d (ds ++ [x]) = (d :: (ds ++ [x])) :: below d ds := by
  have hinits : (ds ++ [x]).inits.tail = ds.inits.tail ++ [ds ++ [x]] := by
    rw [List.inits_append, List.tail_append_of_ne_nil (List.ne_nil_of_length_pos (by simp))]
    rfl
  rw [below, hinits]
  simp [below]

theorem inits_reverse_cons (d : Path) (ds : List Path) :
    (d :: ds).inits.reverse = below d ds ++ [[d], []] := by
  have hinits : ds.inits = [] :: ds.inits.tail := by
    cases ds <;> simp
  rw [List.inits_cons, hinits]
  simp [below]

theorem mem_below {y : List Path} :
    y ∈ below d ds ↔ ∃ ds', ds' <+: ds ∧ ds' ≠ [] ∧ y = d :: ds' := by
  have htail : ∀ ds', ds' ∈ ds.inits.tail ↔ ds' <+: ds ∧ ds' ≠ [] := by
    intro ds'
    cases ds with
    | nil =>
        refine iff_of_false List.not_mem_nil ?_
        rintro ⟨hnil, hne⟩
        exact hne (List.prefix_nil.mp hnil)
    | cons a ds =>
        rw [List.inits_cons, List.tail_cons, List.prefix_cons_iff]
        simp only [List.mem_map, List.mem_inits]
        constructor
        · rintro ⟨t, ht, rfl⟩
          exact ⟨.inr ⟨t, rfl, ht⟩, List.cons_ne_nil _ _⟩
        · rintro ⟨rfl | ⟨t, rfl, ht⟩, hne⟩
          · exact absurd rfl hne
          · exact ⟨t, ht, rfl⟩
  simp only [below, List.mem_reverse, List.mem_map, htail]
  constructor
  · rintro ⟨ds', ⟨hpre, hne⟩, rfl⟩
    exact ⟨ds', hpre, hne, rfl⟩
  · rintro ⟨ds', hpre, hne, rfl⟩
    exact ⟨ds', ⟨hpre, hne⟩, rfl⟩

theorem component_concat (hcs : ∀ y ∈ cs, Component y) :
    ∀ y ∈ cs ++ [compileCommandsJson], Component y := by
  simpa [or_imp, forall_and] using ⟨hcs, component_compileCommandsJson⟩

/-- The parent of the file is its directory. -/
theorem parentPath_database (hcs : ∀ y ∈ cs, Component y) (hne : cs ≠ []) :
    parentPath (absolutePath (cs ++ [compileCommandsJson])) = absolutePath cs := by
  rw [parentPath_absolutePath_concat (component_concat hcs), if_neg fun h => hne h.1]

/-- One turn of the loop from a directory below the first one. -/
theorem searchEnds_below (hds : ∀ y ∈ d :: (ds ++ [x]), Component y) {r : Path} :
    SearchEnds (.ofFiles cwd present) (absolutePath (d :: (ds ++ [x]) ++ [compileCommandsJson])) r ↔
      if present (d :: (ds ++ [x]) ++ [compileCommandsJson]) = true then
        r = absolutePath (d :: (ds ++ [x]) ++ [compileCommandsJson])
      else if ds = [] ∧ ¬ Dotted d then r = []
      else
        SearchEnds (.ofFiles cwd present) (absolutePath (d :: ds ++ [compileCommandsJson])) r := by
  have hexists : pathExists (.ofFiles cwd present)
      (absolutePath (d :: (ds ++ [x]) ++ [compileCommandsJson])) =
        present (d :: (ds ++ [x]) ++ [compileCommandsJson]) :=
    pathExists_absolutePath (component_concat hds)
  have hne : absolutePath (d :: (ds ++ [x]) ++ [compileCommandsJson]) ≠ [] := by simp
  have hds' : ∀ y ∈ d :: ds, Component y := fun y hy => hds y (by
    rcases List.mem_cons.mp hy with rfl | hy <;> simp [*])
  have hupper : parentPath (parentPath (absolutePath (d :: (ds ++ [x]) ++ [compileCommandsJson]))) =
      absolutePath (d :: ds) := by
    rw [parentPath_database hds (List.cons_ne_nil _ _), ← List.cons_append,
      parentPath_absolutePath_concat hds, if_neg fun h => List.cons_ne_nil _ _ h.1]
  have hroot : isRoot (absolutePath (d :: ds)) = true ↔ ds = [] ∧ ¬ Dotted d := by
    rw [isRoot_absolutePath_cons (hds' d (by simp))
      fun y hy => (hds' y (List.mem_cons_of_mem _ hy)).separator_notMem, and_comm]
    refine and_congr_left fun _ => ⟨fun h => ?_, fun h => by simp [h]⟩
    rw [List.eq_nil_iff_forall_not_mem]
    exact fun y hy => (hds' y (List.mem_cons_of_mem _ hy)).ne_nil (h y hy)
  split_ifs with hpresent htop
  · exact searchEnds_of_exists (hexists.trans hpresent)
  · exact searchEnds_of_root (hexists.trans (by simpa using hpresent)) hne
      (hupper ▸ hroot.mpr htop)
  · rw [searchEnds_of_up (hexists.trans (by simpa using hpresent)) hne
      (hupper ▸ by simpa using mt hroot.mp htop), hupper,
      append_absolutePath hds' component_compileCommandsJson (List.cons_ne_nil _ _)]

/-- One turn from the first directory. It is a root, unless it starts with `..`. -/
theorem searchEnds_first (hd : Component d) {r : Path} :
    SearchEnds (.ofFiles cwd present) (absolutePath [d, compileCommandsJson]) r ↔
      if present [d, compileCommandsJson] = true then r = absolutePath [d, compileCommandsJson]
      else if Dotted d then SearchEnds (.ofFiles cwd present) compileCommandsJson r
      else r = [] := by
  have hd' : ∀ y ∈ [d], Component y := by simpa using hd
  have hexists : pathExists (.ofFiles cwd present) (absolutePath [d, compileCommandsJson]) =
      present [d, compileCommandsJson] :=
    pathExists_absolutePath (component_concat hd')
  have hne : absolutePath [d, compileCommandsJson] ≠ [] := by simp
  have hupper : parentPath (parentPath (absolutePath [d, compileCommandsJson])) =
      if Dotted d then [] else absolutePath [d] := by
    rw [← List.singleton_append, parentPath_database hd' (List.cons_ne_nil _ _),
      ← List.nil_append [d], parentPath_absolutePath_concat (by simpa using hd)]
    by_cases hdotted : Dotted d <;> simp [hdotted]
  split_ifs with hpresent hdotted
  · exact searchEnds_of_exists (hexists.trans hpresent)
  · rw [if_pos hdotted] at hupper
    rw [searchEnds_of_up (hexists.trans (by simpa using hpresent)) hne (hupper ▸ by decide), hupper]
    rfl
  · rw [if_neg hdotted] at hupper
    refine searchEnds_of_root (hexists.trans (by simpa using hpresent)) hne ?_
    rw [hupper, isRoot_absolutePath_cons hd (List.forall_mem_nil _)]
    exact ⟨hdotted, List.forall_mem_nil _⟩

theorem searchEnds_first_of_not_dotted (hd : Component d) (hdotted : ¬ Dotted d) {r : Path} :
    SearchEnds (.ofFiles cwd present) (absolutePath [d, compileCommandsJson]) r ↔
      r = firstDatabase present [[d]] := by
  rw [searchEnds_first hd, if_neg hdotted, firstDatabase_cons, List.singleton_append]
  split_ifs <;> rfl

/-- Below a first directory the loop ends before it gets there. -/
theorem searchEnds_of_not_dotted (hds : ∀ y ∈ d :: ds, Component y) (hd : ¬ Dotted d)
    (hne : ds ≠ []) {r : Path} :
    SearchEnds (.ofFiles cwd present) (absolutePath (d :: ds ++ [compileCommandsJson])) r ↔
      r = firstDatabase present (below d ds) := by
  induction ds using List.reverseRecOn with
  | nil => exact absurd rfl hne
  | append_singleton ds x ih =>
      rw [searchEnds_below hds, below_concat, firstDatabase_cons]
      split_ifs with hpresent htop
      · rfl
      · rw [htop.1]
        rfl
      · refine ih (fun y hy => hds y ?_) fun hnil => htop ⟨hnil, hd⟩
        rcases List.mem_cons.mp hy with rfl | hy <;> simp [*]

/-- From a first directory that starts with `..` the loop goes on with a relative path. -/
theorem searchEnds_of_dotted (hds : ∀ y ∈ d :: ds, Component y) (hd : Dotted d) {r : Path} :
    SearchEnds (.ofFiles cwd present) (absolutePath (d :: ds ++ [compileCommandsJson])) r ↔
      if ∃ y ∈ below d ds ++ [[d]], present (y ++ [compileCommandsJson]) = true then
        r = firstDatabase present (below d ds ++ [[d]])
      else SearchEnds (.ofFiles cwd present) compileCommandsJson r := by
  induction ds using List.reverseRecOn with
  | nil =>
      have hbelow : below d [] = [] := rfl
      rw [hbelow, List.nil_append, firstDatabase_cons]
      refine (searchEnds_first (hds d (by simp))).trans ?_
      simp only [hd, if_true, List.mem_singleton, exists_eq_left, List.singleton_append]
      split_ifs <;> rfl
  | append_singleton ds x ih =>
      have hds' : ∀ y ∈ d :: ds, Component y := fun y hy => hds y (by
        rcases List.mem_cons.mp hy with rfl | hy <;> simp [*])
      have hlist : below d (ds ++ [x]) ++ [[d]] = (d :: (ds ++ [x])) :: (below d ds ++ [[d]]) := by
        rw [below_concat]
        rfl
      rw [searchEnds_below hds, hlist, firstDatabase_cons]
      by_cases hpresent : present (d :: (ds ++ [x]) ++ [compileCommandsJson]) = true
      · rw [if_pos hpresent, if_pos hpresent, if_pos ⟨_, List.mem_cons_self, hpresent⟩]
      · rw [if_neg hpresent, if_neg hpresent, if_neg fun h => h.2 hd]
        refine (ih hds').trans ?_
        by_cases hrest : ∃ y ∈ below d ds ++ [[d]], present (y ++ [compileCommandsJson]) = true
        · obtain ⟨y, hy, hpresent'⟩ := hrest
          rw [if_pos ⟨y, hy, hpresent'⟩, if_pos ⟨y, List.mem_cons_of_mem _ hy, hpresent'⟩]
        · rw [if_neg hrest, if_neg]
          rintro ⟨y, hy, hpresent'⟩
          rcases List.mem_cons.mp hy with rfl | hy
          · exact hpresent hpresent'
          · exact hrest ⟨y, hy, hpresent'⟩

/-! ## The relative path -/

theorem access_absolutePath (hcs : ∀ y ∈ cs, '/' ∉ y) (hne : cs ≠ []) :
    (FileSystem.ofFiles cwd present).access (String.ofList (absolutePath cs)) = present cs := by
  obtain ⟨c, cs, rfl⟩ := List.exists_cons_of_ne_nil hne
  obtain ⟨hc, hcs⟩ := List.forall_mem_cons.mp hcs
  simp only [FileSystem.ofFiles, String.toList_ofList, absolutePath_cons]
  rw [splitOn_append_absolutePath hc hcs]

theorem resolveAbsolute_relative {e : Char} {q : Path} (he : e ≠ '/') :
    resolveAbsolute (.ofFiles cwd present) (e :: q) =
      if present (cwd ++ (e :: q).splitOn '/') = true then
        absolutePath (cwd ++ (e :: q).splitOn '/')
      else [] := by
  have habsolute : isAbsolute (e :: q) = false := by
    unfold isAbsolute
    split <;> simp_all
  have hrealpath : (FileSystem.ofFiles cwd present).realpath (String.ofList (e :: q)) =
      if present (cwd ++ (e :: q).splitOn '/') = true then
        some (String.ofList (absolutePath (cwd ++ (e :: q).splitOn '/')))
      else none := by
    simp only [FileSystem.ofFiles, String.toList_ofList]
    split
    · simp_all
    · simp_all
    · rfl
  rw [resolveAbsolute, if_neg (by simp [habsolute]), hrealpath]
  by_cases hpresent : present (cwd ++ (e :: q).splitOn '/') = true
  · rw [if_pos hpresent, if_pos hpresent]
    exact String.toList_ofList
  · rw [if_neg hpresent, if_neg hpresent]

theorem pathExists_relative {e : Char} {q : Path} (he : e ≠ '/') (hcwd : ∀ y ∈ cwd, '/' ∉ y) :
    pathExists (.ofFiles cwd present) (e :: q) = present (cwd ++ (e :: q).splitOn '/') := by
  have hsep : ∀ y ∈ cwd ++ (e :: q).splitOn '/', '/' ∉ y := by
    intro y hy
    rcases List.mem_append.mp hy with hy | hy
    · exact hcwd y hy
    · exact separator_notMem_of_mem_splitOn hy
  rw [pathExists, resolveAbsolute_relative he]
  cases hpresent : present (cwd ++ (e :: q).splitOn '/') with
  | true => rw [if_pos rfl, access_absolutePath hsep (by simp), hpresent]
  | false => rfl

/-- The relative path is found in the working directory, or the loop goes on below it for ever,
unless there is a directory of this name. -/
theorem searchEnds_relative (hcwd : ∀ y ∈ cwd, '/' ∉ y) {r : Path} :
    SearchEnds (.ofFiles cwd present) compileCommandsJson r ↔
      if present (cwd ++ [compileCommandsJson]) = true then r = compileCommandsJson
      else present (cwd ++ [compileCommandsJson, compileCommandsJson]) = true ∧
        r = append compileCommandsJson compileCommandsJson := by
  have hexists : pathExists (.ofFiles cwd present) compileCommandsJson =
      present (cwd ++ [compileCommandsJson]) :=
    pathExists_relative (by decide) hcwd
  have hexists' : pathExists (.ofFiles cwd present)
      (append compileCommandsJson compileCommandsJson) =
        present (cwd ++ [compileCommandsJson, compileCommandsJson]) :=
    pathExists_relative (by decide) hcwd
  split_ifs with hpresent
  · exact searchEnds_of_exists (hexists.trans hpresent)
  · have hup := searchEnds_of_up (r := r) (hexists.trans (by simpa using hpresent)) (by decide)
      (by decide)
    have hnext : append (parentPath (parentPath compileCommandsJson)) compileCommandsJson =
        append compileCommandsJson compileCommandsJson := by
      decide
    rw [hup, hnext]
    cases hpresent' : present (cwd ++ [compileCommandsJson, compileCommandsJson]) with
    | true => rw [searchEnds_of_exists (hexists'.trans hpresent'), and_iff_right rfl]
    | false =>
        refine iff_of_false ?_ (by simp)
        exact not_searchEnds_of_stuck (hexists'.trans hpresent') (by decide) (by decide) (by decide)

/-! ## The nearest file -/

/-- A result of the loop is absolute already. -/
theorem resolveAbsolute_firstDatabase (hl : ∀ ds ∈ l, ∀ y ∈ ds, Component y) :
    resolveAbsolute (.ofFiles cwd present) (firstDatabase present l) = firstDatabase present l := by
  unfold firstDatabase
  split
  · rename_i ds hfind
    have hds := component_concat (hl ds (List.mem_of_find?_eq_some hfind))
    obtain ⟨c, cs, hcs⟩ := List.exists_cons_of_ne_nil
      (by simp : ds ++ [compileCommandsJson] ≠ [])
    rw [hcs] at hds ⊢
    rw [resolveAbsolute, if_pos (isAbsolute_absolutePath_cons (hds c (by simp)) cs)]
  · rfl

/-- The file of another directory is not the one in `/`. -/
theorem database_eq_iff (present : List Path → Bool) (ds : List Path) :
    absolutePath (ds ++ [compileCommandsJson]) = firstDatabase present [[]] ↔
      present [compileCommandsJson] = true ∧ ds = [] := by
  rw [firstDatabase_cons, List.nil_append]
  have hnil : firstDatabase present [] = [] := rfl
  split_ifs with hpresent
  · rw [absolutePath_append, List.append_left_eq_self, and_iff_right hpresent]
    cases ds <;> simp
  · refine iff_of_false ?_ fun h => hpresent h.1
    rw [hnil, absolutePath_concat]
    simp

/-- The relative path stands for the file in `/` only if this is the working directory. -/
theorem relative_nearest_iff (hcwd : ∀ y ∈ cwd, '/' ∉ y) :
    (∃ r, SearchEnds (.ofFiles cwd present) compileCommandsJson r ∧
        resolveAbsolute (.ofFiles cwd present) r = firstDatabase present [[]]) ↔
      present [compileCommandsJson] = true ∧ cwd = [] := by
  simp only [searchEnds_relative hcwd]
  by_cases hpresent : present (cwd ++ [compileCommandsJson]) = true
  · have hresolve : resolveAbsolute (.ofFiles cwd present) compileCommandsJson =
        absolutePath (cwd ++ [compileCommandsJson]) :=
      (resolveAbsolute_relative (by decide)).trans (if_pos hpresent)
    simp only [if_pos hpresent, exists_eq_left, hresolve]
    exact database_eq_iff present cwd
  · refine iff_of_false ?_ ?_
    · rintro ⟨r, hr, hnearest⟩
      rw [if_neg hpresent] at hr
      obtain ⟨hpresent', rfl⟩ := hr
      have hresolve : resolveAbsolute (.ofFiles cwd present)
          (append compileCommandsJson compileCommandsJson) =
            absolutePath (cwd ++ [compileCommandsJson] ++ [compileCommandsJson]) := by
        rw [List.append_assoc]
        exact (resolveAbsolute_relative (by decide)).trans (if_pos hpresent')
      rw [hresolve, database_eq_iff] at hnearest
      exact absurd hnearest.2 (by simp)
    · rintro ⟨htop, rfl⟩
      exact hpresent htop

/-- The conditions under which the search finds the nearest file. In a first directory that does not
start with `..` the loop ends, and in one that does it goes on in the working directory. -/
def FindsNearest (cwd : List Path) (present : List Path → Bool) : List Path → Path → Prop
  | [], name =>
      if Dotted name then present [compileCommandsJson] = true ∧ cwd = []
      else present [compileCommandsJson] = false ∧ present [name, compileCommandsJson] = false
  | d :: ds, _ =>
      if Dotted d then
        (∃ ds', ds' <+: ds ∧ present (d :: ds' ++ [compileCommandsJson]) = true) ∨
          present [compileCommandsJson] = true ∧ cwd = []
      else if ds = [] then
        present [d, compileCommandsJson] = true ∨ present [compileCommandsJson] = false
      else
        (∃ ds', ds' <+: ds ∧ ds' ≠ [] ∧ present (d :: ds' ++ [compileCommandsJson]) = true) ∨
          present [d, compileCommandsJson] = false ∧ present [compileCommandsJson] = false

theorem exists_mem_below : (∃ y ∈ below d ds, present (y ++ [compileCommandsJson]) = true) ↔
    ∃ ds', ds' <+: ds ∧ ds' ≠ [] ∧ present (d :: ds' ++ [compileCommandsJson]) = true := by
  simp only [mem_below]
  constructor
  · rintro ⟨y, ⟨ds', hpre, hne, rfl⟩, hpresent⟩
    exact ⟨ds', hpre, hne, hpresent⟩
  · rintro ⟨ds', hpre, hne, hpresent⟩
    exact ⟨_, ⟨ds', hpre, hne, rfl⟩, hpresent⟩

theorem exists_mem_below_append :
    (∃ y ∈ below d ds ++ [[d]], present (y ++ [compileCommandsJson]) = true) ↔
      ∃ ds', ds' <+: ds ∧ present (d :: ds' ++ [compileCommandsJson]) = true := by
  simp only [List.mem_append, List.mem_singleton, or_and_right, exists_or, exists_eq_left,
    exists_mem_below]
  constructor
  · rintro (⟨ds', hpre, _, hpresent⟩ | hpresent)
    · exact ⟨ds', hpre, hpresent⟩
    · exact ⟨[], List.nil_prefix, hpresent⟩
  · rintro ⟨ds', hpre, hpresent⟩
    by_cases hne : ds' = []
    · exact .inr (hne ▸ hpresent)
    · exact .inl ⟨ds', hpre, hne, hpresent⟩

theorem component_below (hds : ∀ y ∈ d :: ds, Component y) :
    ∀ y ∈ below d ds, ∀ z ∈ y, Component z := by
  intro y hy
  obtain ⟨ds', hpre, _, rfl⟩ := mem_below.mp hy
  exact fun z hz => hds z ((List.cons_prefix_cons.mpr ⟨rfl, hpre⟩).subset hz)

/-- Where the search starts. -/
theorem append_parentPath_executable (hexe : ∀ y ∈ dirs ++ [name], Component y) :
    append (parentPath (absolutePath (dirs ++ [name]))) compileCommandsJson =
      if dirs = [] then
        if Dotted name then compileCommandsJson else absolutePath [name, compileCommandsJson]
      else absolutePath (dirs ++ [compileCommandsJson]) := by
  rw [parentPath_absolutePath_concat hexe]
  by_cases hdirs : dirs = []
  · subst hdirs
    by_cases hname : Dotted name
    · rw [if_neg fun h => h.2 hname, if_pos rfl, if_pos hname]
      rfl
    · rw [if_pos ⟨rfl, hname⟩, if_pos rfl, if_neg hname, append_absolutePath (by simpa using hexe)
        component_compileCommandsJson (List.cons_ne_nil _ _)]
      rfl
  · rw [if_neg fun h => hdirs h.1, if_neg hdirs, append_absolutePath
      (fun y hy => hexe y (List.mem_append_left _ hy)) component_compileCommandsJson hdirs]

/-- What the search gives if the loop looks into the given directories. -/
theorem exists_searchEnds_iff (hl : ∀ ds ∈ l, ∀ y ∈ ds, Component y) {dbPath r : Path}
    (hends : ∀ r, SearchEnds (.ofFiles cwd present) dbPath r ↔ r = firstDatabase present l) :
    (∃ r', SearchEnds (.ofFiles cwd present) dbPath r' ∧
        resolveAbsolute (.ofFiles cwd present) r' = r) ↔ firstDatabase present l = r := by
  simp only [hends, exists_eq_left, resolveAbsolute_firstDatabase hl]

/-- In `/` the path of the executable counts as its directory. -/
theorem nearest_of_root (hname : Component name) (hdotted : ¬ Dotted name) :
    (∃ r, SearchEnds (.ofFiles cwd present) (absolutePath [name, compileCommandsJson]) r ∧
        resolveAbsolute (.ofFiles cwd present) r = firstDatabase present [[]]) ↔
      present [compileCommandsJson] = false ∧ present [name, compileCommandsJson] = false := by
  rw [exists_searchEnds_iff (by simpa using hname)
    fun r => searchEnds_first_of_not_dotted hname hdotted, firstDatabase_cons]
  split_ifs with hpresent
  · refine iff_of_false (fun h => ?_) fun h => ?_
    · exact absurd ((database_eq_iff present [name]).mp h).2 (by simp)
    · exact absurd (hpresent.symm.trans h.2) (by simp)
  · have hnearest : firstDatabase present [[]] = [] ↔ present [compileCommandsJson] = false := by
      rw [firstDatabase_eq_nil_iff]
      simp
    rw [and_iff_left (by simpa using hpresent), ← hnearest]
    exact eq_comm

/-- From a first directory that starts with `..` the loop goes on in the working directory. -/
theorem nearest_of_dotted (hcwd : ∀ y ∈ cwd, '/' ∉ y) (hds : ∀ y ∈ d :: ds, Component y)
    (hdotted : Dotted d) :
    (∃ r, SearchEnds (.ofFiles cwd present) (absolutePath (d :: ds ++ [compileCommandsJson])) r ∧
        resolveAbsolute (.ofFiles cwd present) r =
          firstDatabase present (below d ds ++ [[d], []])) ↔
      (∃ ds', ds' <+: ds ∧ present (d :: ds' ++ [compileCommandsJson]) = true) ∨
        present [compileCommandsJson] = true ∧ cwd = [] := by
  have hlist : below d ds ++ [[d], []] = below d ds ++ [[d]] ++ [[]] := by simp
  rw [hlist, ← exists_mem_below_append]
  by_cases hfound : ∃ y ∈ below d ds ++ [[d]], present (y ++ [compileCommandsJson]) = true
  · have hends : ∀ r, SearchEnds (.ofFiles cwd present)
        (absolutePath (d :: ds ++ [compileCommandsJson])) r ↔
          r = firstDatabase present (below d ds ++ [[d]]) := by
      intro r
      rw [searchEnds_of_dotted hds hdotted, if_pos hfound]
    have hcomponents : ∀ y ∈ below d ds ++ [[d]], ∀ z ∈ y, Component z := by
      simpa [or_imp, forall_and] using ⟨component_below hds, hds d (by simp)⟩
    rw [exists_searchEnds_iff hcomponents hends, firstDatabase_eq_append_iff]
    exact iff_of_true (.inl hfound) (.inl hfound)
  · simp only [searchEnds_of_dotted hds hdotted, if_neg hfound, firstDatabase_append]
    exact (relative_nearest_iff hcwd).trans (or_iff_right hfound).symm

/-- The loop looks into the first directory only if the executable is in it. -/
theorem nearest_of_not_dotted (hds : ∀ y ∈ d :: ds, Component y) (hdotted : ¬ Dotted d) :
    (∃ r, SearchEnds (.ofFiles cwd present) (absolutePath (d :: ds ++ [compileCommandsJson])) r ∧
        resolveAbsolute (.ofFiles cwd present) r =
          firstDatabase present (below d ds ++ [[d], []])) ↔
      if ds = [] then
        present [d, compileCommandsJson] = true ∨ present [compileCommandsJson] = false
      else
        (∃ ds', ds' <+: ds ∧ ds' ≠ [] ∧ present (d :: ds' ++ [compileCommandsJson]) = true) ∨
          present [d, compileCommandsJson] = false ∧ present [compileCommandsJson] = false := by
  by_cases hne : ds = []
  · subst hne
    have hd : Component d := hds d (by simp)
    have hlist : below d [] ++ [[d], []] = [[d]] ++ [[]] := rfl
    rw [if_pos rfl, List.singleton_append, exists_searchEnds_iff (by simpa using hd)
      fun r => searchEnds_first_of_not_dotted hd hdotted, hlist, firstDatabase_eq_append_iff]
    simp
  · rw [if_neg hne, exists_searchEnds_iff (component_below hds)
      fun r => searchEnds_of_not_dotted hds hdotted hne, firstDatabase_eq_append_iff,
      exists_mem_below]
    simp

/-- The search ends with the nearest file, or with the empty path if there is none, exactly under
the condition. -/
theorem getCompileCommandsPath_nearest_iff (hcwd : ∀ y ∈ cwd, Component y)
    (hexe : ∀ y ∈ dirs ++ [name], Component y) :
    (∃ turns, getCompileCommandsPath (.ofFiles cwd present) turns []
        (absolutePath (dirs ++ [name])) = some (nearestDatabase present dirs)) ↔
      FindsNearest cwd present dirs name := by
  have hcwd' : ∀ y ∈ cwd, '/' ∉ y := fun y hy => (hcwd y hy).separator_notMem
  rw [getCompileCommandsPath_eq_some_iff, append_parentPath_executable hexe]
  cases dirs with
  | nil =>
      rw [if_pos rfl, FindsNearest]
      by_cases hdotted : Dotted name
      · rw [if_pos hdotted, if_pos hdotted]
        exact relative_nearest_iff hcwd'
      · rw [if_neg hdotted, if_neg hdotted]
        exact nearest_of_root (hexe name (by simp)) hdotted
  | cons d ds =>
      have hds : ∀ y ∈ d :: ds, Component y := fun y hy => hexe y (List.mem_append_left _ hy)
      rw [if_neg (List.cons_ne_nil _ _), FindsNearest, nearestDatabase, inits_reverse_cons]
      by_cases hdotted : Dotted d
      · rw [if_pos hdotted]
        exact nearest_of_dotted hcwd' hds hdotted
      · rw [if_neg hdotted]
        exact nearest_of_not_dotted hds hdotted

end OfFiles

def databaseIn (dir : List String) (cs : List Path) : Bool :=
  cs = dir.map String.toList ++ [compileCommandsJson]

/-- The file is two directories above the executable and below the first directory. -/
theorem home_getCompileCommandsPath_nearest :
    ∃ turns, getCompileCommandsPath (.ofFiles [] (databaseIn ["home", "me"])) turns []
        "/home/me/build/bin/app".toList =
      some "/home/me/compile_commands.json".toList := by
  have hexe : ∀ y ∈ ["home", "me", "build", "bin"].map String.toList ++ ["app".toList],
      Component y := by decide
  have hfinds : FindsNearest [] (databaseIn ["home", "me"])
      (["home", "me", "build", "bin"].map String.toList) "app".toList := by
    rw [List.map_cons, FindsNearest, if_neg (by decide), if_neg (by decide)]
    exact .inl ⟨["me".toList], by decide, by decide, by decide⟩
  obtain ⟨turns, hturns⟩ := (getCompileCommandsPath_nearest_iff (by simp) hexe).mpr hfinds
  refine ⟨turns, hturns.trans ?_⟩
  decide +kernel

/-- The file of a first directory is not found from a directory below it. -/
theorem build_not_getCompileCommandsPath_nearest :
    nearestDatabase (databaseIn ["build"]) ["build".toList, "bin".toList] =
        "/build/compile_commands.json".toList ∧
      ¬ ∃ turns, getCompileCommandsPath (.ofFiles [] (databaseIn ["build"])) turns []
          "/build/bin/app".toList = some "/build/compile_commands.json".toList := by
  refine ⟨by decide +kernel, ?_⟩
  rw [getCompileCommandsPath_eq_some_iff]
  rintro ⟨r, hr, hresolve⟩
  obtain rfl :=
    (searchEnds_of_root (by decide +kernel) (by decide +kernel) (by decide +kernel)).mp hr
  exact absurd hresolve (by decide +kernel)

end JetLive

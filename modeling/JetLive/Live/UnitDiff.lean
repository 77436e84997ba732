import JetLive.Live.Run

/-!
# The difference of two readings of the units

When `compile_commands.json` is read again, three lists tell which units were added, modified and
removed. A unit counts as modified if its command is another string. But where a command runs and
which object file it writes also depend on the directory of the entry, so the lists are complete
exactly if no entry keeps its command while these change.
-/

namespace JetLive

open Containers TeenyPath

structure Rereads (config : LiveConfig) (filepath : String) (w : LiveWorld) : Prop where
  found : pathExists w.outside.fs filepath.toList = true
  notProject : ¬ (config.isXcodeProject = true ∧ samePath w.pbxProjPath.toList
    (resolveAbsolute w.outside.fs filepath.toList) = true)
  same : samePath w.compileCommandsPath.toList
    (resolveAbsolute w.outside.fs filepath.toList) = true

variable {config : LiveConfig} {filepath : String} {w : LiveWorld} {out : Outside}
  {old new : UnorderedMap String CompilationUnit} {p : String}

theorem updateCompilationUnits_of_rereads (h : Rereads config filepath w) :
    updateCompilationUnits config filepath w =
      match parseCompilationUnitsInternal w.outside w.compileCommandsPath with
      | (none, logs) => (none, .log .kInfo "Updating compilation units..." :: logs)
      | (some new, logs) =>
          (some ({ w with
              context := { w.context with
                compilationUnits := carryDepfiles w.outside w.context.compilationUnits new }
              readings := w.readings + 1 },
            diffUnits w.outside w.context.compilationUnits new),
           .log .kInfo "Updating compilation units..." :: logs ++
             [.log .kInfo (diffUnits w.outside w.context.compilationUnits new).summary]) := by
  unfold updateCompilationUnits
  dsimp only
  exact (if_neg (not_not.mpr h.found)).trans
    ((if_neg h.notProject).trans (if_neg (not_not.mpr h.same)))

theorem updateCompilationUnits_of_not_rereads (h : ¬ Rereads config filepath w) :
    ∃ pbxProjPath, (updateCompilationUnits config filepath w).1 =
      some ({ w with pbxProjPath }, {}) := by
  unfold updateCompilationUnits
  dsimp only
  split
  · exact ⟨_, rfl⟩
  · rename_i hfound
    split
    · exact ⟨_, rfl⟩
    · rename_i hproject
      split
      · exact ⟨_, rfl⟩
      · rename_i hsame
        exact absurd ⟨not_not.mp hfound, hproject, not_not.mp hsame⟩ h

/-! ## What a reading gives -/

/-- The unit that the content of the file has for a source file: that of the last entry which is
not skipped. -/
def Database.unit (out : Outside) (p : String) : Database → Option CompilationUnit
  | .unreadable | .malformed => none
  | .entries commands =>
      ((commands.filterMap fun cmd => (parseEntry out cmd).1).filter
        (·.sourceFilePath = p)).getLast?

theorem lookup_collectUnits (units : List CompilationUnit) (p : String) :
    (collectUnits units).lookup p = (units.filter (·.sourceFilePath = p)).getLast? := by
  induction units using List.reverseRecOn with
  | nil => rfl
  | append_singleton units cu ih =>
      rw [collectUnits, List.foldl_concat, ← collectUnits, List.filter_append]
      by_cases hp : p = cu.sourceFilePath
      · subst hp
        rw [Finmap.lookup_insert, List.filter_singleton]
        simp
      · rw [Finmap.lookup_insert_of_ne _ hp, ih, List.filter_singleton]
        simp [Ne.symm hp]

theorem parseCompilationUnitsInternal_eq_none_iff :
    (parseCompilationUnitsInternal out filepath).1 = none ↔ out.database filepath = .malformed := by
  unfold parseCompilationUnitsInternal
  cases out.database filepath <;> simp

theorem lookup_parseCompilationUnitsInternal
    (h : (parseCompilationUnitsInternal out filepath).1 = some new) (p : String) :
    new.lookup p = (out.database filepath).unit out p := by
  unfold parseCompilationUnitsInternal at h
  cases hdatabase : out.database filepath with
  | malformed => simp [hdatabase] at h
  | unreadable =>
      obtain rfl : ∅ = new := by simpa [hdatabase] using h
      rfl
  | entries commands =>
      obtain rfl : collectUnits ((commands.map (parseEntry out)).filterMap (·.1)) = new := by
        simpa [hdatabase] using h
      rw [lookup_collectUnits, List.filterMap_map]
      rfl

/-! ## The difference -/

/-- The command of a unit, where it runs, and the object file it writes. -/
def CompilationUnit.build (cu : CompilationUnit) : String × String × String :=
  (cu.compilationCommandStr, cu.compilationDirStr, cu.objFilePath)

def buildsOf (units : UnorderedMap String CompilationUnit) (p : String) :
    Option (String × String × String) :=
  (units.lookup p).map CompilationUnit.build

/-- The lists tell the whole difference of the units before and after. -/
structure TellsDifference (old new : UnorderedMap String CompilationUnit)
    (changes : UnitChanges) : Prop where
  added_nodup : changes.added.Nodup
  modified_nodup : changes.modified.Nodup
  removed_nodup : changes.removed.Nodup
  added_modified : changes.added.Disjoint changes.modified
  added_removed : changes.added.Disjoint changes.removed
  modified_removed : changes.modified.Disjoint changes.removed
  none_iff : ∀ p, p ∈ old ∨ p ∈ new →
    (p ∉ changes.added ∧ p ∉ changes.modified ∧ p ∉ changes.removed ↔
      p ∈ old ∧ p ∈ new ∧ buildsOf old p = buildsOf new p)
  changed_iff : changes.changed = true ↔
    changes.added ≠ [] ∨ changes.modified ≠ [] ∨ changes.removed ≠ []
  unchanged : changes.changed = false → ∀ p, buildsOf old p = buildsOf new p

/-- No unit keeps its command while its directory or its object file changes. -/
def KeepsBuild (old : UnorderedMap String CompilationUnit)
    (new : String → Option CompilationUnit) : Prop :=
  ∀ p oldCu cu, old.lookup p = some oldCu → new p = some cu →
    oldCu.compilationCommandStr = cu.compilationCommandStr →
      oldCu.compilationDirStr = cu.compilationDirStr ∧ oldCu.objFilePath = cu.objFilePath

/-- A path is in no list exactly if it has a unit before and after, with the same command. -/
theorem notMem_diffUnits_iff (h : p ∈ old ∨ p ∈ new) :
    (p ∉ (diffUnits out old new).added ∧ p ∉ (diffUnits out old new).modified ∧
        p ∉ (diffUnits out old new).removed) ↔
      ∃ oldCu cu, old.lookup p = some oldCu ∧ new.lookup p = some cu ∧
        oldCu.compilationCommandStr = cu.compilationCommandStr := by
  simp only [mem_diffUnits_added, mem_diffUnits_modified, mem_diffUnits_removed,
    ← Finmap.lookup_isSome] at h ⊢
  cases hold : old.lookup p <;> cases hnew : new.lookup p <;> simp_all

section CarriedDepfiles

/-! The units after the reading have the builds of those read. -/

variable {units : UnorderedMap String CompilationUnit}

theorem buildsOf_congr (h : unitsOf units = unitsOf new) : buildsOf units = buildsOf new := by
  funext p
  have hp := congrArg (Option.map CompilationUnit.build) (congrFun h p)
  rwa [unitsOf, unitsOf, Option.map_map, Option.map_map] at hp

theorem mem_congr (h : unitsOf units = unitsOf new) : p ∈ units ↔ p ∈ new := by
  have hp := congrArg Option.isSome (congrFun h p)
  rw [unitsOf, unitsOf, Option.isSome_map, Option.isSome_map] at hp
  rw [← Finmap.lookup_isSome, ← Finmap.lookup_isSome, hp]

/-- The same command gives the same build. -/
theorem KeepsBuild.none_iff (h : KeepsBuild old new.lookup) (hp : p ∈ old ∨ p ∈ new) :
    (p ∉ (diffUnits out old new).added ∧ p ∉ (diffUnits out old new).modified ∧
        p ∉ (diffUnits out old new).removed) ↔
      p ∈ old ∧ p ∈ new ∧ buildsOf old p = buildsOf new p := by
  rw [notMem_diffUnits_iff hp]
  constructor
  · rintro ⟨oldCu, cu, hold, hnew, hcommand⟩
    obtain ⟨hdir, hobj⟩ := h p oldCu cu hold hnew hcommand
    refine ⟨Finmap.mem_of_lookup_eq_some hold, Finmap.mem_of_lookup_eq_some hnew, ?_⟩
    simp [buildsOf, hold, hnew, CompilationUnit.build, hcommand, hdir, hobj]
  · rintro ⟨hold, hnew, hbuild⟩
    obtain ⟨oldCu, hold⟩ := Finmap.mem_iff.mp hold
    obtain ⟨cu, hnew⟩ := Finmap.mem_iff.mp hnew
    simp only [buildsOf, hold, hnew, Option.map_some, Option.some.injEq, CompilationUnit.build,
      Prod.mk.injEq] at hbuild
    exact ⟨oldCu, cu, hold, hnew, hbuild.1⟩

theorem KeepsBuild.tellsDifference (h : KeepsBuild old new.lookup)
    (hunits : unitsOf units = unitsOf new) :
    TellsDifference old units (diffUnits out old new) where
  added_nodup := (out.newUnitOrder.nodup _).filter _
  modified_nodup := (out.unitOrder.nodup _).filter _
  removed_nodup := (out.unitOrder.nodup _).filter _
  added_modified p hadded hmodified := by
    simp only [mem_diffUnits_added, mem_diffUnits_modified] at hadded hmodified
    obtain ⟨_, oldCu, _, hold, _⟩ := hmodified
    exact absurd (hadded.2.symm.trans hold) (by simp)
  added_removed p hadded hremoved := by
    simp only [mem_diffUnits_added, mem_diffUnits_removed] at hadded hremoved
    exact Finmap.lookup_eq_none.mp hadded.2 hremoved.1
  modified_removed p hmodified hremoved := by
    simp only [mem_diffUnits_modified, mem_diffUnits_removed] at hmodified hremoved
    obtain ⟨cu, _, hnew, _⟩ := hmodified
    exact absurd (hremoved.2.symm.trans hnew) (by simp)
  none_iff p hp := by
    rw [mem_congr hunits] at hp ⊢
    rw [buildsOf_congr hunits]
    exact h.none_iff hp
  changed_iff := UnitChanges.changed_iff _
  unchanged hchanged p := by
    rw [buildsOf_congr hunits]
    obtain ⟨hadded, hmodified, hremoved⟩ := (UnitChanges.changed_eq_false_iff _).mp hchanged
    by_cases hp : p ∈ old ∨ p ∈ new
    · exact ((h.none_iff hp).mp (by rw [hadded, hmodified, hremoved]; simp)).2.2
    · rw [not_or, ← Finmap.lookup_eq_none, ← Finmap.lookup_eq_none] at hp
      simp [buildsOf, hp]

/-- The difference tells the build of a unit that keeps its command. -/
theorem TellsDifference.keepsBuild (h : TellsDifference old units (diffUnits out old new))
    (hunits : unitsOf units = unitsOf new) : KeepsBuild old new.lookup := by
  intro p oldCu cu hold hnew hcommand
  have hp : p ∈ old ∨ p ∈ new := .inl (Finmap.mem_of_lookup_eq_some hold)
  have hnone : p ∉ (diffUnits out old new).added ∧ p ∉ (diffUnits out old new).modified ∧
      p ∉ (diffUnits out old new).removed :=
    (notMem_diffUnits_iff hp).mpr ⟨oldCu, cu, hold, hnew, hcommand⟩
  obtain ⟨_, _, hbuild⟩ := (h.none_iff p (hp.imp_right (mem_congr hunits).mpr)).mp hnone
  rw [buildsOf_congr hunits] at hbuild
  simp only [buildsOf, hold, hnew, Option.map_some, Option.some.injEq, CompilationUnit.build,
    Prod.mk.injEq] at hbuild
  exact hbuild.2

end CarriedDepfiles

/-- Nothing is told where the units are left alone. -/
theorem tellsDifference_refl (units : UnorderedMap String CompilationUnit) :
    TellsDifference units units {} where
  added_nodup := List.nodup_nil
  modified_nodup := List.nodup_nil
  removed_nodup := List.nodup_nil
  added_modified := List.disjoint_nil_left _
  added_removed := List.disjoint_nil_left _
  modified_removed := List.disjoint_nil_left _
  none_iff p hp := by simpa using hp
  changed_iff := UnitChanges.changed_iff _
  unchanged _ _ := rfl

/-- `updateCompilationUnits` returns and tells the whole difference exactly if the units are not
read again, or the content is not malformed and no entry keeps its command while its directory or
its object file changes. -/
theorem updateCompilationUnits_tells_iff :
    (∃ w' changes, (updateCompilationUnits config filepath w).1 = some (w', changes) ∧
        TellsDifference w.context.compilationUnits w'.context.compilationUnits changes) ↔
      (Rereads config filepath w →
        w.outside.database w.compileCommandsPath ≠ .malformed ∧
          KeepsBuild w.context.compilationUnits fun p =>
            (w.outside.database w.compileCommandsPath).unit w.outside p) := by
  by_cases hrereads : Rereads config filepath w
  · rw [updateCompilationUnits_of_rereads hrereads, forall_prop_of_true hrereads]
    cases hparse : parseCompilationUnitsInternal w.outside w.compileCommandsPath with
    | mk read logs =>
    have hread := congrArg Prod.fst hparse
    cases read with
    | none => simp [parseCompilationUnitsInternal_eq_none_iff.mp hread]
    | some new =>
        have hmalformed : w.outside.database w.compileCommandsPath ≠ .malformed := by
          intro h
          have hnone := parseCompilationUnitsInternal_eq_none_iff.mpr h
          exact absurd (hnone.symm.trans hread) (by simp)
        have hunits := unitsOf_carryDepfiles w.outside w.context.compilationUnits new
        simp only [← lookup_parseCompilationUnitsInternal hread]
        constructor
        · rintro ⟨w', changes, heq, htells⟩
          obtain ⟨rfl, rfl⟩ := Prod.mk.inj (Option.some.inj heq)
          exact ⟨hmalformed, htells.keepsBuild hunits⟩
        · rintro ⟨_, hkeeps⟩
          exact ⟨_, _, rfl, hkeeps.tellsDifference hunits⟩
  · obtain ⟨pbxProjPath, heq⟩ := updateCompilationUnits_of_not_rereads hrereads
    refine iff_of_true ⟨_, _, heq, ?_⟩ fun h => absurd h hrereads
    exact tellsDifference_refl _

/-- An entry with the given directory; its object file has a relative path. -/
def movedEntry (directory : String) : CompileCommand :=
  { command := "a.o", directory, file := "/p/a.cpp" }

/-- The build directory has moved since the units were read. -/
def movedWorld : LiveWorld where
  outside := Outside.ofCommands [movedEntry "/p/debug"]
  memory _ := 0
  compileCommandsPath := "/p/compile_commands.json"
  context :=
    { compilationUnits := collectUnits
        ((parseEntry (Outside.ofCommands []) (movedEntry "/p/release")).1.toList) }

/-- The unit has another directory and another object file, but no list tells. -/
theorem movedWorld_not_tells :
    ¬ ∃ w' changes,
      (updateCompilationUnits {} "/p/compile_commands.json" movedWorld).1 = some (w', changes) ∧
        TellsDifference movedWorld.context.compilationUnits w'.context.compilationUnits
          changes := by
  rintro ⟨w', changes, heq, htells⟩
  have hmoved : (updateCompilationUnits {} "/p/compile_commands.json" movedWorld).1.any
      (fun r => !r.2.changed && decide (buildsOf movedWorld.context.compilationUnits "/p/a.cpp" ≠
        buildsOf r.1.context.compilationUnits "/p/a.cpp")) = true := by
    decide +kernel
  rw [heq, Option.any_some, Bool.and_eq_true, Bool.not_eq_true', decide_eq_true_iff] at hmoved
  exact hmoved.2 (htells.unchanged hmoved.1 "/p/a.cpp")

end JetLive

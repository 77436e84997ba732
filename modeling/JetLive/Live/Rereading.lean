import JetLive.Live.Maps
import JetLive.Live.UnitDiff

/-!
# A failed reading of the units

A file that exists but cannot be read is reported in two ways. If its content is malformed, an
exception leaves the units alone. If it cannot be opened, the reading gives no units at all, and
that is taken for the new list: all units are removed.
-/

namespace JetLive

open Containers TeenyPath

def Database.Failed (database : Database) : Prop := database = .unreadable ∨ database = .malformed

instance (database : Database) : Decidable database.Failed := inferInstanceAs (Decidable (_ ∨ _))

theorem parseCompilationUnitsInternal_unreadable {out : Outside} {filepath : String}
    (h : out.database filepath = .unreadable) :
    (parseCompilationUnitsInternal out filepath).1 = some ∅ := by
  simp [parseCompilationUnitsInternal, h]

theorem carryDepfiles_empty (out : Outside) (old : UnorderedMap String CompilationUnit) :
    carryDepfiles out old ∅ = ∅ := by
  simp [carryDepfiles]

/-- Without units before and after there is no difference. -/
theorem changed_diffUnits_empty (out : Outside) : (diffUnits out ∅ ∅).changed = false := by
  simp [UnitChanges.changed, diffUnits]

namespace Live

variable {config : LiveConfig} {filepath : String} {s : Live}

structure ReadsAgain (config : LiveConfig) (filepath : String) (s : Live) : Prop where
  other : s.world.context.inverseDependencies.lookup filepath = none
  found : pathExists s.world.outside.fs filepath.toList = true
  notProject : ¬ (config.isXcodeProject = true ∧ samePath s.world.pbxProjPath.toList
    (resolveAbsolute s.world.outside.fs filepath.toList) = true)
  same : samePath s.world.compileCommandsPath.toList
    (resolveAbsolute s.world.outside.fs filepath.toList) = true

/-- The units, their dependencies and the work of the compiler are the same. -/
structure SameWork (s s' : Live) : Prop where
  compilationUnits : s'.world.context.compilationUnits = s.world.context.compilationUnits
  dependencies : s'.world.context.dependencies = s.world.context.dependencies
  inverseDependencies : s'.world.context.inverseDependencies = s.world.context.inverseDependencies
  pending : s'.compiler.pendingCompilationTasks = s.compiler.pendingCompilationTasks
  running : s'.compiler.runningCompilationTasks = s.compiler.runningCompilationTasks
  ready : s'.compiler.readyCompilationUnits = s.compiler.readyCompilationUnits

theorem ReadsAgain.rereads (h : s.ReadsAgain config filepath) :
    JetLive.Rereads config filepath s.world :=
  ⟨h.found, h.notProject, h.same⟩

/-- An exception leaves everything but the log alone. -/
theorem onFileChanged_malformed (h : s.ReadsAgain config filepath)
    (hfailed : s.world.outside.database s.world.compileCommandsPath = .malformed) :
    ∃ logs, s.onFileChanged config filepath = (s.emitLogs logs, false) := by
  have hparse := parseCompilationUnitsInternal_eq_none_iff.mpr hfailed
  have hupdate := updateCompilationUnits_of_rereads h.rereads
  cases hread : parseCompilationUnitsInternal s.world.outside s.world.compileCommandsPath with
  | mk read logs =>
  rw [hread] at hparse hupdate
  obtain rfl : read = none := hparse
  dsimp only at hupdate
  unfold onFileChanged onOtherFileChanged
  rw [h.other, hupdate]
  exact ⟨_, rfl⟩

/-- A file that cannot be opened counts as one without entries. -/
theorem onFileChanged_unreadable (h : s.ReadsAgain config filepath)
    (hfailed : s.world.outside.database s.world.compileCommandsPath = .unreadable) :
    ∃ logs,
      let changes := diffUnits s.world.outside s.world.context.compilationUnits ∅
      let read := s.afterReading
        { s.world with
          context := { s.world.context with compilationUnits := ∅ }
          readings := s.world.readings + 1 } logs
      s.onFileChanged config filepath =
        (if changes.changed then read.applyChanges changes else read, true) := by
  have hparse := parseCompilationUnitsInternal_unreadable hfailed
  have hupdate := updateCompilationUnits_of_rereads h.rereads
  cases hread : parseCompilationUnitsInternal s.world.outside s.world.compileCommandsPath with
  | mk read logs =>
  rw [hread] at hparse hupdate
  obtain rfl : read = some ∅ := hparse
  dsimp only at hupdate
  rw [carryDepfiles_empty] at hupdate
  unfold onFileChanged onOtherFileChanged
  rw [h.other, hupdate]
  exact ⟨_, rfl⟩

/-- A failed reading of `compile_commands.json` changes nothing exactly if it failed with an
exception or there were no units. -/
theorem failed_reading_keeps_iff (h : s.ReadsAgain config filepath)
    (hfailed : (s.world.outside.database s.world.compileCommandsPath).Failed) :
    SameWork s (s.onFileChanged config filepath).1 ↔
      s.world.outside.database s.world.compileCommandsPath = .malformed ∨
        s.world.context.compilationUnits = ∅ := by
  rcases hfailed with hunreadable | hmalformed
  · obtain ⟨logs, hchanged⟩ := onFileChanged_unreadable h hunreadable
    dsimp only at hchanged
    rw [hunreadable, hchanged]
    constructor
    · intro hsame
      right
      rw [← hsame.compilationUnits]
      split
      · exact applyChanges_units _ _
      · rfl
    · intro hnone
      have hempty : s.world.context.compilationUnits = ∅ := by
        rcases hnone with hnone | hempty
        · cases hnone
        · exact hempty
      have hdiff : (diffUnits s.world.outside s.world.context.compilationUnits ∅).changed =
          false := by
        rw [hempty]
        exact changed_diffUnits_empty s.world.outside
      rw [if_neg (by simp [hdiff])]
      constructor <;> simp [afterReading, LiveWorld.updateDirectoryFilters, hempty]
  · obtain ⟨logs, hthrown⟩ := onFileChanged_malformed h hmalformed
    rw [hthrown]
    apply iff_of_true
    · constructor <;> simp
    · exact Or.inl hmalformed

/-- A library with one unit, whose `compile_commands.json` then reads as given. -/
def rereading (database : Database) : Live :=
  (started [⟨"/p/a.o", "/p", "/p/a.cpp"⟩]).ask
    { Outside.ofCommands [] with database := fun _ => database }

theorem rereading_readsAgain (database : Database) :
    (rereading database).ReadsAgain {} "/p/compile_commands.json" := by
  -- the content of the file does not matter here
  let s := started [⟨"/p/a.o", "/p", "/p/a.cpp"⟩]
  constructor
  · change s.world.context.inverseDependencies.lookup "/p/compile_commands.json" = none
    decide +kernel
  · rfl
  · intro h
    exact absurd h.1 (by decide)
  · change samePath s.world.compileCommandsPath.toList
      (resolveAbsolute .full "/p/compile_commands.json".toList) = true
    decide +kernel

theorem malformed_reading_keeps :
    (rereading .malformed).ReadsAgain {} "/p/compile_commands.json" ∧
    SameWork (rereading .malformed)
      ((rereading .malformed).onFileChanged {} "/p/compile_commands.json").1 := by
  have hreads := rereading_readsAgain .malformed
  exact ⟨hreads, (failed_reading_keeps_iff hreads (Or.inr rfl)).mpr (Or.inl rfl)⟩

/-- The file cannot be opened, and the unit is gone. -/
theorem unreadable_reading_not_keeps :
    (rereading .unreadable).ReadsAgain {} "/p/compile_commands.json" ∧
    ¬ SameWork (rereading .unreadable)
      ((rereading .unreadable).onFileChanged {} "/p/compile_commands.json").1 := by
  refine ⟨rereading_readsAgain .unreadable, ?_⟩
  intro hsame
  have hunits := congrArg (fun units => (units.lookup "/p/a.cpp").isSome) hsame.compilationUnits
  revert hunits
  decide +kernel

end Live

end JetLive

import JetLive.Live.Gate
import JetLive.Live.Maps
import JetLive.Live.Refinding

/-!
# The dependency maps

The dependencies of the units and their inverse are changed together, by three
operations that go over sets of paths in any order. Here they are shown to stay the
inverse of each other, whatever the order of the operations is, so that a change of a
file compiles the units that depend on it and no other. The directories of all
dependencies are watched as long as there is a file watcher.

A unit depends on its own source. This is recorded when the dependencies of the unit are
found for the first time, which for a unit that comes with a new reading of
`compile_commands.json` is the end of its first compilation.
-/

namespace JetLive

open Containers TeenyPath

/-! ## Duality -/

/-- The contexts that come from empty dependency maps by finding the dependencies of units
and removing units, in any order. -/
inductive DependencyRun : LiveContext → Prop
  | start {context : LiveContext} (hdependencies : context.dependencies = ∅)
      (hinverse : context.inverseDependencies = ∅) : DependencyRun context
  | update {context : LiveContext} (h : DependencyRun context) (fs : FileSystem)
      (order : Iteration String) (watching : Bool) (cu : CompilationUnit) :
      DependencyRun (updateDependencies fs order watching cu context).1
  | remove {context : LiveContext} (h : DependencyRun context) (order : Iteration String)
      (path : String) : DependencyRun (removeDependencies order path context)
  | other {context context' : LiveContext} (h : DependencyRun context)
      (hdependencies : context'.dependencies = context.dependencies)
      (hinverse : context'.inverseDependencies = context.inverseDependencies) :
      DependencyRun context'

theorem DependencyRun.dual {context : LiveContext} (h : DependencyRun context) :
    Dual context.dependencies context.inverseDependencies := by
  induction h with
  | start hdependencies hinverse =>
      rw [hdependencies, hinverse]
      exact .empty
  | update _ fs order watching cu ih => exact ih.replace (order.mem_toList _) (order.mem_toList _)
  | remove _ order path ih => exact ih.drop (order.mem_toList _)
  | other _ hdependencies hinverse ih =>
      rw [hdependencies, hinverse]
      exact ih

variable {config : LiveConfig} {R : LiveWorld → LiveWorld → Prop} {w w' : LiveWorld}

theorem MapStep.dependencyRun (h : MapStep config R w w') (hw : DependencyRun w.context) :
    DependencyRun w'.context := by
  cases h with
  | keep hsame _ => exact hw.other hsame.dependencies hsame.inverseDependencies
  | dependencies p =>
      unfold LiveWorld.updateDependenciesOf
      split
      · exact hw
      · exact hw.update _ _ _ _
  | watch => exact hw.other rfl rfl
  | unwatch => exact hw
  | reread new _ hw' _ =>
      rw [hw']
      exact hw.other rfl rfl
  | remove p _ => exact hw.remove _ p

/-- The contexts of a run of the library are among them. -/
theorem LiveRun.dependencyRun {P : Live → LiveCall → Prop} {s : Live} (h : LiveRun config P s) :
    DependencyRun s.world.context := by
  have hstep (w w' : LiveWorld) (h : MapStep config (fun _ _ => True) w w') :
      DependencyRun w.context → DependencyRun w'.context := h.dependencyRun
  refine LiveRun.invariant (fun s call _ => Live.rereads_true config s call) hstep ?_ h
  intro filepath out memory s hs
  obtain ⟨w, hfresh, hsteps⟩ := Live.create_mapSteps (R := fun _ _ => True) hs
  exact hsteps.invariant hstep (.start hfresh.dependencies hfresh.inverseDependencies)

/-! ## What a change of a file compiles -/

/-- The units that `compile` was called for, the latest first. -/
def compileCalls (t : CompilerTrace) : List CompilationUnit :=
  t.filterMap fun x =>
    match x.2 with
    | .compile cu => some cu
    | _ => none

namespace Live

theorem compileCalls_emitLogs (l : List LogEntry) (s : Live) :
    compileCalls (s.emitLogs l).trace = compileCalls s.trace := by
  unfold Session.emitLogs Session.emitHost
  induction l generalizing s with
  | nil => rfl
  | cons entry l ih => exact ih _

theorem compileCalls_compileUnit (complaint : String) (s : Live) (p : String) :
    compileCalls (s.compileUnit complaint p).trace =
      (s.world.context.compilationUnits.lookup p).toList ++ compileCalls s.trace := by
  unfold compileUnit
  split
  · rename_i cu hcu
    rw [hcu]
    rfl
  · rename_i hnone
    rw [hnone, compileCalls_emitLogs]
    rfl

theorem compileCalls_foldl_compileUnit (complaint : String) (l : List String) (s : Live) :
    compileCalls (l.foldl (compileUnit complaint) s).trace =
      (l.filterMap s.world.context.compilationUnits.lookup).reverse ++ compileCalls s.trace := by
  induction l generalizing s with
  | nil => rfl
  | cons p l ih =>
      rw [List.foldl_cons, ih, compileUnit_world, compileCalls_compileUnit]
      cases hcu : s.world.context.compilationUnits.lookup p with
      | none => simp [hcu]
      | some cu => simp [hcu]

/-- The dependency maps are the inverse of each other, and a change of a file compiles the
units that depend on it, each of them once, and no other. -/
theorem onFileChanged_compiles_dependents {s : Live} (h : DependencyRun s.world.context)
    (config : LiveConfig) :
    (∀ p d, d ∈ lookupSet s.world.context.dependencies p ↔
      p ∈ lookupSet s.world.context.inverseDependencies d) ∧
    ∀ d ∈ s.world.context.inverseDependencies, ∃ paths : List String, paths.Nodup ∧
      (∀ p, p ∈ paths ↔ p ∈ s.world.context.compilationUnits ∧
        d ∈ lookupSet s.world.context.dependencies p) ∧
      compileCalls (s.onFileChanged config d).1.trace =
        (paths.filterMap s.world.context.compilationUnits.lookup).reverse ++
          compileCalls s.trace := by
  refine ⟨h.dual, ?_⟩
  intro d hd
  obtain ⟨deps, hdeps⟩ := Finmap.mem_iff.mp hd
  have hset : lookupSet s.world.context.inverseDependencies d = deps := by
    rw [lookupSet, hdeps, Option.getD_some]
  refine ⟨(s.world.outside.dependentsOrder.toList deps).filter
    (· ∈ s.world.context.compilationUnits), ?_, ?_, ?_⟩
  · exact (s.world.outside.dependentsOrder.nodup deps).filter _
  · intro p
    rw [List.mem_filter, Iteration.mem_toList, decide_eq_true_eq, h.dual p d, hset, and_comm]
  · unfold onFileChanged
    rw [hdeps]
    dsimp only
    rw [compileCalls_foldl_compileUnit, List.filterMap_filter]
    congr 3
    funext p
    split
    · rfl
    · rename_i hp
      simpa using Finmap.lookup_eq_none.mpr (by simpa using hp)

end Live

/-- After the initialization with two units, a change of one source compiles its unit. -/
theorem started_compiles_dependents :
    "/p/a.cpp" ∈ (Live.started twoUnits).world.context.inverseDependencies ∧
    ∃ paths : List String, paths.Nodup ∧
      (∀ p, p ∈ paths ↔ p ∈ (Live.started twoUnits).world.context.compilationUnits ∧
        "/p/a.cpp" ∈ lookupSet (Live.started twoUnits).world.context.dependencies p) ∧
      compileCalls ((Live.started twoUnits).onFileChanged {} "/p/a.cpp").1.trace =
        (paths.filterMap (Live.started twoUnits).world.context.compilationUnits.lookup).reverse ++
          compileCalls (Live.started twoUnits).trace := by
  have hrun : LiveRun {} (fun _ _ => True) (Live.started twoUnits) := LiveRun.started _ twoUnits
  have hkey : "/p/a.cpp" ∈ (Live.started twoUnits).world.context.inverseDependencies := by
    decide +kernel
  exact ⟨hkey, (Live.onFileChanged_compiles_dependents hrun.dependencyRun {}).2 _ hkey⟩

/-! ## Watched directories -/

/-- The directories of all dependencies are monitored and watched. -/
structure LiveWorld.Covered (w : LiveWorld) : Prop where
  watched : w.context.dirsToMonitor ⊆ w.watches
  parents : ∀ p, ∀ d ∈ lookupSet w.context.dependencies p, parentOf d ∈ w.context.dirsToMonitor

theorem LiveWorld.Covered.updateDependenciesOf {w : LiveWorld} (h : w.Covered)
    (hwatching : w.fileWatcher.isSome) (p : String) : (w.updateDependenciesOf p).1.Covered := by
  unfold LiveWorld.updateDependenciesOf
  split
  · exact h
  · rename_i cu hcu
    simp only [hwatching, updateDependencies, if_true]
    constructor
    · intro dir hdir
      by_cases hold : dir ∈ w.context.dirsToMonitor
      · exact Finset.mem_union_left _ (h.watched hold)
      · exact Finset.mem_union_right _ (Finset.mem_sdiff.mpr ⟨hdir, hold⟩)
    · intro q d hd
      by_cases hq : q = cu.sourceFilePath
      · subst hq
        simp only [lookupSet, Finmap.lookup_insert, Option.getD_some] at hd
        exact Finset.mem_union_right _ (Finset.mem_image_of_mem _ hd)
      · rw [lookupSet, Finmap.lookup_insert_of_ne _ hq] at hd
        exact Finset.mem_union_left _ (h.parents q d hd)

/-- A new watcher gets the directories of all paths that are recorded as dependencies. -/
theorem LiveWorld.covered_setupFileWatcher {w : LiveWorld}
    (hdual : Dual w.context.dependencies w.context.inverseDependencies) :
    (w.setupFileWatcher config).1.Covered := by
  refine ⟨Finset.Subset.refl _, ?_⟩
  intro p d hd
  refine Finset.mem_image_of_mem _ (Finset.mem_union_left _ (Finmap.mem_keys.mpr ?_))
  have hp : p ∈ lookupSet w.context.inverseDependencies d := (hdual p d).mp hd
  by_contra hnot
  simp [lookupSet, Finmap.lookup_eq_none.mpr hnot] at hp

/-- The dependency maps fit together, and while there is a watcher it covers them. -/
def LiveWorld.Watching (w : LiveWorld) : Prop :=
  DependencyRun w.context ∧ (w.fileWatcher.isSome → w.Covered)

theorem MapStep.watching (h : MapStep config R w w') (hw : w.Watching) : w'.Watching := by
  refine ⟨h.dependencyRun hw.1, ?_⟩
  intro hwatching
  cases h with
  | keep hsame _ =>
      obtain ⟨hwatched, hparents⟩ := hw.2 (hsame.watching ▸ hwatching)
      constructor
      · rw [hsame.dirsToMonitor, hsame.watches]
        exact hwatched
      · rw [hsame.dependencies, hsame.dirsToMonitor]
        exact hparents
  | dependencies p =>
      have hwatching' : w.fileWatcher.isSome := by
        unfold LiveWorld.updateDependenciesOf at hwatching
        split at hwatching <;> exact hwatching
      exact (hw.2 hwatching').updateDependenciesOf hwatching' p
  | watch => exact LiveWorld.covered_setupFileWatcher hw.1.dual
  | unwatch => simp at hwatching
  | reread new _ hw' _ =>
      subst hw'
      exact ⟨(hw.2 hwatching).watched, (hw.2 hwatching).parents⟩
  | remove p _ =>
      refine ⟨(hw.2 hwatching).watched, ?_⟩
      intro q d hd
      refine (hw.2 hwatching).parents q d ?_
      by_cases hq : q = p
      · subst hq
        simp [removeDependencies, lookupSet] at hd
      · simpa [removeDependencies, lookupSet, Finmap.lookup_erase_ne hq] using hd

/-- Whenever the library has a file watcher, the directory of every dependency of every unit
is monitored and was passed to the watcher. -/
theorem LiveRun.watches_dependencies {P : Live → LiveCall → Prop} {s : Live}
    (h : LiveRun config P s) (hwatching : s.world.fileWatcher ≠ none) (p d : String)
    (hd : d ∈ lookupSet s.world.context.dependencies p) :
    parentOf d ∈ s.world.context.dirsToMonitor ∧ parentOf d ∈ s.world.watches := by
  have hstep (w w' : LiveWorld) (h : MapStep config (fun _ _ => True) w w') :
      w.Watching → w'.Watching := h.watching
  have hs : s.world.Watching := by
    refine LiveRun.invariant (fun s call _ => Live.rereads_true config s call) hstep ?_ h
    intro filepath out memory s hs
    obtain ⟨w, hfresh, hsteps⟩ := Live.create_mapSteps (R := fun _ _ => True) hs
    refine hsteps.invariant hstep
      ⟨.start hfresh.dependencies hfresh.inverseDependencies, ?_⟩
    simp [hfresh.watching]
  have hcovered := hs.2 (Option.isSome_iff_ne_none.mpr hwatching)
  have hdir := hcovered.parents p d hd
  exact ⟨hdir, hcovered.watched hdir⟩

/-- The file with the units is written anew, and the watcher is made again. -/
def rereadUnits (commands : List CompileCommand) (env : Environment) : List LiveCall :=
  [.fileAction "/p/" "compile_commands.json", .tick (.ofCommands twoUnits) (.finished "" 0),
    .dispatch (.ofCommands commands) (.fileChanged "/p/compile_commands.json"), .finish] ++
    (List.replicate 9 [.tick (.ofCommands commands) env, .finish]).flatten

/-- A third unit is added and compiled. -/
def grownRun : Live :=
  .after twoUnits
    (rereadUnits (twoUnits ++ [⟨"c.o", "/p", "/q/c.cpp"⟩]) (.finished "/q/c.cpp" 0))

/-- The dependencies of the third unit were found while there was no watcher. -/
theorem grownRun_watches_dependencies :
    grownRun.world.fileWatcher ≠ none ∧
      "/q/c.cpp" ∈ lookupSet grownRun.world.context.dependencies "/q/c.cpp" ∧
      parentOf "/q/c.cpp" ∈ grownRun.world.context.dirsToMonitor ∧
      parentOf "/q/c.cpp" ∈ grownRun.world.watches := by
  have hrun : LiveRun {} (fun _ _ => True) grownRun :=
    (LiveRun.started _ twoUnits).calls _ (by decide +kernel)
  exact ⟨by decide +kernel, by decide +kernel,
    hrun.watches_dependencies (by decide +kernel) "/q/c.cpp" "/q/c.cpp" (by decide +kernel)⟩

/-! ## The own source of a unit -/

/-- Every unit is recorded under its own source, and a change of it makes it pending. -/
def Live.ReactsToSources (config : LiveConfig) (s : Live) : Prop :=
  ∀ p ∈ s.world.context.compilationUnits,
    p ∈ lookupSet s.world.context.inverseDependencies p ∧
    ∀ out, p ∈ ((s.ask out).onFileChanged config p).1.compiler.pendingPaths

theorem Live.not_reactsToSources {s : Live} (p : String)
    (hp : p ∈ s.world.context.compilationUnits)
    (hnot : p ∉ lookupSet s.world.context.inverseDependencies p) : ¬ s.ReactsToSources config :=
  fun h => hnot (h p hp).1

/-- A new reading of `compile_commands.json` adds no unit. -/
def LiveWorld.AddsNoUnit (w w' : LiveWorld) : Prop :=
  w'.context.compilationUnits.keys ⊆ w.context.compilationUnits.keys

instance (w w' : LiveWorld) : Decidable (w.AddsNoUnit w') :=
  inferInstanceAs (Decidable ((_ : Finset String) ⊆ _))

structure LiveWorld.SelfDependent (w : LiveWorld) : Prop where
  run : DependencyRun w.context
  keyed : UnitsKeyed (unitsOf w.context.compilationUnits)
  self : ∀ p ∈ w.context.compilationUnits, p ∈ lookupSet w.context.dependencies p

theorem sourceFilePath_mem_getDependencies (fs : FileSystem) (dirFilters : Finset String)
    (cu : CompilationUnit) : cu.sourceFilePath ∈ (getDependencies fs dirFilters cu).2.1 := by
  have hstart : cu.sourceFilePath ∈ ({(findDepfile fs cu).sourceFilePath} : Finset String) :=
    Finset.mem_singleton.mpr (findDepfile_sourceFilePath fs cu).symm
  unfold getDependencies
  dsimp only
  split
  · split <;> exact hstart
  · split
    · exact hstart
    · exact (mem_foldl_addDependency _ _ _ _).mpr (Or.inl hstart)

/-- Finding the dependencies of a unit makes it depend on its own source, and leaves the
other units alone. -/
theorem mem_dependencies_updateDependenciesOf
    (hkeyed : UnitsKeyed (unitsOf w.context.compilationUnits)) {p q : String}
    (hq : q ∈ w.context.compilationUnits)
    (h : q = p ∨ q ∈ lookupSet w.context.dependencies q) :
    q ∈ lookupSet (w.updateDependenciesOf p).1.context.dependencies q := by
  unfold LiveWorld.updateDependenciesOf
  split
  · rename_i hnone
    refine h.resolve_left ?_
    rintro rfl
    exact Finmap.lookup_eq_none.mp hnone hq
  · rename_i cu hcu
    have hpath := sourceFilePath_of_lookup hkeyed hcu
    simp only [updateDependencies, hpath]
    by_cases hqp : q = p
    · subst hqp
      have hself := sourceFilePath_mem_getDependencies w.outside.fs w.context.dirFilters cu
      rw [hpath] at hself
      simpa [lookupSet] using hself
    · rw [lookupSet, Finmap.lookup_insert_of_ne _ hqp]
      exact h.resolve_left hqp

theorem MapStep.selfDependent (h : MapStep config LiveWorld.AddsNoUnit w w')
    (hw : w.SelfDependent) : w'.SelfDependent := by
  refine ⟨h.dependencyRun hw.run, h.keyed hw.keyed, ?_⟩
  intro p hp
  cases h with
  | keep hsame _ =>
      rw [hsame.units] at hp
      rw [hsame.dependencies]
      exact hw.self p hp
  | dependencies q =>
      rw [mem_units_updateDependenciesOf hw.keyed] at hp
      exact mem_dependencies_updateDependenciesOf hw.keyed hp (Or.inr (hw.self p hp))
  | watch => exact hw.self p hp
  | unwatch => exact hw.self p hp
  | reread new _ hw' hR =>
      have hold := Finmap.mem_keys.mp (hR (Finmap.mem_keys.mpr hp))
      subst hw'
      exact hw.self p hold
  | remove q hq =>
      have hne : p ≠ q := by
        rintro rfl
        exact Finmap.lookup_eq_none.mp hq hp
      have hself := hw.self p hp
      rw [lookupSet] at hself
      rw [removeDependencies, lookupSet, Finmap.lookup_erase_ne hne]
      exact hself

namespace Live

/-- The loop over the units, which makes each of them depend on its own source. -/
theorem foldl_updateDependenciesOf_self (l : List (String × CompilationUnit)) (s : Live)
    (hkeyed : UnitsKeyed (unitsOf s.world.context.compilationUnits)) {q : String} :
    let s' : Live := l.foldl (fun s unit => s.act (·.updateDependenciesOf unit.1)) s
    (q ∈ s'.world.context.compilationUnits ↔ q ∈ s.world.context.compilationUnits) ∧
      (q ∈ s.world.context.compilationUnits →
        q ∈ l.map Prod.fst ∨ q ∈ lookupSet s.world.context.dependencies q →
        q ∈ lookupSet s'.world.context.dependencies q) := by
  induction l generalizing s with
  | nil => simp
  | cons unit l ih =>
      have hunits := LiveWorld.unitsOf_updateDependenciesOf hkeyed unit.1
      obtain ⟨hknown, hself⟩ := ih (s.act (·.updateDependenciesOf unit.1)) (by
        rw [Session.act_world, hunits]
        exact hkeyed)
      rw [Session.act_world, mem_units_updateDependenciesOf hkeyed] at hknown hself
      refine ⟨hknown, ?_⟩
      intro hq h
      refine hself hq ?_
      rw [List.map_cons, List.mem_cons, or_assoc] at h
      by_cases hl : q ∈ l.map Prod.fst
      · exact Or.inl hl
      · refine Or.inr (mem_dependencies_updateDependenciesOf hkeyed hq ?_)
        exact h.imp_right fun h => h.resolve_left hl

theorem loadDependencies_selfDependent {s : Live} (hs : s.world.Fresh) :
    s.loadDependencies.world.SelfDependent := by
  have hsteps : MapSteps {} (fun _ _ => True) s.world s.loadDependencies.world :=
    (loadDependencies_mapSteps s).2
  refine ⟨hsteps.invariant (fun _ _ hstep => hstep.dependencyRun)
    (.start hs.dependencies hs.inverseDependencies),
    hsteps.invariant (fun _ _ hstep => hstep.keyed) hs.keyed, ?_⟩
  unfold loadDependencies
  simp only [Session.emitLogs_world]
  intro q hq
  obtain ⟨hknown, hself⟩ := foldl_updateDependenciesOf_self s.world.unitList
    (s.emitLogs [.log .kDebug "Parsing dependencies..."]) (q := q) (by simpa using hs.keyed)
  rw [hknown] at hq
  refine hself hq (Or.inl ?_)
  rw [Session.emitLogs_world] at hq
  obtain ⟨cu, hcu⟩ := Finmap.mem_iff.mp hq
  refine List.mem_map.mpr ⟨(q, cu), List.mem_filterMap.mpr ⟨q, ?_, by rw [hcu]; rfl⟩, rfl⟩
  rw [Iteration.mem_toList, Finmap.mem_keys]
  exact hq

theorem create_selfDependent {filepath : String} {out : Outside} {memory : ProcessMemory}
    {s : Live} (h : create config filepath out memory = some s) : s.world.SelfDependent := by
  obtain ⟨s₁, ⟨_, hfresh⟩, hrest⟩ := create_prepares (R := LiveWorld.AddsNoUnit) h
  exact hrest.2.invariant (fun _ _ hstep => hstep.selfDependent)
    (loadDependencies_selfDependent hfresh)

end Live

/-- In a run without a new unit, every unit reacts to changes of its own source. -/
theorem LiveRun.reacts_to_sources {s : Live}
    (h : LiveRun config (Live.Rereads LiveWorld.AddsNoUnit config) s) :
    s.ReactsToSources config := by
  have hs : s.world.SelfDependent :=
    LiveRun.invariant (fun _ _ hcall => hcall) (fun _ _ hstep => hstep.selfDependent)
      (fun _ _ _ _ hs => Live.create_selfDependent hs) h
  intro p hp
  have hself := (hs.run.dual p p).mp (hs.self p hp)
  refine ⟨hself, ?_⟩
  intro out
  obtain ⟨cu, hcu⟩ := Finmap.mem_iff.mp hp
  exact Live.onFileChanged_pending cu hcu (sourceFilePath_of_lookup hs.keyed hcu) hself

/-- A unit is compiled with another command. -/
def changedRun : Live :=
  .after twoUnits
    (rereadUnits [⟨"a.o", "/p", "/p/a.cpp"⟩, ⟨"c.o", "/p", "/p/b.cpp"⟩] (.finished "/p/b.cpp" 0))

theorem changedRun_reacts_to_sources :
    "/p/b.cpp" ∈ changedRun.compiler.readyCompilationUnits ∧ changedRun.ReactsToSources {} := by
  have hrun : LiveRun {} (Live.Rereads LiveWorld.AddsNoUnit {}) changedRun :=
    (LiveRun.started _ twoUnits).calls _ (by decide +kernel)
  exact ⟨by decide +kernel, hrun.reacts_to_sources⟩

/-- A third unit is added, and its compilation goes on while its source is edited. -/
def busyRun : Live :=
  let commands := twoUnits ++ [⟨"c.o", "/p", "/p/c.cpp"⟩]
  .after twoUnits (rereadUnits commands (.finished "" 0) ++ [.fileAction "/p/" "c.cpp",
    .tick (.ofCommands commands) (.finished "" 0)])

/-- The edit is in the queue, but it will not lead to a compilation. -/
theorem busyRun_not_reacts_to_sources :
    LiveRun {} (fun _ _ => True) busyRun ∧ ¬ busyRun.ReactsToSources {} ∧
      busyRun.world.draining = true ∧ busyRun.world.events = [.fileChanged "/p/c.cpp"] ∧
      "/p/c.cpp" ∈ busyRun.compiler.runningCompilationTasks ∧
      "/p/c.cpp" ∉ (busyRun.onFileChanged {} "/p/c.cpp").1.compiler.pendingPaths := by
  exact ⟨(LiveRun.started _ twoUnits).calls _ (by decide +kernel),
    Live.not_reactsToSources "/p/c.cpp" (by decide +kernel) (by decide +kernel),
    by decide +kernel⟩

end JetLive

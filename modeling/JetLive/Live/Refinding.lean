import JetLive.Live.Run

/-!
# Finding a dependency again

When a file changes, the library looks for it in the recorded dependencies under the
path it builds from the event. So a change of a dependency is noticed exactly if the
path of the event is the recorded path, and then the unit is compiled.
-/

namespace JetLive

open Containers TeenyPath

namespace Live

theorem mem_pendingPaths_compileUnit {complaint : String} {s : Live} {p q : String}
    (h : q ∈ s.compiler.pendingPaths) :
    q ∈ (s.compileUnit complaint p).compiler.pendingPaths := by
  unfold compileUnit
  split
  · exact (Compiler.mem_pendingPaths_enqueue _ _ _ _).mpr (Or.inl h)
  · simpa using h

theorem mem_pendingPaths_compileUnit_self {complaint : String} {s : Live} {p : String}
    {cu : CompilationUnit} (hcu : s.world.context.compilationUnits.lookup p = some cu)
    (hpath : cu.sourceFilePath = p) : p ∈ (s.compileUnit complaint p).compiler.pendingPaths := by
  unfold compileUnit
  rw [hcu]
  exact (Compiler.mem_pendingPaths_enqueue _ _ _ _).mpr (Or.inr hpath.symm)

/-- A loop that compiles units leaves each known one of them pending. -/
theorem mem_pendingPaths_foldl_compileUnit {complaint : String} {l : List String} {s : Live}
    {p : String} {cu : CompilationUnit}
    (hcu : s.world.context.compilationUnits.lookup p = some cu) (hpath : cu.sourceFilePath = p)
    (hp : p ∈ l ∨ p ∈ s.compiler.pendingPaths) :
    p ∈ (l.foldl (compileUnit complaint) s).compiler.pendingPaths := by
  induction l generalizing s with
  | nil => exact hp.resolve_left List.not_mem_nil
  | cons q l ih =>
      refine ih (by rw [compileUnit_world]; exact hcu) ?_
      rcases hp with hp | hp
      · rcases List.mem_cons.mp hp with rfl | hp
        · exact Or.inr (mem_pendingPaths_compileUnit_self hcu hpath)
        · exact Or.inl hp
      · exact Or.inr (mem_pendingPaths_compileUnit hp)

/-- A change of a recorded dependency makes its units pending. -/
theorem onFileChanged_pending {config : LiveConfig} {s : Live} {filepath p : String}
    (cu : CompilationUnit) (hcu : s.world.context.compilationUnits.lookup p = some cu)
    (hpath : cu.sourceFilePath = p)
    (hdep : p ∈ lookupSet s.world.context.inverseDependencies filepath) :
    p ∈ (s.onFileChanged config filepath).1.compiler.pendingPaths := by
  unfold onFileChanged
  cases hdeps : s.world.context.inverseDependencies.lookup filepath with
  | none => simp [lookupSet, hdeps] at hdep
  | some deps =>
      refine mem_pendingPaths_foldl_compileUnit hcu hpath (Or.inl ?_)
      rw [Iteration.mem_toList]
      simpa [lookupSet, hdeps] using hdep

/-- The path of an event on the file `dep` is `dep` itself, and the event makes the unit
with the given source path pending. -/
def Refound (config : LiveConfig) (s : Live) (dep p : String) : Prop :=
  eventPath dep.toList = dep.toList ∧
    p ∈ (s.onFileChanged config (String.ofList (eventPath dep.toList))).1.compiler.pendingPaths

/-- A dependency that was recorded for a unit is found again exactly if its path is
refindable. -/
theorem refound_iff_refindable (config : LiveConfig) (s : Live) (out : Outside)
    (cu : CompilationUnit) {dep : String}
    (hcu : s.world.context.compilationUnits.lookup cu.sourceFilePath = some cu)
    (hdep : dep ∈ (getDependencies s.world.outside.fs s.world.context.dirFilters cu).2.1)
    (hfile : NamesFile dep.toList) :
    Refound config (Live.ask out (s.act (·.updateDependenciesOf cu.sourceFilePath))) dep
      cu.sourceFilePath ↔ Refindable dep.toList := by
  refine ⟨fun h => (eventPath_eq_iff hfile).mp h.1, fun h => ?_⟩
  have heq := (eventPath_eq_iff hfile).mpr h
  refine ⟨heq, ?_⟩
  have hcontext := LiveWorld.updateDependenciesOf_context hcu
  rw [heq, String.ofList_toList]
  refine onFileChanged_pending
    (getDependencies s.world.outside.fs s.world.context.dirFilters cu).1 ?_ ?_ ?_
  · simp [Live.ask, hcontext, updateDependencies]
  · have hunit := withoutDepfile_getDependencies s.world.outside.fs s.world.context.dirFilters cu
    exact (CompilationUnit.mk.inj hunit).2.2.2.1
  · simp only [Live.ask, Session.modifyWorld_world, Session.act_world, hcontext]
    exact mem_inverseDependencies_updateDependencies _ _ _ _ _ hdep

end Live

/-- A unit with a header. -/
def headerUnit : CompilationUnit :=
  { sourceFilePath := "/p/src/a.cpp", objFilePath := "/p/a.o" }

/-- The library with the unit, whose depfile lists one header. -/
def headerLive (header : String) : Live where
  world :=
    { outside := { Outside.ofCommands [] with
        fs := { FileSystem.full with read := fun _ => some ("/p/a.o: \\\n " ++ header) } }
      memory := fun _ => 0
      context :=
        { dirFilters := {"/p"}
          compilationUnits := (∅ : UnorderedMap String CompilationUnit).insert "/p/src/a.cpp"
            headerUnit } }

/-- A header whose path is written plainly is found again. -/
theorem headerLive_refound :
    Live.Refound {} (Live.ask (.ofCommands []) ((headerLive "/p/inc/a.h").act
      (·.updateDependenciesOf "/p/src/a.cpp"))) "/p/inc/a.h" "/p/src/a.cpp" := by
  exact (Live.refound_iff_refindable {} (headerLive "/p/inc/a.h") (.ofCommands [])
    headerUnit rfl (by decide +kernel) (by decide +kernel)).mpr (by decide +kernel)

/-- A header whose path climbs up is recorded as it is written, but its events are
reported under the normal path. -/
theorem headerLive_not_refound :
    "/p/src/../inc/a.h" ∈ (getDependencies (headerLive "/p/src/../inc/a.h").world.outside.fs
      {"/p"} headerUnit).2.1 ∧
    String.ofList (eventPath "/p/src/../inc/a.h".toList) = "/p/inc/a.h" ∧
    ¬ Live.Refound {} (Live.ask (.ofCommands []) ((headerLive "/p/src/../inc/a.h").act
      (·.updateDependenciesOf "/p/src/a.cpp"))) "/p/src/../inc/a.h" "/p/src/a.cpp" := by
  refine ⟨by decide +kernel, by decide +kernel, fun h => ?_⟩
  have heq := h.1
  revert heq
  decide +kernel

end JetLive

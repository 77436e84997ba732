import JetLive.Compiler.Delivery
import JetLive.Live.Deferral

/-!
# A requested reload takes place

When the user asks for a reload after an edit, the new code has to come into the process: the unit
may still be pending then, its link may be deferred for other units, and the calls of `update` find
the processes at their end at any time. As long as all processes end well, the reload takes place,
with the object of the edited unit among those its relocations are read from.
-/

namespace JetLive

open Containers

theorem LiveWorld.mem_objFilePaths {w : LiveWorld} {p o : String} {sourceFilePaths : List String}
    (libPath : String) (hp : p ∈ sourceFilePaths)
    (ho : (w.context.compilationUnits.lookup p).map (fun cu => cu.objFilePath) = some o) :
    o ∈ (w.libProgram libPath sourceFilePaths).objFilePaths := by
  obtain ⟨cu, hcu, rfl⟩ := Option.map_eq_some_iff.mp ho
  have hunit : (p, cu) ∈ w.knownUnits sourceFilePaths :=
    List.mem_filterMap.mpr ⟨p, hp, by rw [hcu]; rfl⟩
  exact List.mem_map_of_mem hunit

/-- The reload that follows a successful link carries the objects of all known sources. -/
theorem exists_reload_loadCode {w : LiveWorld} {p o : String} {sourceFilePaths : List String}
    (libPath : String) (hp : p ∈ sourceFilePaths)
    (ho : (w.context.compilationUnits.lookup p).map (fun cu => cu.objFilePath) = some o) :
    ∃ newProgram exportedFrom,
      HostEvent.reload newProgram exportedFrom ∈ (w.loadCode 0 libPath sourceFilePaths).2 ∧
        newProgram.path = libPath ∧ o ∈ newProgram.objFilePaths := by
  refine ⟨w.libProgram libPath sourceFilePaths,
    (w.knownUnits sourceFilePaths).map fun unit => unit.2.objFilePath, ?_, rfl,
    w.mem_objFilePaths libPath hp ho⟩
  simp [LiveWorld.loadCode]

/-- From every state of a run in which a reload is requested and a unit is held, calls of `update`
link the unit, load the library and reload the code, once enough of them have found all processes
at their end. How many these are depends on the pending compilations and the known units only. -/
theorem LiveRun.requested_reload_happens {config : LiveConfig} {P : Live → LiveCall → Prop}
    {s : Live} (h : LiveRun config P s) (hworkers : 0 < config.workerThreadsCount)
    {n : ℕ} {p o : String} (hunit : s.world.objOf p = some o)
    (hwaits : Session.Waits (some n) p s.compiler) (turns : List (Turn Live.host))
    (hsucceeds : ∀ t ∈ turns, t.Succeeds)
    (henough : s.compiler.pendingCompilationTasks.length +
      s.world.context.compilationUnits.keys.card *
        (s.world.context.compilationUnits.keys.card + 1) < s.endings config turns) :
    ∃ u c c' libPath sourceFilePaths err newProgram exportedFrom,
      (turns.foldl (Session.turn config) s).trace = u ++ s.trace ∧
        (c, Event.linkFinished (some n) 0 libPath sourceFilePaths err) ∈ u ∧
        p ∈ sourceFilePaths ∧ (c', Event.host (.reload newProgram exportedFrom)) ∈ u ∧
        newProgram.path = libPath ∧ o ∈ newProgram.objFilePaths := by
  obtain ⟨u, c, libPath, sourceFilePaths, err, w, htrace, hp, hmem, hknows, heffect⟩ :=
    h.sound.delivers Live.host_keepsUnits trivial hworkers hsucceeds hwaits henough
  obtain ⟨newProgram, exportedFrom, hreload, hpath, ho⟩ :=
    exists_reload_loadCode libPath hp ((hknows.objFilePath p).trans hunit)
  obtain ⟨c', hc'⟩ := heffect _ hreload
  exact ⟨u, c, c', libPath, sourceFilePaths, err, newProgram, exportedFrom, htrace, hmem, hp, hc',
    hpath, ho⟩

/-- All processes have ended well, and the two objects need each other. -/
def endedTurn : Turn Live.host where
  change := id
  keeps _ _ h := h
  env :=
    { circularEnvironment with
      exitStatus := fun _ => some (0, "")
      linkExitStatus := some (0, "")
      dlerror := none }

/-- The edited unit is pending when the reload is requested, and its object needs the other one:
the link is deferred once, and then both objects are reloaded. -/
theorem circularRun_requested_reload_happens :
    circularRun.compiler.pendingPaths = ["/p/a.cpp"] ∧
    circularRun.deferrals {} (List.replicate 8 endedTurn) = 1 ∧
    ∃ u c c' libPath sourceFilePaths err newProgram exportedFrom,
      ((List.replicate 8 endedTurn).foldl (Session.turn {}) circularRun).trace =
          u ++ circularRun.trace ∧
        (c, Event.linkFinished (some 0) 0 libPath sourceFilePaths err) ∈ u ∧
        "/p/a.cpp" ∈ sourceFilePaths ∧ (c', Event.host (.reload newProgram exportedFrom)) ∈ u ∧
        newProgram.path = libPath ∧ "/p/a.o" ∈ newProgram.objFilePaths := by
  have hcreate : ∃ s, Live.create {} "/p/compile_commands.json" circularOutside
      (fun _ => 0) = some s := ⟨_, rfl⟩
  have hstart : LiveRun {} (fun _ _ => True) circularStart := by
    obtain ⟨s, hs⟩ := hcreate
    rw [circularStart, hs, Option.getD_some]
    exact .start _ _ _ hs
  have hrun : LiveRun {} (fun _ _ => True) circularRun := hstart.calls _ (by decide +kernel)
  have hpending : circularRun.compiler.pendingPaths = ["/p/a.cpp"] := by decide +kernel
  refine ⟨hpending, by decide +kernel, hrun.requested_reload_happens (by decide)
    (by decide +kernel) ⟨by decide +kernel, by decide +kernel, .inl ?_, by decide +kernel⟩ _ ?_
    (by decide +kernel)⟩
  · rw [hpending]
    exact List.mem_singleton_self _
  · intro t ht
    obtain rfl := List.eq_of_mem_replicate ht
    refine ⟨fun p status err h => ?_, fun status err h => ?_, rfl⟩
    · exact (Prod.ext_iff.mp (Option.some.inj h)).1.symm
    · exact (Prod.ext_iff.mp (Option.some.inj h)).1.symm

end JetLive

import JetLive.Live.Run

/-!
# When the library compiles

The assertion at the top of `compile` asks that no link is requested and no link
process is running. The library keeps the second half by itself: it works on its
queue only while nothing is linked. The first half it does not check, and a link that
was requested may wait for many ticks, so it depends on the events.
-/

namespace JetLive

open EventTrace

/-- The assertion at the top of `compile`. -/
def CompilesIdle (c : Compiler) : Event → CompilerTrace → Prop
  | .compile _, _ => c.shouldLink = false ∧ c.runningLinkTask = none
  | _, _ => True

instance (c : Compiler) : ∀ e t, Decidable (CompilesIdle c e t)
  | .compile _, _ => inferInstanceAs (Decidable (_ ∧ _))
  | .log .., _ | .remove _, _ | .link, _ | .compileStarted .., _ | .compileFinished .., _
  | .linkStarted _, _ | .dlopen .., _ | .linkRefused _, _ | .linkFinished .., _
  | .linkTaskReset _, _ | .host _, _ => isTrue trivial

theorem Reached.compilesIdle {d : Discipline} {c : Compiler} {t : CompilerTrace}
    (h : Reached d c t) (hedit : d.editGuarded) (hcompile : d.compileGuarded) :
    Always CompilesIdle t := by
  refine h.always ?_
  intro c t c₀ e _ hemits
  cases e with
  | compile cu =>
      obtain ⟨rfl, hidle, hassert⟩ := hemits
      exact ⟨hassert hcompile, hidle hedit⟩
  | _ => trivial

/-- In a run that never works on its queue with a link requested and a file event
waiting that concerns the units, the assertion at the top of `compile` never fails. -/
theorem LiveRun.compiles_idle {config : LiveConfig} {s : Live}
    (h : LiveRun config (Live.DrainsIdle config) s) : Always CompilesIdle s.trace := by
  obtain ⟨hreached, _⟩ :=
    LiveRun.reached (d := .strict config) (fun _ s call hcall => hcall) h
  exact hreached.compilesIdle trivial trivial

/-- One unit is edited and a reload is requested in the same tick. -/
def editAndReload : List LiveCall :=
  let out := Outside.ofCommands twoUnits
  [.fileAction "/p/" "a.cpp", .tryReload, .tick out (.finished "" 0),
    .dispatch out (.fileChanged "/p/a.cpp"), .dispatch out .tryReload, .finish]

/-- The requested link waits for the compilation, and no file is edited meanwhile. -/
def patientRun : Live :=
  .after twoUnits (editAndReload ++ [.tick (.ofCommands twoUnits) (.finished "" 0), .finish])

theorem patientRun_compiles_idle :
    "/p/a.cpp" ∈ patientRun.compiler.runningCompilationTasks ∧
      patientRun.compiler.shouldLink = true ∧ Always CompilesIdle patientRun.trace := by
  have hrun : LiveRun {} (Live.DrainsIdle {}) patientRun :=
    (LiveRun.started _ twoUnits).calls _ (by decide +kernel)
  exact ⟨by decide +kernel, by decide +kernel, hrun.compiles_idle⟩

/-- The requested link waits for the compilation, and the other unit is edited
meanwhile. -/
def hastyRun : Live :=
  .after twoUnits (editAndReload ++ [.fileAction "/p/" "b.cpp",
    .tick (.ofCommands twoUnits) (.finished "" 0),
    .dispatch (.ofCommands twoUnits) (.fileChanged "/p/b.cpp")])

theorem hastyRun_not_compiles_idle :
    LiveRun {} (fun _ _ => True) hastyRun ∧ ¬ Always CompilesIdle hastyRun.trace := by
  exact ⟨(LiveRun.started _ twoUnits).calls _ (by decide +kernel), by decide +kernel⟩

end JetLive

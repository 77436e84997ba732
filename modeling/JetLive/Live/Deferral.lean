import JetLive.Compiler.Progress
import JetLive.Live.Agreement
import JetLive.Live.Gate
import JetLive.Live.Maps

/-!
# Deferred links of the library

The library asks for a link only while none is running, and its callbacks change no unit but
for its depfile. So from every state of a run a requested link is deferred at most as many
times as there are units.
-/

namespace JetLive

open Containers

variable {objOf : String → Option String} {w w' : LiveWorld}

theorem LiveWorld.knows (hkeyed : UnitsKeyed (unitsOf w.context.compilationUnits)) :
    Knows w.objOf w.context where
  objFilePath p := (w.objOf_eq_lookup p).symm
  sourceFilePath _ _ hcu := sourceFilePath_of_lookup hkeyed hcu

theorem Knows.unitsKeyed (h : Knows objOf w.context) :
    UnitsKeyed (unitsOf w.context.compilationUnits) := by
  intro p cu hcu
  obtain ⟨known, hknown, rfl⟩ := Option.map_eq_some_iff.mp hcu
  exact h.sourceFilePath p known hknown

theorem Knows.congr (h : Knows objOf w.context)
    (hunits : unitsOf w'.context.compilationUnits = unitsOf w.context.compilationUnits) :
    Knows objOf w'.context := by
  have hobj : objOf = w'.objOf := by
    funext p
    rw [LiveWorld.objOf_congr hunits, LiveWorld.objOf_eq_lookup, h.objFilePath]
  rw [hobj]
  exact LiveWorld.knows (hunits ▸ h.unitsKeyed)

theorem Live.host_keepsUnits : Live.host.KeepsUnits where
  compileFinished objOf callback status path err w h := by
    cases callback with
    | updateDependencies p readings =>
        exact h.congr (LiveWorld.unitsOf_updateDependenciesOf h.unitsKeyed _)
    | nothing => exact h
  linkFinished objOf callback status libPath sourceFilePaths err w h := by
    apply h.congr
    exact congrArg unitsOf (host_linkFinished_units callback status libPath sourceFilePaths err w)

theorem LiveRun.sound {config : LiveConfig} {P : Live → LiveCall → Prop} {s : Live}
    (h : LiveRun config P s) :
    Session.Sound (.gated config) Live.host s.world.objOf s :=
  ⟨h.reached_gated.1, LiveWorld.knows h.keyed⟩

/-- From every state of a run, calls of `update` defer a link at most as many times as there
are units, whatever the processes answer and whatever the recompiled objects leave undefined:
a deferral that is not followed by a refusal at the next decision makes more units fresh. -/
theorem LiveRun.deferred_link_progresses {config : LiveConfig} {P : Live → LiveCall → Prop}
    {s : Live} (h : LiveRun config P s) (turns : List (Turn Live.host)) :
    s.deferrals config turns ≤ s.world.context.compilationUnits.keys.card ∧
      s.Progresses config turns :=
  ⟨h.sound.deferrals_le_card Live.host_keepsUnits trivial turns,
    h.sound.progresses Live.host_keepsUnits trivial turns⟩

/-! ### Two units that need each other -/

/-- The two units export a function each. -/
def circularOutside : Outside :=
  { Outside.ofCommands twoUnits with
    exportedSymbolNames := fun o =>
      if o = "/p/a.o" then ["f"] else if o = "/p/b.o" then ["g"] else [] }

def circularStart : Live :=
  (Live.create {} "/p/compile_commands.json" circularOutside fun _ => 0).getD
    { world := { outside := circularOutside, memory := fun _ => 0 } }

/-- One of the units is edited and a reload is requested. -/
def circularRun : Live := editAndReload.foldl (Live.perform {}) circularStart

/-- The compilation of `p` ends with success, and the two objects need each other. -/
def circularTurn (p : String) : Turn Live.host where
  change := id
  keeps _ _ h := h
  env := { circularEnvironment with exitStatus := (Environment.finished p 0).exitStatus }

/-- The calls that compile one unit and then the other. -/
def circularTurns : List (Turn Live.host) :=
  [circularTurn "", circularTurn "/p/a.cpp", circularTurn "", circularTurn "/p/b.cpp"]

theorem circularRun_progresses :
    circularRun.compiler.shouldLink = true ∧ circularRun.deferrals {} circularTurns = 1 ∧
      circularRun.deferrals {} circularTurns ≤
        circularRun.world.context.compilationUnits.keys.card ∧
      circularRun.Progresses {} circularTurns := by
  have hcreate : ∃ s, Live.create {} "/p/compile_commands.json" circularOutside
      (fun _ => 0) = some s := ⟨_, rfl⟩
  have hstart : LiveRun {} (fun _ _ => True) circularStart := by
    obtain ⟨s, hs⟩ := hcreate
    rw [circularStart, hs, Option.getD_some]
    exact .start _ _ _ hs
  have hrun : LiveRun {} (fun _ _ => True) circularRun := hstart.calls _ (by decide +kernel)
  exact ⟨by decide +kernel, by decide +kernel, hrun.deferred_link_progresses circularTurns⟩

end JetLive

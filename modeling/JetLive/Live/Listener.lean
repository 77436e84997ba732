import JetLive.Live.Gate
import JetLive.Live.Maps

/-!
# What the listener sees

The listener is told before new code is loaded and after it was loaded. Every callback of
a link tells it both, whatever the outcome is, and the pipeline runs in between. But the
library with the new code is opened by the compiler, and that is before the callback.
-/

namespace JetLive

open Containers EventTrace

/-- The listener was told that code is going to be loaded, and not yet that it is done. -/
def loading : CompilerTrace → Bool
  | [] => false
  | (_, .host .onCodePreLoad) :: _ => true
  | (_, .host .onCodePostLoad) :: _ => false
  | _ :: t => loading t

/-- The order that the listener relies on: `onCodePreLoad` and `onCodePostLoad` alternate,
and code is reloaded in between. With `opens` this is also asked for opening the library. -/
def InTurn (opens : Bool) (_ : Compiler) : Event → CompilerTrace → Prop
  | .host .onCodePreLoad, t => loading t = false
  | .host .onCodePostLoad, t => loading t = true
  | .host (.reload ..), t => loading t = true
  | .dlopen .., t => opens = true → loading t = true
  | _, _ => True

instance (opens : Bool) (c : Compiler) : ∀ e t, Decidable (InTurn opens c e t)
  | .host .onCodePreLoad, _ => inferInstanceAs (Decidable (_ = _))
  | .host .onCodePostLoad, _ => inferInstanceAs (Decidable (_ = _))
  | .host (.reload ..), _ => inferInstanceAs (Decidable (_ = _))
  | .dlopen .., _ => inferInstanceAs (Decidable (_ → _))
  | .host (.log _), _ | .log .., _ | .compile _, _ | .remove _, _ | .link, _
  | .compileStarted .., _ | .compileFinished .., _ | .linkStarted _, _ | .linkRefused _, _
  | .linkFinished .., _ | .linkTaskReset _, _ => isTrue trivial

/-- The events that do not concern the listener. -/
def Event.Silent (opens : Bool) : Event → Prop
  | .host (.log _) => True
  | .host _ => False
  | .dlopen .. => opens = false
  | _ => True

variable {opens : Bool}

theorem Event.Silent.inTurn {e : Event} (he : e.Silent opens) (c : Compiler)
    (t : CompilerTrace) :
    InTurn opens c e t ∧ loading ((c, e) :: t) = loading t := by
  cases e with
  | host event =>
      cases event with
      | log _ => exact ⟨trivial, rfl⟩
      | _ => exact he.elim
  | dlopen =>
      refine ⟨?_, rfl⟩
      intro hopens
      exact absurd (hopens.symm.trans he) (by simp)
  | _ => exact ⟨trivial, rfl⟩

/-- Follow the effects of a callback: where the listener is after them, if they come in
turn. -/
def turns : Bool → List HostEvent → Option Bool
  | b, [] => some b
  | b, .log _ :: l => turns b l
  | false, .onCodePreLoad :: l => turns true l
  | true, .onCodePostLoad :: l => turns false l
  | true, .reload .. :: l => turns true l
  | _, _ => none

theorem turns_log (b : Bool) (entry : LogEntry) (l : List HostEvent) :
    turns b (.log entry :: l) = turns b l := by
  cases b <;> rfl

theorem turns_logs (b : Bool) (logs : List LogEntry) (l : List HostEvent) :
    turns b (logs.map .log ++ l) = turns b l := by
  induction logs with
  | nil => rfl
  | cons entry logs ih =>
      rw [List.map_cons, List.cons_append, turns_log]
      exact ih

/-- The callback of a reload tells the listener before and after. -/
theorem turns_loadCode (status : ℤ) (libPath : String) (sourceFilePaths : List String)
    (w : LiveWorld) : turns false (w.loadCode status libPath sourceFilePaths).2 = some false := by
  unfold LiveWorld.loadCode
  split
  · rfl
  · simp [turns, turns_logs]

/-- Everything so far came in turn, and the listener is not waiting. -/
def Live.Polite (opens : Bool) (s : Live) : Prop :=
  Always (InTurn opens) s.trace ∧ loading s.trace = false

namespace Live

open Session

variable {s s' : Live}

theorem emitHost_inTurn {b : Bool} (l : List HostEvent) (s : Live)
    (hs : Always (InTurn opens) s.trace) (hl : turns (loading s.trace) l = some b) :
    Always (InTurn opens) (s.emitHost l).trace ∧ loading (s.emitHost l).trace = b := by
  induction l generalizing s with
  | nil => exact ⟨hs, Option.some.inj hl⟩
  | cons e l ih =>
      -- the next event comes in turn, and leaves the listener where `turns` says
      have hnext (h : InTurn opens s.compiler (.host e) s.trace)
          (hrest : turns (loading (s.emit (.host e)).trace) l = some b) :
          Always (InTurn opens) (s.emitHost (e :: l)).trace ∧
            loading (s.emitHost (e :: l)).trace = b :=
        ih (s.emit (.host e)) ((always_cons _ _ _ _).mpr ⟨h, hs⟩) hrest
      cases e with
      | log entry =>
          rw [turns_log] at hl
          exact hnext trivial hl
      | onCodePreLoad =>
          cases hb : loading s.trace with
          | false => exact hnext hb (by rw [hb] at hl; exact hl)
          | true => simp [hb, turns] at hl
      | onCodePostLoad =>
          cases hb : loading s.trace with
          | false => simp [hb, turns] at hl
          | true => exact hnext hb (by rw [hb] at hl; exact hl)
      | reload newProgram exportedFrom =>
          cases hb : loading s.trace with
          | false => simp [hb, turns] at hl
          | true => exact hnext hb (by rw [hb] at hl; exact hb.symm ▸ hl)

namespace Polite

theorem emit {e : Event} (hs : s.Polite opens) (he : e.Silent opens) :
    Polite opens (s.emit e) := by
  obtain ⟨hturn, hloading⟩ := he.inTurn s.compiler s.trace
  exact ⟨(always_cons _ _ _ _).mpr ⟨hturn, hs.1⟩, hloading.trans hs.2⟩

theorem modify (hs : s.Polite opens) (f : Compiler → Compiler) : Polite opens (s.modify f) := hs

theorem modifyWorld (hs : s.Polite opens) (f : LiveWorld → LiveWorld) :
    Polite opens (s.modifyWorld f) := hs

theorem of_extends {P : Compiler → Event → Prop} {J : LiveWorld → Prop} (hs : s.Polite opens)
    (h : Extends P J s s') (hP : ∀ c e, P c e → e.Silent opens) : s'.Polite opens := by
  obtain ⟨⟨u, htrace, hu⟩, _⟩ := h
  rw [Polite, htrace]
  clear htrace
  induction u with
  | nil => exact hs
  | cons x u ih =>
      obtain ⟨hx, hu⟩ := List.forall_mem_cons.mp hu
      obtain ⟨hturn, hloading⟩ := (hP x.1 x.2 hx).inTurn x.1 (u ++ s.trace)
      obtain ⟨halways, hdone⟩ := ih hu
      exact ⟨(always_cons _ _ _ _).mpr ⟨hturn, halways⟩, hloading.trans hdone⟩

/-- A callback whose effects come in turn and leave the listener in peace. -/
theorem callback {e : Event} {effect : LiveWorld → LiveWorld × List HostEvent}
    (hs : s.Polite opens) (he : e.Silent opens)
    (heffect : turns false (effect s.world).2 = some false) :
    Polite opens (s.callback e effect) := by
  obtain ⟨halways, hdone⟩ := hs.emit he
  exact emitHost_inTurn (effect s.world).2 { s.emit e with world := (effect s.world).1 } halways
    (hdone ▸ heffect)

end Polite

theorem turns_linkFinished (callback : LinkFinishCallback) (status : ℤ) (libPath : String)
    (sourceFilePaths : List String) (err : String) (w : LiveWorld) :
    turns false (host.linkFinished callback status libPath sourceFilePaths err w).2 =
      some false := by
  cases callback with
  | none => rfl
  | some n => exact turns_loadCode status libPath sourceFilePaths w

theorem turns_compileFinished (callback : FinishCallback) (status : ℤ) (path err : String)
    (w : LiveWorld) :
    turns false (host.compileFinished callback status path err w).2 = some false := by
  cases callback with
  | updateDependencies p readings =>
      have hlogs := turns_logs false (w.updateDependenciesOf (w.referent p readings)).2 []
      rw [List.append_nil] at hlogs
      exact hlogs
  | nothing => rfl

theorem polite_stable (opens : Bool) : Session.Stable host (Polite opens) where
  emit s e he hs := by
    refine hs.emit ?_
    cases e with
    | log => trivial
    | compileStarted => trivial
    | linkStarted => trivial
    | _ => exact he.elim
  modify _ f hs := hs.modify f
  unit s _ cu _ hs := hs.emit (e := .compile cu) trivial
  compileFinished s callback status path err hs :=
    hs.callback trivial (turns_compileFinished callback status path err s.world)
  linkRefused s callback hs :=
    hs.callback trivial (turns_linkFinished callback 125 "" [] "" s.world)

/-- No link process has ended with success when it is polled. -/
def LinksFail (_ : Live) : LiveCall → Prop
  | .tick _ env => env.linkExitStatus.all (fun result => result.1 ≠ 0) = true
  | _ => True

instance (s : Live) : ∀ call, Decidable (s.LinksFail call)
  | .tick .. => inferInstanceAs (Decidable (_ = _))
  | .fileAction .. | .tryReload | .write _ | .dispatch .. | .finish => isTrue trivial

namespace Polite

theorem pollLink (env : Environment) (hs : s.Polite opens)
    (henv : opens = true → env.linkExitStatus.all (fun result => result.1 ≠ 0) = true) :
    Polite opens (s.pollLink host env) := by
  rcases pollLink_cases host env s with
    h | ⟨task, exitStatus, status, err, s₁, _, hexit, _, _, hs₁, h⟩
  · rw [h]
    exact hs
  · have hloaded : Polite opens s₁ := by
      refine hs.of_extends hs₁ ?_
      intro c e he
      cases e with
      | log => trivial
      | dlopen libPath opened =>
          rw [Event.Silent]
          by_contra hopens
          have hfailed := henv (by simpa using hopens)
          rw [hexit, Option.all_some, decide_eq_true_eq] at hfailed
          exact hfailed he
      | _ => exact he.elim
    rw [h]
    refine Polite.emit (Polite.modify ?_ _) trivial
    exact hloaded.callback trivial (turns_linkFinished _ _ _ _ _ _)

theorem emitLogs (hs : s.Polite opens) (l : List LogEntry) : Polite opens (s.emitLogs l) := by
  have hlogs : Extends (fun _ e => e.Silent opens) (fun _ => True) s (s.emitLogs l) :=
    (Extends.refl trivial).emitLogs (fun _ _ => trivial) l
  exact hs.of_extends hlogs fun _ _ he => he

theorem poll {config : LiveConfig} (env : Environment) (hs : s.Polite opens)
    (henv : opens = true → env.linkExitStatus.all (fun result => result.1 ≠ 0) = true) :
    (s.poll config env).Polite opens := by
  have hticked : (s.tickFileWatcher config).Polite opens := hs.emitLogs _
  have hpolled := (polite_stable opens).beforePollLink config env _ hticked
  exact Polite.modifyWorld (hpolled.pollLink env henv) _

theorem dispatch {config : LiveConfig} {event : LiveEvent} {out : Outside} (hs : s.Polite opens)
    (hkeyed : UnitsKeyed (unitsOf s.world.context.compilationUnits)) :
    ((s.ask out).dispatch config event).Polite opens := by
  have hhandles : Handles config (fun _ _ => True) (s.ask out)
      ((s.ask out).dispatch config event) :=
    dispatch_handles hkeyed (rereads_true config s (.dispatch out event))
  have hasked : (s.ask out).Polite opens := hs
  refine hasked.of_extends hhandles ?_
  intro c e he
  cases e with
  | host event =>
      cases event with
      | log => trivial
      | _ => exact he.elim
  | compile => trivial
  | remove => trivial
  | link => trivial
  | _ => exact he.elim

end Polite

end Live

theorem LiveRun.polite {config : LiveConfig} {P : Live → LiveCall → Prop} {s : Live}
    (hP : opens = true → ∀ s call, P s call → s.LinksFail call) (h : LiveRun config P s) :
    s.Polite opens := by
  induction h with
  | start filepath out memory hs =>
      have hinitial : Live.Polite opens { world := { outside := out, memory } } :=
        ⟨always_nil _, rfl⟩
      refine hinitial.of_extends (Live.create_logs hs) ?_
      rintro c e ⟨entry, rfl⟩
      trivial
  | @call s hrun call hallowed hcall ih =>
      cases call with
      | fileAction directory filename => exact ih
      | tryReload => exact ih.emitLogs _
      | write memory => exact ih
      | tick out env =>
          have hasked : (s.ask out).Polite opens := ih
          exact hasked.poll env fun hopens => hP hopens s _ hcall
      | dispatch out event => exact ih.dispatch hrun.keyed
      | finish => exact ih

/-- In every run the listener sees `onCodePreLoad` and `onCodePostLoad` in turn, and code is
reloaded in between. The library with the new code is opened in between as long as no link
process ends with success. -/
theorem LiveRun.listener_in_turn {config : LiveConfig} {P : Live → LiveCall → Prop} {s : Live}
    (h : LiveRun config P s) :
    Always (InTurn false) s.trace ∧ loading s.trace = false ∧
      ((∀ s call, P s call → s.LinksFail call) → Always (InTurn true) s.trace) := by
  have hpolite : s.Polite false := h.polite (by simp)
  refine ⟨hpolite.1, hpolite.2, ?_⟩
  intro hP
  have hopens : s.Polite true := h.polite fun _ => hP
  exact hopens.1

/-- A compilation fails, and so the reload is refused. -/
def refusedRun : Live :=
  let out := Outside.ofCommands twoUnits
  .after twoUnits (editAndReload ++ [.tick out (.finished "" 0), .finish,
    .tick out (.finished "/p/a.cpp" 1)])

theorem refusedRun_listener_in_turn :
    (refusedRun.trace.any fun x => match x.2 with
      | .host .onCodePostLoad => true
      | _ => false) = true ∧ Always (InTurn true) refusedRun.trace := by
  have hrun : LiveRun {} Live.LinksFail refusedRun :=
    (LiveRun.started _ twoUnits).calls _ (by decide +kernel)
  exact ⟨by decide +kernel, hrun.listener_in_turn.2.2 fun _ _ hcall => hcall⟩

/-- A unit is edited, compiled and linked, and the new code is loaded. -/
def loadedRun : Live :=
  let out := Outside.ofCommands twoUnits
  .after twoUnits (editAndReload ++ [.tick out (.finished "" 0), .finish,
    .tick out (.finished "/p/a.cpp" 0), .tick out .linked])

/-- The library is opened before the listener is told. -/
theorem loadedRun_not_listener_in_turn :
    LiveRun {} (fun _ _ => True) loadedRun ∧ ¬ Always (InTurn true) loadedRun.trace := by
  exact ⟨(LiveRun.started _ twoUnits).calls _ (by decide +kernel), by decide +kernel⟩

end JetLive

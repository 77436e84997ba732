import JetLive.Compiler.Libraries
import JetLive.Compiler.TraceIndependence
import JetLive.Live.Delivery
import JetLive.Live.Reloads

/-!
# The edited code arrives

When a reload is requested and the compiler holds an edited unit, the user waits: the live code goes
on and writes to its memory, `update` is called again and again, and nothing else is edited or
requested. Once enough calls have found all processes at their end, the library that is made of the
edited unit is the newest program of the process, and every call of a function that it has ends in
it, whichever version the caller was linked with.

The calls of `update` are turns of the compiler: a turn may begin with any change of the world that
leaves the units alone, and the file watcher, the answers of the outside and the writes of the live
code are such changes.
-/

namespace JetLive

open Containers Redirect

/-! ## Waiting -/

namespace LiveCall

/-- The user waits: nothing is edited, requested or taken from the queue. -/
def Waits : LiveCall → Prop
  | .write _ | .tick .. | .finish => True
  | .fileAction .. | .tryReload | .dispatch .. => False

def Succeeds : LiveCall → Prop
  | .tick _ env => (∀ p status err, env.exitStatus p = some (status, err) → status = 0) ∧
      (∀ status err, env.linkExitStatus = some (status, err) → status = 0) ∧ env.dlerror = none
  | .fileAction .. | .tryReload | .write _ | .dispatch .. | .finish => True

end LiveCall

namespace Live

open Session

/-- The call of `update` finds all processes at their end. -/
def FindsEnded (s : Live) : LiveCall → Prop
  | .tick _ env => (∀ p ∈ s.compiler.runningCompilationTasks.keys, (env.exitStatus p).isSome) ∧
      env.linkExitStatus.isSome
  | .fileAction .. | .tryReload | .write _ | .dispatch .. | .finish => False

instance (s : Live) : ∀ call, Decidable (s.FindsEnded call)
  | .tick .. => inferInstanceAs (Decidable ((∀ p ∈ _, _) ∧ _))
  | .fileAction .. | .tryReload | .write _ | .dispatch .. | .finish => isFalse id

def endedTicks (config : LiveConfig) : Live → List LiveCall → ℕ
  | _, [] => 0
  | s, call :: calls =>
      (if s.FindsEnded call then 1 else 0) + endedTicks config (s.perform config call) calls

/-! ## Ticks as turns of the compiler -/

def beforeUpdate (config : LiveConfig) (out : Outside) (s : Live) : Live :=
  (s.ask out).tickFileWatcher config

def withUnitsOf (w w' : LiveWorld) : LiveWorld :=
  { w with context := { w.context with compilationUnits := w'.context.compilationUnits } }

/-- The turn in which everything but the units becomes as in the given world. -/
def turnTo (w : LiveWorld) (env : Environment) : Turn host where
  change := withUnitsOf w
  keeps objOf w' h := (h.congr rfl : Knows objOf (withUnitsOf w w').context)
  env := env

def turnsOf (config : LiveConfig) : Live → List LiveCall → List (Turn host)
  | _, [] => []
  | s, .tick out env :: calls =>
      turnTo (s.beforeUpdate config out).world env ::
        turnsOf config (s.perform config (.tick out env)) calls
  | s, call :: calls => turnsOf config (s.perform config call) calls

/-- The compiler is the same, and so are the units it may be given. -/
structure Follows (s s' : Live) : Prop where
  compiler : s.compiler = s'.compiler
  units : s.world.context.compilationUnits = s'.world.context.compilationUnits

/-- The turn `t`, which follows the turns `past`, stands for a tick among the calls. -/
def StandsFor (config : LiveConfig) (s s' : Live) (calls : List LiveCall)
    (past : List (Turn host)) (t : Turn host) : Prop :=
  ∃ before out after, calls = before ++ .tick out t.env :: after ∧
    Alike (((before.foldl (perform config) s).beforeUpdate config out).beforePollLink host config
      t.env) ((past.foldl (Session.turn config) s').decided config t)

theorem StandsFor.cons {config : LiveConfig} {s s' : Live} {call : LiveCall}
    {calls : List LiveCall} {past : List (Turn host)} {t : Turn host}
    (h : StandsFor config (s.perform config call) s' calls past t) :
    StandsFor config s s' (call :: calls) past t := by
  obtain ⟨before, out, after, rfl, halike⟩ := h
  exact ⟨call :: before, out, after, rfl, halike⟩

theorem beforeUpdate_compiler (config : LiveConfig) (out : Outside) (s : Live) :
    (s.beforeUpdate config out).compiler = s.compiler := by
  rw [beforeUpdate, tickFileWatcher, modifyWorld_compiler, act_compiler]
  rfl

theorem beforeUpdate_units (config : LiveConfig) (out : Outside) (s : Live) :
    (s.beforeUpdate config out).world.context.compilationUnits =
      s.world.context.compilationUnits := by
  rw [beforeUpdate, tickFileWatcher, modifyWorld_world, act_world]
  unfold recreateFileWatcher
  dsimp only
  split <;> rfl

namespace Follows

variable {config : LiveConfig} {s s' : Live} {calls : List LiveCall}

/-- The turn begins as the tick does. -/
theorem enter (h : Follows s s') (out : Outside) (env : Environment) :
    Alike (s.beforeUpdate config out)
      { s' with world := (turnTo (s.beforeUpdate config out).world env).change s'.world } := by
  refine ⟨(beforeUpdate_compiler config out s).trans h.compiler, ?_⟩
  have hunits := (beforeUpdate_units config out s).trans h.units
  change _ = withUnitsOf _ s'.world
  rw [withUnitsOf, ← hunits]

/-- The turn deals with the link request as the tick does. -/
theorem decided (h : Follows s s') (out : Outside) (env : Environment) :
    Alike ((s.beforeUpdate config out).beforePollLink host config env)
      (s'.decided config (turnTo (s.beforeUpdate config out).world env)) :=
  (h.enter out env).map fun past s => withPast_beforePollLink past s host config env

theorem tick (h : Follows s s') (out : Outside) (env : Environment) :
    Follows (s.perform config (.tick out env))
      (s'.turn config (turnTo (s.beforeUpdate config out).world env)) := by
  have hupdated : Alike ((s.beforeUpdate config out).update host config env)
      (s'.turn config (turnTo (s.beforeUpdate config out).world env)) :=
    (h.enter out env).map fun past s => withPast_update past s host config env
  exact ⟨hupdated.compiler, congrArg (fun w => w.context.compilationUnits) hupdated.world⟩

theorem write (h : Follows s s') (memory : ProcessMemory) :
    Follows (s.perform config (.write memory)) s' :=
  ⟨h.compiler, h.units⟩

theorem finish (h : Follows s s') : Follows (s.perform config .finish) s' :=
  ⟨h.compiler, h.units⟩

theorem endings_eq (h : Follows s s') (hcalls : ∀ call ∈ calls, call.Waits) :
    s'.endings config (turnsOf config s calls) = s.endedTicks config calls := by
  induction calls generalizing s s' with
  | nil => rfl
  | cons call calls ih =>
      obtain ⟨hcall, hrest⟩ := List.forall_mem_cons.mp hcalls
      cases call with
      | tick out env =>
          rw [turnsOf, endings, endedTicks, ih (h.tick out env) hrest]
          congr 1
          have hends : s'.Ends (turnTo (s.beforeUpdate config out).world env) ↔
              s.FindsEnded (.tick out env) := by
            rw [Session.Ends, FindsEnded, h.compiler]
            rfl
          simp only [hends]
      | write memory => exact (ih (h.write memory) hrest).trans (Nat.zero_add _).symm
      | finish => exact (ih h.finish hrest).trans (Nat.zero_add _).symm
      | fileAction _ _ | tryReload | dispatch _ _ => exact hcall.elim

theorem standsFor (h : Follows s s') (hcalls : ∀ call ∈ calls, call.Waits)
    {past future : List (Turn host)} {t : Turn host}
    (hturns : turnsOf config s calls = past ++ t :: future) :
    StandsFor config s s' calls past t := by
  induction calls generalizing s s' past with
  | nil => simp [turnsOf] at hturns
  | cons call calls ih =>
      obtain ⟨hcall, hrest⟩ := List.forall_mem_cons.mp hcalls
      cases call with
      | tick out env =>
          rw [turnsOf] at hturns
          cases past with
          | nil =>
              obtain ⟨rfl, _⟩ := List.cons.inj hturns
              exact ⟨[], out, calls, rfl, h.decided out env⟩
          | cons t' past =>
              obtain ⟨rfl, htail⟩ := List.cons.inj hturns
              exact (ih (h.tick out env) hrest htail).cons
      | write memory => exact (ih (h.write memory) hrest hturns).cons
      | finish => exact (ih h.finish hrest hturns).cons
      | fileAction _ _ | tryReload | dispatch _ _ => exact hcall.elim

end Follows

theorem turnsOf_succeeds {config : LiveConfig} {calls : List LiveCall} (s : Live)
    (hcalls : ∀ call ∈ calls, call.Succeeds) : ∀ t ∈ turnsOf config s calls, t.Succeeds := by
  induction calls generalizing s with
  | nil => simp [turnsOf]
  | cons call calls ih =>
      obtain ⟨hcall, hrest⟩ := List.forall_mem_cons.mp hcalls
      cases call with
      | tick out env =>
          rw [turnsOf, List.forall_mem_cons]
          exact ⟨⟨hcall.1, hcall.2.1, hcall.2.2⟩, ih _ hrest⟩
      | fileAction _ _ | tryReload | write _ | dispatch _ _ | finish => exact ih _ hrest

/-! ## The tick that loads the library -/

theorem outside_stable (out : Outside) :
    Session.Stable host fun s : Live => s.world.outside = out where
  emit _ _ _ hs := hs
  modify _ _ hs := hs
  unit _ _ _ _ hs := hs
  compileFinished s callback status path err hs := by
    rw [callback_world]
    refine Eq.trans ?_ hs
    cases callback with
    | updateDependencies q readings =>
        change (s.world.updateDependenciesOf (s.world.referent q readings)).1.outside = _
        unfold LiveWorld.updateDependenciesOf
        split <;> rfl
    | nothing => rfl
  linkRefused s callback hs := by
    rw [callback_world]
    refine Eq.trans ?_ hs
    cases callback <;> rfl

theorem outside_beforeUpdate (config : LiveConfig) (out : Outside) (s : Live) :
    (s.beforeUpdate config out).world.outside = out := by
  rw [beforeUpdate, tickFileWatcher, modifyWorld_world, act_world]
  unfold recreateFileWatcher
  dsimp only
  split <;> rfl

/-- The end of the link makes a reload with the objects of the sources. -/
theorem pollReload_of_linking {s : Live} {env : Environment} {n : ℕ} {p err : String}
    (h : Linking (some n) p s.compiler) (hexit : env.linkExitStatus = some (0, err))
    (hopens : env.dlerror = none) :
    ∃ libPath, pollReload env s = some (s.world.pipelineInput (s.world.libProgram libPath
      ((s.compiler.readyList env.readyOrder).map fun cu => cu.sourceFilepath))) := by
  obtain ⟨task, htask, hcallback⟩ := h.task
  refine ⟨task.cuOrLibFilepath, ?_⟩
  rw [pollReload, htask, hexit]
  exact if_pos ⟨rfl, hopens, by simp [hcallback]⟩

structure Rests (s : Live) : Prop where
  request : s.compiler.shouldLink = false
  task : s.compiler.runningLinkTask = none

namespace Rests

variable {config : LiveConfig} {s : Live}

theorem of_linking {env : Environment} {n : ℕ} {p err : String}
    (h : Linking (some n) p s.compiler) (hexit : env.linkExitStatus = some (0, err)) :
    Rests (s.pollLink host env) := by
  refine ⟨(pollLink_shouldLink env s).trans h.request, ?_⟩
  obtain ⟨task, htask, _⟩ := h.task
  rw [pollLink, htask, hexit]
  simp

theorem beforePollLink (h : Rests s) (env : Environment) :
    Rests (s.beforePollLink host config env) := by
  have hsame := (SameLinks.pollCompilations host env s).trans
    (.startPending config.workerThreadsCount
      (s.pollCompilations host env).compiler.pendingCompilationTasks _)
  have hrequest : (s.beforeDecideLink host config env).compiler.shouldLink = false := by
    rw [beforeDecideLink, startPending_shouldLink, pollCompilations_compiler,
      Compiler.pollAll_shouldLink, h.request]
  have hdecided : s.beforePollLink host config env = s.beforeDecideLink host config env :=
    if_neg fun hdecides => Bool.false_ne_true (hrequest.symm.trans hdecides.2)
  rw [hdecided]
  exact ⟨hrequest, hsame.runningLinkTask.trans h.task⟩

/-- Nothing more is reloaded. -/
theorem perform (h : Rests s) {call : LiveCall} (hcall : call.Waits) :
    Rests (s.perform config call) ∧
      (s.perform config call).world.context.programs = s.world.context.programs := by
  cases call with
  | write memory => exact ⟨⟨h.request, h.task⟩, rfl⟩
  | finish => exact ⟨⟨h.request, h.task⟩, rfl⟩
  | tick out env =>
      have hbefore : Rests (s.beforeUpdate config out) :=
        ⟨(beforeUpdate_compiler config out s).symm ▸ h.request,
          (beforeUpdate_compiler config out s).symm ▸ h.task⟩
      have hpolled : Rests ((s.beforeUpdate config out).beforePollLink host config env) :=
        hbefore.beforePollLink env
      have hupdated : (s.beforeUpdate config out).update host config env =
          (s.beforeUpdate config out).beforePollLink host config env :=
        pollLink_of_none env hpolled.task
      have hnone : tickReload config env (s.ask out) = none := by
        change pollReload env ((s.beforeUpdate config out).beforePollLink host config env) = none
        rw [pollReload, hpolled.task]
      have himage := perform_image config s (.tick out env)
      rw [imageAfter, hnone, Option.elim_none] at himage
      refine ⟨⟨?_, ?_⟩, congrArg Image.programs himage⟩
      · exact (congrArg (fun s => s.compiler.shouldLink) hupdated).trans hpolled.request
      · exact (congrArg (fun s => s.compiler.runningLinkTask) hupdated).trans hpolled.task
  | fileAction _ _ | tryReload | dispatch _ _ => exact hcall.elim

theorem foldl_programs (h : Rests s) {calls : List LiveCall}
    (hcalls : ∀ call ∈ calls, call.Waits) :
    (calls.foldl (Live.perform config) s).world.context.programs = s.world.context.programs := by
  induction calls generalizing s with
  | nil => rfl
  | cons call calls ih =>
      obtain ⟨hcall, hrest⟩ := List.forall_mem_cons.mp hcalls
      exact (ih (h.perform hcall).1 hrest).trans (h.perform hcall).2

end Rests

end Live

/-! ## Whole runs -/

/-- One of the calls reloads the unit, and nothing is reloaded after it. -/
theorem LiveRun.exists_reloading_tick {config : LiveConfig} {P : Live → LiveCall → Prop} {s : Live}
    (h : LiveRun config P s) (hworkers : 0 < config.workerThreadsCount) {n : ℕ} {p o : String}
    (hunit : s.world.objOf p = some o) (hwaits : Session.Waits (some n) p s.compiler)
    {calls : List LiveCall} (hcalls : ∀ call ∈ calls, call.Waits)
    (hsucceeds : ∀ call ∈ calls, call.Succeeds)
    (henough : s.compiler.pendingCompilationTasks.length +
      s.world.context.compilationUnits.keys.card *
        (s.world.context.compilationUnits.keys.card + 1) < s.endedTicks config calls) :
    ∃ before out env after r, calls = before ++ .tick out env :: after ∧
      let s₁ := before.foldl (Live.perform config) s
      Live.tickReload config env (s₁.ask out) = some r ∧ o ∈ r.newProgram.objFilePaths ∧
        r.newProgram.symbols = out.programSymbols r.newProgram.path ∧
        Live.Rests (s₁.perform config (.tick out env)) := by
  have hsound := h.sound
  have hfollows : Live.Follows s s := ⟨rfl, rfl⟩
  obtain ⟨past, t, future, hturns, hlinking, err, hexit⟩ :=
    hsound.linkEnds Live.host_keepsUnits trivial hworkers (Live.turnsOf_succeeds s hsucceeds)
      hwaits (henough.trans_eq (hfollows.endings_eq hcalls).symm)
  -- the tick that the turn stands for
  obtain ⟨before, out, after, rfl, halike⟩ := hfollows.standsFor hcalls hturns
  have hopens : LiveCall.Succeeds (.tick out t.env) := hsucceeds _ (by simp)
  have hdecided := (hsound.foldl_turn Live.host_keepsUnits past).decided Live.host_keepsUnits t
  generalize hs₁ : before.foldl (Live.perform config) s = s₁ at halike
  generalize hpolled : (s₁.beforeUpdate config out).beforePollLink Live.host config t.env = polled
    at halike
  have hlinking' : Session.Linking (some n) p polled.compiler := halike.compiler ▸ hlinking
  have hknows : Knows s.world.objOf polled.world.context := halike.world ▸ hdecided.knows
  have hsource := hlinking'.mem_sources (halike.compiler ▸ hdecided.coherent.ready_key)
    t.env.readyOrder
  have houtside : polled.world.outside = out := by
    rw [← hpolled]
    exact (Live.outside_stable out).beforePollLink config t.env _
      (Live.outside_beforeUpdate config out s₁)
  obtain ⟨libPath, hreload⟩ := Live.pollReload_of_linking hlinking' hexit hopens.2.2
  have htick : Live.tickReload config t.env (s₁.ask out) = some _ :=
    (congrArg (Live.pollReload t.env) hpolled).trans hreload
  have hrests : Live.Rests (polled.pollLink Live.host t.env) := .of_linking hlinking' hexit
  subst hs₁ hpolled
  refine ⟨before, out, t.env, after, _, rfl, htick, ?_, ?_, hrests.request, hrests.task⟩
  · exact LiveWorld.mem_objFilePaths libPath hsource ((hknows.objFilePath p).trans hunit)
  · exact congrArg (fun out => out.programSymbols libPath) houtside

/-- The runs of the library, with the programs that the initialization has found and the hooks that
have failed. -/
inductive HookedRun (config : LiveConfig) : List Program → Live → List Hook → Prop
  | start {s : Live} (filepath : String) (out : Outside) (memory : ProcessMemory)
      (hs : Live.create config filepath out memory = some s) :
      HookedRun config s.world.context.programs s []
  | call {programs : List Program} {s : Live} {lost : List Hook}
      (h : HookedRun config programs s lost) (call : LiveCall) (hallowed : s.Allows call) :
      HookedRun config programs (s.perform config call) (s.lostIn config call ++ lost)

namespace HookedRun

variable {config : LiveConfig} {programs : List Program} {s : Live} {lost : List Hook}

theorem liveRun (h : HookedRun config programs s lost) : LiveRun config (fun _ _ => True) s := by
  induction h with
  | start filepath out memory hs => exact .start filepath out memory hs
  | call _ call hallowed ih => exact ih.call call hallowed trivial

theorem reloadedFrom (h : HookedRun config programs s lost) :
    Image.ReloadedFrom programs s.world.image lost := by
  induction h with
  | @start s filepath out memory hs =>
      rw [Live.create_image hs]
      exact .start s.world.memory
  | call _ call _ ih => exact Live.perform_reloadedFrom ih call

/-- **The edited code is called**: in a run whose hooks are all made, a reload is requested and the
compiler holds a unit. The user waits, and all processes end well. After enough calls of `update`
the newest program is a library with the object of the unit, and every call of a function of this
library ends in it, from whatever version of the function it is made; only functions that the
initialization has found in more than one program are excepted. -/
theorem edited_code_is_called (h : HookedRun config programs s [])
    (hworkers : 0 < config.workerThreadsCount) {n : ℕ} {p o : String}
    (hunit : s.world.objOf p = some o) (hwaits : Session.Waits (some n) p s.compiler)
    {calls : List LiveCall} (hcalls : ∀ call ∈ calls, call.Waits)
    (hsucceeds : ∀ call ∈ calls, call.Succeeds)
    (henough : s.compiler.pendingCompilationTasks.length +
      s.world.context.compilationUnits.keys.card *
        (s.world.context.compilationUnits.keys.card + 1) < s.endedTicks config calls)
    (hlost : s.lost config calls = []) {s' : Live}
    (hs' : calls.foldl (Live.perform config) s = s') (hp : Hookable s'.world.context.programs) :
    ∃ earlier prog, s'.world.context.programs = earlier ++ [prog] ∧ o ∈ prog.objFilePaths ∧
      (∃ out env, LiveCall.tick out env ∈ calls ∧
        prog.symbols.functions = (out.programSymbols prog.path).functions) ∧
      ∀ f ∈ prog.symbols.functions, Image.SingleVersion programs f.key →
        ∀ v ∈ functionsOf s'.world.context.programs, v.key = f.key →
          Ends s'.world.hooks v.runtimeAddress f.runtimeAddress := by
  have hreloaded : Image.ReloadedFrom programs s'.world.image [] := by
    have hafter : Image.ReloadedFrom programs (calls.foldl (Live.perform config) s).world.image _ :=
      Live.foldl_reloadedFrom h.reloadedFrom calls
    rwa [hlost, hs'] at hafter
  obtain ⟨before, out, env, after, r, rfl, hreload, ho, hsymbols, hrests⟩ :=
    h.liveRun.exists_reloading_tick hworkers hunit hwaits hcalls hsucceeds henough
  rw [List.foldl_append, List.foldl_cons] at hs'
  generalize before.foldl (Live.perform config) s = s₁ at hreload hrests hs'
  have hprograms : s'.world.context.programs =
      s₁.world.context.programs ++ [s₁.world.image.loaded r] := by
    have himage := Live.perform_image config s₁ (.tick out env)
    rw [Live.imageAfter, hreload, Option.elim_some] at himage
    rw [← hs', hrests.foldl_programs fun call hcall => hcalls call (by simp [hcall])]
    exact congrArg Image.programs himage
  have hfunctions : r.newProgram.symbols.functions =
      (out.programSymbols r.newProgram.path).functions := congrArg Symbols.functions hsymbols
  refine ⟨_, _, hprograms, ho, ⟨out, env, by simp, hfunctions⟩, ?_⟩
  intro f hf hk v hv hkey
  have hnewest : newestVersion s'.world.context.programs f.key = some f := by
    rw [hprograms] at hp ⊢
    exact Hookable.newestVersion_new hp hf
  obtain ⟨prog, hprog, hv⟩ := mem_functionsOf.mp hv
  obtain ⟨earlier, later, hsplit⟩ := List.append_of_mem hprog
  exact (hreloaded.reaches_newest_iff hp hk hsplit hv hkey hnewest).1.mpr (by simp)

/-- After calls of the default configuration. -/
theorem calls {programs : List Program} {s : Live} {lost : List Hook}
    (h : HookedRun {} programs s lost) (calls : List LiveCall)
    (hcalls : s.AllowsAll (fun _ _ => True) calls) :
    HookedRun {} programs (calls.foldl (Live.perform {}) s) (s.lost {} calls ++ lost) := by
  induction calls generalizing s lost with
  | nil => exact h
  | cons call calls ih =>
      obtain ⟨⟨hallowed, _⟩, hrest⟩ := hcalls
      rw [Live.lost, List.append_assoc]
      exact ih (h.call call hallowed) hrest

end HookedRun

/-- The program and the library that is loaded later have a version of one function each. -/
def calledOutside : Outside :=
  { Outside.ofCommands twoUnits with
    loadedProgramsPaths := ["/p/app"]
    programSymbols := fun path =>
      { functions := [globalFunction "f" (if path = "/p/app" then 0x1000 else 0x2000)] } }

def calledStart : Live :=
  (Live.create {} "/p/compile_commands.json" calledOutside fun _ => 0).getD (.started twoUnits)

/-- A unit is edited and a reload is requested. -/
def calledRun : Live := editAndReload.foldl (Live.perform {}) calledStart

/-- All processes have ended when `update` is called. -/
def waitingCalls : List LiveCall :=
  (List.replicate 8 [LiveCall.tick calledOutside endedTurn.env, .finish]).flatten

/-- The function of the program leads to the new version. -/
theorem calledRun_edited_code_is_called :
    Ends (waitingCalls.foldl (Live.perform {}) calledRun).world.hooks 0x1000 0x2000 := by
  have hcreate : ∃ s, Live.create {} "/p/compile_commands.json" calledOutside
      (fun _ => 0) = some s := ⟨_, rfl⟩
  have hstart : HookedRun {} calledStart.world.context.programs calledStart [] := by
    obtain ⟨s, hs⟩ := hcreate
    rw [calledStart, hs, Option.getD_some]
    exact .start _ _ _ hs
  have hnone : calledStart.lost {} editAndReload = [] := by decide +kernel
  have hrun : HookedRun {} calledStart.world.context.programs calledRun [] := by
    have hcalls := hstart.calls editAndReload (by decide +kernel)
    rwa [hnone] at hcalls
  have hwaits : ∀ call ∈ waitingCalls, call.Waits ∧ call.Succeeds := by
    intro call hcall
    obtain ⟨update, hupdate, hcall⟩ := List.mem_flatten.mp hcall
    rw [List.eq_of_mem_replicate hupdate, List.mem_pair] at hcall
    rcases hcall with rfl | rfl
    · refine ⟨trivial, fun p status err h => ?_, fun status err h => ?_, rfl⟩
      · exact (Prod.ext_iff.mp (Option.some.inj h)).1.symm
      · exact (Prod.ext_iff.mp (Option.some.inj h)).1.symm
    · exact ⟨trivial, trivial⟩
  have hpending : calledRun.compiler.pendingPaths = ["/p/a.cpp"] := by decide +kernel
  obtain ⟨earlier, prog, hprograms, _, _, hends⟩ := hrun.edited_code_is_called (by decide)
    (o := "/p/a.o") (p := "/p/a.cpp") (n := 0) (by decide +kernel)
    ⟨by decide +kernel, by decide +kernel, .inl (hpending ▸ List.mem_singleton_self _),
      by decide +kernel⟩ (fun call hcall => (hwaits call hcall).1)
    (fun call hcall => (hwaits call hcall).2) (by decide +kernel) (by decide +kernel) rfl
    (by constructor <;> decide +kernel)
  have hlast : ((waitingCalls.foldl (Live.perform {}) calledRun).world.context.programs.map
      fun prog => prog.symbols.functions).getLast? = some [globalFunction "f" 0x2000] := by
    decide +kernel
  have hfunctions : prog.symbols.functions = [globalFunction "f" 0x2000] := by
    rw [hprograms] at hlast
    simpa using hlast
  have hmem : globalFunction "f" 0x2000 ∈ prog.symbols.functions := by
    rw [hfunctions]
    exact List.mem_singleton_self _
  exact hends _ hmem (by decide +kernel) (globalFunction "f" 0x1000) (by decide +kernel) rfl

end JetLive

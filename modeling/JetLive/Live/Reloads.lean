import JetLive.Live.FileEvents
import JetLive.Reload.FailedHooks

/-!
# The reloads of a run

What a reload reads and changes of the process is the `Image` of the library: its programs, the
memory and the hooks. In a run of the library the image changes at two occasions only, when the
live code writes to its memory and when a tick finds the end of a link that can be loaded;
`imageAfter` tells what becomes of it in each call. So the images of a run are those of a sequence
of reloads, and what holds of all sequences of reloads holds in every state of a run: it is known
which version of a function a call ends at, and the static state survives.
-/

namespace JetLive

open Containers Redirect

namespace LiveWorld

theorem image_updateDependenciesOf (p : String) (w : LiveWorld) :
    (w.updateDependenciesOf p).1.image = w.image := by
  unfold updateDependenciesOf
  split <;> rfl

theorem image_updateCompilationUnits {config : LiveConfig} {filepath : String} {w w' : LiveWorld}
    {changes : UnitChanges}
    (h : (updateCompilationUnits config filepath w).1 = some (w', changes)) :
    w'.image = w.image := by
  rcases updateCompilationUnits_cases h with ⟨_, rfl, _⟩ | ⟨_, _, rfl, _⟩ <;> rfl

theorem image_recreateFileWatcher (config : LiveConfig) (w : LiveWorld) :
    (Live.recreateFileWatcher config w).1.image = w.image := by
  unfold Live.recreateFileWatcher
  dsimp only
  split <;> rfl

end LiveWorld

namespace Live

open Session

variable {config : LiveConfig} {s : Live}

/-! ## One call -/

/-- What the end of the running link passes to the pipeline, if its library can be loaded and it was
started for a reload. -/
def pollReload (env : Environment) (s : Live) : Option PipelineInput :=
  match s.compiler.runningLinkTask, env.linkExitStatus with
  | some task, some (exitStatus, _) =>
      if exitStatus = 0 ∧ env.dlerror = none ∧ task.linkFinishCallback ≠ none then
        some (s.world.pipelineInput (s.world.libProgram task.cuOrLibFilepath
          ((s.compiler.readyList env.readyOrder).map fun cu => cu.sourceFilepath)))
      else none
  | _, _ => none

def tickReload (config : LiveConfig) (env : Environment) (s : Live) : Option PipelineInput :=
  pollReload env ((s.tickFileWatcher config).beforePollLink host config env)

def imageAfter (config : LiveConfig) (s : Live) : LiveCall → Image
  | .write memory => { s.world.image with memory }
  | .tick out env => (tickReload config env (s.ask out)).elim s.world.image s.world.image.reload
  | .fileAction .. | .tryReload | .dispatch .. | .finish => s.world.image

theorem image_linkFinished (callback : LinkFinishCallback) (status : ℤ) (libPath : String)
    (sourceFilePaths : List String) (err : String) (w : LiveWorld) :
    (host.linkFinished callback status libPath sourceFilePaths err w).1.image =
      if status = 0 ∧ callback ≠ none then
        w.image.reload (w.pipelineInput (w.libProgram libPath sourceFilePaths))
      else w.image := by
  cases callback with
  | none => simp [host]
  | some n =>
      by_cases hstatus : status = 0
      · simp only [hstatus, ne_eq, reduceCtorEq, not_false_eq_true, and_self, if_true]
        rfl
      · simp [host, LiveWorld.loadCode, hstatus]

theorem image_stable (p : Image) : Session.Stable host fun s : Live => s.world.image = p where
  emit _ _ _ hs := hs
  modify _ _ hs := hs
  unit _ _ _ _ hs := hs
  compileFinished s callback status path err hs := by
    rw [callback_world]
    refine Eq.trans ?_ hs
    cases callback with
    | updateDependencies q readings => exact s.world.image_updateDependenciesOf _
    | nothing => rfl
  linkRefused s callback hs := by
    rw [callback_world, image_linkFinished]
    exact hs

theorem loadLibrary_status (env : Environment) (libPath : String) (status : ℤ) (s : Live) :
    (s.loadLibrary env libPath status).2 = 0 ↔ status = 0 ∧ env.dlerror = none := by
  unfold loadLibrary
  split
  · rename_i hstatus
    cases env.dlerror <;> simp [hstatus]
  · rename_i hstatus
    simp [hstatus]

theorem pollLink_image (env : Environment) (s : Live) :
    (s.pollLink host env).world.image =
      (pollReload env s).elim s.world.image s.world.image.reload := by
  unfold pollLink pollReload
  cases htask : s.compiler.runningLinkTask with
  | none => rfl
  | some task =>
      cases hexit : env.linkExitStatus with
      | none => rfl
      | some answer =>
          obtain ⟨exitStatus, err⟩ := answer
          dsimp only
          set logged : Live := if exitStatus ≠ 0 then
              s.addLog .kWarning ("Link failed: " ++ task.cuOrLibFilepath ++ "\n" ++ err)
            else s.addLog .kInfo "Linked successfully" with hlogged
          have hsame : logged.compiler = s.compiler ∧ logged.world = s.world := by
            rw [hlogged]
            split <;> exact ⟨rfl, rfl⟩
          have hworld :
              (logged.loadLibrary env task.cuOrLibFilepath exitStatus).1.world = s.world :=
            (loadLibrary_extends env _ _ logged).2.trans hsame.2
          rw [emit_world, modify_world, callback_world, image_linkFinished, hworld,
            loadLibrary_compiler, hsame.1]
          simp only [loadLibrary_status, and_assoc]
          split <;> rfl

theorem tickFileWatcher_image (config : LiveConfig) (s : Live) :
    (s.tickFileWatcher config).world.image = s.world.image := by
  refine Eq.trans ?_ (s.world.image_recreateFileWatcher config)
  unfold tickFileWatcher
  rw [modifyWorld_world, act_world]
  rfl

theorem poll_image (config : LiveConfig) (env : Environment) (s : Live) :
    (s.poll config env).world.image =
      (tickReload config env s).elim s.world.image s.world.image.reload := by
  have hbefore : ((s.tickFileWatcher config).beforePollLink host config env).world.image =
      s.world.image :=
    (image_stable s.world.image).beforePollLink config env _ (tickFileWatcher_image config s)
  have hpoll := pollLink_image env ((s.tickFileWatcher config).beforePollLink host config env)
  rw [hbefore] at hpoll
  exact hpoll

theorem foldl_removeUnit_image (l : List String) (s : Live) :
    (l.foldl removeUnit s).world.image = s.world.image := by
  induction l generalizing s with
  | nil => rfl
  | cons p l ih => exact ih (s.removeUnit p)

theorem onOtherFileChanged_image (config : LiveConfig) (filepath : String) (s : Live) :
    (s.onOtherFileChanged config filepath).1.world.image = s.world.image := by
  rcases onOtherFileChanged_cases config filepath s with
    ⟨logs, h⟩ | ⟨w, changes, logs, hread, hcases⟩
  · rw [h, emitLogs_world]
  · have hread := LiveWorld.image_updateCompilationUnits hread
    rcases hcases with ⟨_, h⟩ | ⟨_, h⟩
    · have hremoved := foldl_removeUnit_image changes.removed
        ((changes.added ++ changes.modified).foldl (compileUnit "Cannot find cu for ")
          (s.afterReading w logs))
      rw [foldl_compileUnit_world] at hremoved
      rw [h]
      exact hremoved.trans hread
    · rw [h]
      exact hread

theorem dispatch_image (config : LiveConfig) (event : LiveEvent) (s : Live) :
    (s.dispatch config event).world.image = s.world.image := by
  cases event with
  | fileChanged filepath =>
      have hchanged : (s.onFileChanged config filepath).1.world.image = s.world.image := by
        unfold onFileChanged
        split
        · rw [foldl_compileUnit_world]
        · exact onOtherFileChanged_image config filepath s
      rcases dispatch_fileChanged_cases config filepath s with ⟨_, h⟩ | ⟨_, h⟩
      · rw [h]
        exact hchanged
      · rw [h]
        exact hchanged
  | tryReload => rfl

theorem perform_image (config : LiveConfig) (s : Live) (call : LiveCall) :
    (s.perform config call).world.image = s.imageAfter config call := by
  cases call with
  | fileAction directory filename =>
      unfold perform fileAction
      rw [modifyWorld_world]
      split <;> rfl
  | tryReload =>
      unfold perform tryReload
      rw [modifyWorld_world, emitLogs_world]
      rfl
  | write memory => rfl
  | tick out env => exact poll_image config env (s.ask out)
  | dispatch out event => exact dispatch_image config event (s.ask out)
  | finish => rfl

/-- Nothing is hooked by the initialization. -/
theorem create_hooks {filepath : String} {out : Outside} {memory : ProcessMemory}
    (h : create config filepath out memory = some s) : s.world.hooks = [] := by
  have hact : ∀ (f : LiveWorld → LiveWorld × List LogEntry),
      (∀ w, (f w).1.hooks = w.hooks) → ∀ s : Live, s.world.hooks = [] →
        (s.act f).world.hooks = [] := by
    intro f hf s hs
    rw [act_world]
    exact (hf s.world).trans hs
  have hrule : InitRule config fun s => s.world.hooks = [] :=
    { emitLogs := fun s l hs => by rwa [emitLogs_world]
      generateDatabase := hact _ fun w => by
        unfold LiveWorld.generateDatabase
        split <;> rfl
      enterUnits := fun s filepath units _ => hact _ (fun _ => rfl) s
      updateDirectoryFilters := hact _ fun _ => rfl
      updateDependenciesOf := fun s p => hact _ (fun w => congrArg Image.hooks
        (w.image_updateDependenciesOf p)) s
      setupFileWatcher := hact _ fun _ => rfl
      loadProgram := fun s path => hact _ (fun w => by
        unfold LiveWorld.loadProgram
        dsimp only
        split <;> rfl) s
      loadExportedSymbols := hact _ fun _ => rfl }
  exact hrule.create rfl h

end Live

theorem Live.create_image {config : LiveConfig} {filepath : String} {out : Outside}
    {memory : ProcessMemory} {s : Live} (h : Live.create config filepath out memory = some s) :
    s.world.image = { programs := s.world.context.programs, memory := s.world.memory } := by
  rw [LiveWorld.image, Live.create_hooks h]

/-! ## Hooks -/

def Live.lostIn (config : LiveConfig) (s : Live) : LiveCall → List Hook
  | .tick out env => (Live.tickReload config env (s.ask out)).elim [] fun r =>
      lostHooks (s.world.image.hookCalls r)
  | .fileAction .. | .tryReload | .write _ | .dispatch .. | .finish => []

def Live.lost (config : LiveConfig) : Live → List LiveCall → List Hook
  | _, [] => []
  | s, call :: calls => lost config (s.perform config call) calls ++ s.lostIn config call

theorem Live.perform_reloadedFrom {config : LiveConfig} {s : Live} {programs : List Program}
    {lost : List Hook} (h : Image.ReloadedFrom programs s.world.image lost) (call : LiveCall) :
    Image.ReloadedFrom programs (s.perform config call).world.image
      (s.lostIn config call ++ lost) := by
  rw [Live.perform_image]
  cases call with
  | write memory => exact h.write memory
  | tick out env =>
      rw [Live.imageAfter, Live.lostIn]
      cases Live.tickReload config env (s.ask out) with
      | none => exact h
      | some r => exact h.reload r
  | fileAction directory filename => exact h
  | tryReload => exact h
  | dispatch out event => exact h
  | finish => exact h

theorem Live.foldl_reloadedFrom {config : LiveConfig} {s : Live} {programs : List Program}
    {lost : List Hook} (h : Image.ReloadedFrom programs s.world.image lost)
    (calls : List LiveCall) :
    Image.ReloadedFrom programs (calls.foldl (Live.perform config) s).world.image
      (s.lost config calls ++ lost) := by
  induction calls generalizing s lost with
  | nil => exact h
  | cons call calls ih =>
      rw [Live.lost, List.append_assoc]
      exact ih (Live.perform_reloadedFrom h call)

/-- **Where calls end**: whatever is edited, reloaded and hooked after the initialization, a call of
a version of a function that the initialization has found at most once ends at the newest version if
and only if the hook of no version since then has failed. -/
theorem Live.calls_reach_newest_iff {config : LiveConfig} {filepath : String} {out : Outside}
    {memory : ProcessMemory} {s₀ : Live} (hs₀ : Live.create config filepath out memory = some s₀)
    (calls : List LiveCall) {s : Live} (hs : calls.foldl (Live.perform config) s₀ = s)
    (hp : Hookable s.world.context.programs) {k : Key}
    (hk : Image.SingleVersion s₀.world.context.programs k) {earlier later : List Program}
    {prog : Program} (hprograms : s.world.context.programs = earlier ++ prog :: later)
    {f g : Symbol} (hf : f ∈ prog.symbols.functions) (hkey : f.key = k)
    (hg : newestVersion s.world.context.programs k = some g) :
    Ends s.world.hooks f.runtimeAddress g.runtimeAddress ↔
      ∀ v ∈ functionsOf (prog :: later), v.key = k →
        v.runtimeAddress ∉ (s₀.lost config calls).map Prod.fst := by
  have hstart : Image.ReloadedFrom s₀.world.context.programs s₀.world.image [] := by
    rw [Live.create_image hs₀]
    exact .start s₀.world.memory
  have hreloaded : Image.ReloadedFrom _ (calls.foldl (Live.perform config) s₀).world.image _ :=
    Live.foldl_reloadedFrom hstart calls
  rw [List.append_nil, hs] at hreloaded
  exact (hreloaded.reaches_newest_iff hp hk hprograms hf hkey hg).1

/-- A unit is edited, compiled, linked and loaded; the library has the given symbols, and the hooks
get the given results. -/
def reloadWith (symbols : Symbols) (hookStatus : ℕ → ℤ) : List LiveCall :=
  let out := { Outside.ofCommands twoUnits with programSymbols := fun _ => symbols, hookStatus }
  editAndReload ++ [.tick out (.finished "" 0), .finish, .tick out (.finished "/p/a.cpp" 0),
    .tick out .linked, .finish]

/-- Three reloads of a function, of which the second one cannot be hooked. -/
def unhookedCalls : List LiveCall :=
  reloadWith { functions := [globalFunction "f" 0x1000] } (fun _ => 0) ++
    reloadWith { functions := [globalFunction "f" 0x2000] } (fun _ => -1) ++
    reloadWith { functions := [globalFunction "f" 0x3000] } fun _ => 0

def reloadedFunction (path : String) (address : Address) : Program :=
  { path, objFilePaths := ["/p/a.o"], symbols := { functions := [globalFunction "f" address] } }

/-- The third reload hooks a version that nobody calls. -/
theorem unhookedCalls_not_reach_newest :
    LiveRun {} (fun _ _ => True) (.after twoUnits unhookedCalls) ∧
      ¬ Ends (Live.after twoUnits unhookedCalls).world.hooks 0x1000 0x3000 := by
  have hrun : LiveRun {} (fun _ _ => True) (.after twoUnits unhookedCalls) :=
    (LiveRun.started _ twoUnits).calls _ (by decide +kernel)
  have hp : Hookable (Live.after twoUnits unhookedCalls).world.context.programs := by
    constructor <;> decide +kernel
  have hprograms : (Live.after twoUnits unhookedCalls).world.context.programs =
      [] ++ reloadedFunction "/lib_reload1.so" 0x1000 ::
        [reloadedFunction "/lib_reload2.so" 0x2000, reloadedFunction "/lib_reload3.so" 0x3000] := by
    decide +kernel
  refine ⟨hrun, fun hends => ?_⟩
  have hiff := Live.calls_reach_newest_iff (Live.create_started twoUnits) unhookedCalls rfl hp
    (k := ("f", 0)) (by decide +kernel) hprograms (f := globalFunction "f" 0x1000)
    (g := globalFunction "f" 0x3000) (by decide +kernel) rfl (by decide +kernel)
  exact hiff.mp hends (globalFunction "f" 0x1000) (by decide +kernel) rfl (by decide +kernel)

/-! ## Static state -/

/-- Whether a reload is sound depends on the loaded programs only. -/
theorem StaticState.Sound.congr {s s' : StaticState} {r : ReloadInput} (h : s.Sound r)
    (hprograms : s.programs = s'.programs) : s'.Sound r := by
  obtain ⟨programs, memory, versions⟩ := s
  obtain ⟨programs', memory', versions'⟩ := s'
  obtain rfl : programs = programs' := hprograms
  obtain ⟨hlayout, hunambiguous⟩ := h
  exact ⟨⟨hlayout.listed_ne_null, hlayout.new_apart_listed, hlayout.new_apart_new,
      hlayout.code_apart_listed⟩,
    ⟨hunambiguous.own, hunambiguous.loaded, hunambiguous.named⟩⟩

namespace Live

/-- If the call makes a reload, it is one as the loader promises it, with unambiguous variables. -/
def ReloadsSoundly (config : LiveConfig) (s : Live) : LiveCall → Prop
  | .tick out env => ∀ r ∈ tickReload config env (s.ask out),
      (StaticState.initial s.world.context.programs s.world.memory).Sound r.toReloadInput
  | .fileAction .. | .tryReload | .write _ | .dispatch .. | .finish => True

def staticsIn (config : LiveConfig) (s : Live) (st : StaticState) : LiveCall → StaticState
  | .write memory => { st with memory }
  | .tick out env =>
      (tickReload config env (s.ask out)).elim st fun r => st.reload r.toReloadInput
  | .fileAction .. | .tryReload | .dispatch .. | .finish => st

end Live

/-- The runs of the library whose reloads are sound, with the storage that all code uses. -/
inductive StaticRun (config : LiveConfig) : Live → StaticState → Prop
  | start {s : Live} (filepath : String) (out : Outside) (memory : ProcessMemory)
      (hs : Live.create config filepath out memory = some s) :
      StaticRun config s (.initial s.world.context.programs s.world.memory)
  | call {s : Live} {st : StaticState} (h : StaticRun config s st) (call : LiveCall)
      (hallowed : s.Allows call) (hsound : s.ReloadsSoundly config call) :
      StaticRun config (s.perform config call) (s.staticsIn config st call)

theorem LiveRun.exists_staticRun {config : LiveConfig} {s : Live}
    (h : LiveRun config (Live.ReloadsSoundly config) s) : ∃ st, StaticRun config s st := by
  induction h with
  | start filepath out memory hs => exact ⟨_, .start filepath out memory hs⟩
  | call _ call hallowed hsound ih =>
      obtain ⟨st, hst⟩ := ih
      exact ⟨_, hst.call call hallowed hsound⟩

/-- The storage is the one that the reload layer knows of the same programs and memory. -/
theorem StaticRun.agree {config : LiveConfig} {s : Live} {st : StaticState}
    (h : StaticRun config s st) : s.world.context.programs = st.programs ∧
      s.world.memory = st.memory ∧ Reloads StaticState.Sound st := by
  induction h with
  | start _ _ _ _ => exact ⟨rfl, rfl, .start _ _⟩
  | @call s st _ call _ hsound ih =>
      obtain ⟨hprograms, hmemory, hst⟩ := ih
      have himage := Live.perform_image config s call
      have hprograms' : (s.perform config call).world.context.programs =
          (s.imageAfter config call).programs := congrArg Image.programs himage
      have hmemory' : (s.perform config call).world.memory =
          (s.imageAfter config call).memory := congrArg Image.memory himage
      rw [hprograms', hmemory']
      cases call with
      | write memory => exact ⟨hprograms, rfl, hst.write memory⟩
      | tick out env =>
          rw [Live.imageAfter, Live.staticsIn]
          cases htick : Live.tickReload config env (s.ask out) with
          | none => exact ⟨hprograms, hmemory, hst⟩
          | some r =>
              obtain ⟨hprograms'', hmemory''⟩ :=
                s.world.image.reload_eq_staticState r hprograms hmemory
              exact ⟨hprograms'', hmemory'', hst.reload _ ((hsound r htick).congr hprograms)⟩
      | fileAction directory filename => exact ⟨hprograms, hmemory, hst⟩
      | tryReload => exact ⟨hprograms, hmemory, hst⟩
      | dispatch out event => exact ⟨hprograms, hmemory, hst⟩
      | finish => exact ⟨hprograms, hmemory, hst⟩

/-- **The static state survives in a run of the library**: when a tick makes a reload, then every
variable of the new code that earlier code has too has right after it, where the new code looks for
it, the content that it had in the storage of the newest of this code. -/
theorem StaticRun.static_state_survives {config : LiveConfig} {s : Live} {st : StaticState}
    (h : StaticRun config s st) {out : Outside} {env : Environment}
    (hsound : s.ReloadsSoundly config (.tick out env)) {r : PipelineInput}
    (htick : Live.tickReload config env (s.ask out) = some r) :
    ∀ v ∈ r.newProgram.symbols.vars, ∀ old, st.lastUse v.key = some old →
      ∃ new, (s.staticsIn config st (.tick out env)).lastUse v.key = some new ∧
        ∀ o : Address, o.toNat < min v.size old.size →
          (s.perform config (.tick out env)).world.memory (new.runtimeAddress + o) =
            s.world.memory (old.runtimeAddress + o) := by
  intro v hv old hold
  obtain ⟨hprograms, hmemory, hst⟩ := h.agree
  have hr : st.Sound r.toReloadInput := (hsound r htick).congr hprograms
  obtain ⟨new, hnew, hvalues⟩ := hst.tracked.keeps_values hr.1 hr.2 v hv old hold
  have hreload : s.staticsIn config st (.tick out env) = st.reload r.toReloadInput := by
    rw [Live.staticsIn, htick, Option.elim_some]
  have hafter : (s.perform config (.tick out env)).world.memory =
      (st.reload r.toReloadInput).memory := by
    have himage := Live.perform_image config s (.tick out env)
    rw [Live.imageAfter, htick, Option.elim_some] at himage
    exact (congrArg Image.memory himage).trans
      (s.world.image.reload_eq_staticState r hprograms hmemory).2
  refine ⟨new, hreload ▸ hnew, fun o ho => ?_⟩
  rw [hafter, hmemory]
  exact hvalues o ho

def Live.leavesImage (s : Live) : LiveCall → Bool
  | .tick out env => (Live.tickReload {} env (s.ask out)).isNone
  | .write _ => false
  | .fileAction .. | .tryReload | .dispatch .. | .finish => true

theorem StaticRun.calls {s : Live} {st : StaticState} (h : StaticRun {} s st)
    (calls : List LiveCall) (hcalls : s.AllowsAll (fun s call => s.leavesImage call) calls) :
    StaticRun {} (calls.foldl (Live.perform {}) s) st := by
  induction calls generalizing s with
  | nil => exact h
  | cons call calls ih =>
      obtain ⟨⟨hallowed, hleaves⟩, hcalls⟩ := hcalls
      refine ih ?_ hcalls
      cases call with
      | write memory => cases hleaves
      | tick out env =>
          have hnone : Live.tickReload {} env (s.ask out) = none :=
            Option.isNone_iff_eq_none.mp hleaves
          have hsound : s.ReloadsSoundly {} (.tick out env) := by
            intro r hr
            rw [hnone] at hr
            cases hr
          have hcall := h.call (.tick out env) hallowed hsound
          rwa [Live.staticsIn, hnone] at hcall
      | fileAction directory filename =>
          exact h.call (.fileAction directory filename) hallowed trivial
      | tryReload => exact h.call .tryReload hallowed trivial
      | dispatch out event => exact h.call (.dispatch out event) hallowed trivial
      | finish => exact h.call .finish hallowed trivial

/-- The program and the library that is loaded later have one variable each. -/
def countingOutside : Outside :=
  { Outside.ofCommands twoUnits with
    loadedProgramsPaths := ["/p/app"]
    programSymbols := fun path =>
      { vars := [counter (if path = "/p/app" then 0x1000 else 0x2000)] } }

/-- The variable of the program has the value `7`. -/
def countingStart : Live :=
  (Live.create {} "/p/compile_commands.json" countingOutside
    fun a => if a = 0x1000 then 7 else 0).getD (.started twoUnits)

/-- A unit is edited, compiled and linked. -/
def countingCalls : List LiveCall :=
  editAndReload ++ [.tick countingOutside (.finished "" 0), .finish,
    .tick countingOutside (.finished "/p/a.cpp" 0)]

def countingLinked : Live := countingCalls.foldl (Live.perform {}) countingStart

theorem countingStart_created : Live.create {} "/p/compile_commands.json" countingOutside
    (fun a => if a = 0x1000 then 7 else 0) = some countingStart := by
  have hcreate : ∃ s, Live.create {} "/p/compile_commands.json" countingOutside
      (fun a => if a = 0x1000 then 7 else 0) = some s := ⟨_, rfl⟩
  obtain ⟨s, hs⟩ := hcreate
  rw [countingStart, hs, Option.getD_some]

theorem countingLinked_run : StaticRun {} countingLinked
    (.initial countingStart.world.context.programs countingStart.world.memory) :=
  (StaticRun.start _ _ _ countingStart_created).calls countingCalls (by decide +kernel)

/-- One variable is loaded and has a new version behind it. -/
theorem StaticState.sound_of_counters {s : StaticState} {r : ReloadInput}
    (hlisted : listed s.programs = [counter 0x1000])
    (hvars : r.newProgram.symbols.vars = [counter 0x2000]) (hrelocs : r.relocs = []) :
    s.Sound r := by
  refine ⟨⟨?_, ?_, ?_, ?_⟩, ?_, ?_, ?_⟩
  · rw [hlisted]
    decide
  · rw [hlisted, hvars]
    intro v hv u hu
    rw [List.mem_singleton.mp hv, List.mem_singleton.mp hu]
    exact (ByteMemory.apart_of_le (by decide) (by decide)).symm
  · rw [hvars]
    intro v hv w hw hne
    exact absurd ((List.mem_singleton.mp hv).trans (List.mem_singleton.mp hw).symm) hne
  · simp [hrelocs]
  · rw [hvars]
    decide
  · rw [hlisted, hvars]
    decide
  · simp [hrelocs]

/-- The new code finds the value of the variable. -/
theorem countingLinked_static_state_survives :
    ∃ new, (countingLinked.staticsIn {} (.initial countingStart.world.context.programs
        countingStart.world.memory) (.tick countingOutside .linked)).lastUse ("counter", 7) =
          some new ∧
      (countingLinked.perform {} (.tick countingOutside .linked)).world.memory
        (new.runtimeAddress + 0) = 7 := by
  have hread : (Live.tickReload {} .linked (countingLinked.ask countingOutside)).map (fun r =>
      (r.newProgram.symbols.vars, r.relocs)) = some ([counter 0x2000], []) := by
    decide +kernel
  obtain ⟨r, hr, hread⟩ := Option.map_eq_some_iff.mp hread
  obtain ⟨hvars, hrelocs⟩ := Prod.mk.inj hread
  have hsound : countingLinked.ReloadsSoundly {} (.tick countingOutside .linked) := by
    intro r' hr'
    obtain rfl := Option.some.inj (hr.symm.trans hr')
    exact StaticState.sound_of_counters (by decide +kernel) hvars hrelocs
  obtain ⟨new, hnew, hvalues⟩ := countingLinked_run.static_state_survives hsound hr
    (counter 0x2000) (by rw [hvars]; decide) (counter 0x1000) (by decide +kernel)
  have hseven : countingLinked.world.memory ((counter 0x1000).runtimeAddress + 0) = 7 := by
    decide +kernel
  refine ⟨new, hnew, ?_⟩
  rw [hvalues 0 (by decide), hseven]

end JetLive

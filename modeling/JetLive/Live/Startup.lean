import JetLive.Live.Run

/-!
# The initialization thread

The constructor starts a thread that runs the initialization functions one after another and
looks at `m_earlyExit` after each of them. The main thread may call `update` and `tryReload`
meanwhile, and the file watcher may report changes as soon as it is set up. Until
`m_initialized` is set, `update` only hands out log entries; the first call of `update` after
that joins the thread and goes on.

A run of both threads up to that call is a `StartupRun`. Whatever the order of their steps, the
library is then in a state of the runs of `Live/Run.lean`, which begin with a library that was
initialized all at once: what came in between waits in the queue and in the file watcher. Only
the entries of the log may have come in another order.
-/

namespace JetLive

open Containers TeenyPath

inductive InitializationFunction
  | loadCompilationUnits
  | getDirectoryFilters
  | loadDependencies
  | setupFileWatcher
  | loadSymbols
  | loadExportedSymbols
  | storeInitialized
  deriving DecidableEq, Repr

def initializationFunctions : List InitializationFunction :=
  [.loadCompilationUnits, .getDirectoryFilters, .loadDependencies, .setupFileWatcher,
   .loadSymbols, .loadExportedSymbols, .storeInitialized]

namespace InitializationFunction

/-- The effect of a function on the library; `none` is an exception, which ends the process. -/
def run (config : LiveConfig) (filepath : String) (s : Live) : InitializationFunction → Option Live
  | .loadCompilationUnits => s.loadCompilationUnits config filepath
  | .getDirectoryFilters => some (s.act LiveWorld.updateDirectoryFilters)
  | .loadDependencies => some s.loadDependencies
  | .setupFileWatcher => some (s.act (LiveWorld.setupFileWatcher config))
  | .loadSymbols => some s.loadSymbols
  | .loadExportedSymbols => some (s.act LiveWorld.loadExportedSymbols)
  | .storeInitialized => some s

def runAll (config : LiveConfig) (filepath : String) :
    List InitializationFunction → Live → Option Live
  | [], s => some s
  | f :: fs, s => (f.run config filepath s).bind (runAll config filepath fs)

theorem runAll_append (config : LiveConfig) (filepath : String)
    (fs gs : List InitializationFunction) (s : Live) :
    runAll config filepath (fs ++ gs) s =
      (runAll config filepath fs s).bind (runAll config filepath gs) := by
  induction fs generalizing s with
  | nil => rfl
  | cons f fs ih =>
      rw [List.cons_append, runAll, runAll, Option.bind_assoc]
      congr 1
      funext s'
      exact ih s'

theorem runAll_initializationFunctions (config : LiveConfig) (filepath : String) (out : Outside)
    (memory : ProcessMemory) :
    runAll config filepath initializationFunctions { world := { outside := out, memory } } =
      Live.create config filepath out memory := by
  simp only [initializationFunctions, runAll, run, Live.create, Option.map_eq_bind]
  rfl

end InitializationFunction

/-- The library with its initialization thread: the functions that are `left`, whether the
thread is between a function and the look at `m_earlyExit`, and whether it has ended. -/
structure Startup where
  live : Live
  left : List InitializationFunction := initializationFunctions
  checking : Bool := false
  ended : Bool := false
  initialized : Bool := false
  earlyExit : Bool := false

namespace Startup

/-- The calls that may come in between. -/
inductive EarlyCall
  | tryReload
  | fileAction (directory filename : String)
  deriving DecidableEq, Repr

def EarlyCall.call : EarlyCall → LiveCall
  | .tryReload => .tryReload
  | .fileAction directory filename => .fileAction directory filename

inductive Step (config : LiveConfig) (filepath : String) : Startup → Startup → Prop
  | run (s : Startup) (f : InitializationFunction) (fs : List InitializationFunction) (live : Live)
      (hleft : s.left = f :: fs) (hchecking : s.checking = false) (hended : s.ended = false)
      (hrun : f.run config filepath s.live = some live) :
      Step config filepath s
        { s with
          live
          left := fs
          checking := true
          initialized := s.initialized || f == .storeInitialized }
  | check (s : Startup) (hchecking : s.checking = true) :
      Step config filepath s { s with checking := false, ended := s.earlyExit || s.left.isEmpty }
  | early (s : Startup) (call : EarlyCall) (hallowed : s.live.Allows call.call) :
      Step config filepath s { s with live := s.live.perform config call.call }
  | update (s : Startup) (hinitialized : s.initialized = false) : Step config filepath s s
  | destroy (s : Startup) : Step config filepath s { s with earlyExit := true }

end Startup

inductive StartupRun (config : LiveConfig) (filepath : String) (out : Outside)
    (memory : ProcessMemory) : Startup → Prop
  | start :
      StartupRun config filepath out memory { live := { world := { outside := out, memory } } }
  | step {s s' : Startup} (h : StartupRun config filepath out memory s)
      (hstep : Startup.Step config filepath s s') : StartupRun config filepath out memory s'

/-! ## Sessions that differ in the order of the log -/

namespace Live

variable {s s' t t' : Live} {u : EventTrace.Trace Compiler Event}

/-- The second session is the first with the events `u` recorded somewhere in between. -/
structure AlikeWith (u : CompilerTrace) (s s' : Live) : Prop where
  world : s'.world = s.world
  compiler : s'.compiler = s.compiler
  trace : s'.trace.Perm (u ++ s.trace)

theorem emitHost_trace (l : List HostEvent) (s : Live) :
    (s.emitHost l).trace = (l.map fun e => (s.compiler, Event.host e)).reverse ++ s.trace := by
  induction l generalizing s with
  | nil => rfl
  | cons e l ih =>
      rw [Session.emitHost, List.foldl_cons, ← Session.emitHost, ih]
      simp

namespace AlikeWith

theorem refl (s : Live) : AlikeWith [] s s := ⟨rfl, rfl, .refl _⟩

theorem trans {v : CompilerTrace} {s'' : Live} (h : AlikeWith u s s') (h' : AlikeWith v s' s'') :
    AlikeWith (v ++ u) s s'' := by
  refine ⟨h'.world.trans h.world, h'.compiler.trans h.compiler, h'.trace.trans ?_⟩
  rw [List.append_assoc]
  exact h.trace.append_left v

theorem of_same {s'' : Live} (h : AlikeWith u s s') (h' : AlikeWith u s s'') :
    AlikeWith [] s' s'' :=
  ⟨h'.world.trans h.world.symm, h'.compiler.trans h.compiler.symm, h'.trace.trans h.trace.symm⟩

/-- The entries that `emitLogs` records. -/
theorem logged (l : List LogEntry) (s : Live) :
    AlikeWith ((l.map fun e => (s.compiler, Event.host (.log e))).reverse) s (s.emitLogs l) := by
  refine ⟨by simp, by simp, ?_⟩
  rw [Session.emitLogs, emitHost_trace, List.map_map]
  exact .refl _

theorem emitHost (h : AlikeWith u s s') (l : List HostEvent) :
    AlikeWith u (s.emitHost l) (s'.emitHost l) := by
  refine ⟨by simpa using h.world, by simpa using h.compiler, ?_⟩
  rw [emitHost_trace, emitHost_trace, h.compiler]
  refine (h.trace.append_left _).trans ?_
  rw [← List.append_assoc, ← List.append_assoc]
  exact List.perm_append_comm.append_right _

theorem emitLogs (h : AlikeWith u s s') (l : List LogEntry) :
    AlikeWith u (s.emitLogs l) (s'.emitLogs l) :=
  h.emitHost _

theorem modifyWorld (h : AlikeWith u s s') (f : LiveWorld → LiveWorld) :
    AlikeWith u (s.modifyWorld f) (s'.modifyWorld f) :=
  ⟨congrArg f h.world, h.compiler, h.trace⟩

theorem act (h : AlikeWith u s s') (f : LiveWorld → LiveWorld × List LogEntry) :
    AlikeWith u (s.act f) (s'.act f) := by
  unfold Session.act
  rw [h.world]
  exact (h.emitLogs _).modifyWorld _

theorem foldl {α : Type*} (f : α → LiveWorld → LiveWorld × List LogEntry) (l : List α)
    (h : AlikeWith u s s') :
    AlikeWith u (l.foldl (fun s a => s.act (f a)) s) (l.foldl (fun s a => s.act (f a)) s') := by
  induction l generalizing s s' with
  | nil => exact h
  | cons a l ih => exact ih (h.act (f a))

/-- The initialization functions do not look at what is recorded. -/
theorem run {config : LiveConfig} {filepath : String} (h : AlikeWith u s s')
    (f : InitializationFunction) (hrun : f.run config filepath s' = some t') :
    ∃ t, f.run config filepath s = some t ∧ AlikeWith u t t' := by
  cases f with
  | loadCompilationUnits =>
      have hstart := (h.emitLogs [.log .kDebug "Parsing compilation commands..."]).act
        (LiveWorld.generateDatabase config)
      simp only [InitializationFunction.run, loadCompilationUnits] at hrun ⊢
      rw [hstart.world] at hrun
      split at hrun
      · simp at hrun
      · rename_i units logs _
        obtain rfl := Option.some.inj hrun
        exact ⟨_, rfl, (hstart.emitLogs logs).act _⟩
  | loadDependencies =>
      obtain rfl := Option.some.inj hrun
      refine ⟨_, rfl, ?_⟩
      have hstart := h.emitLogs [.log .kDebug "Parsing dependencies..."]
      unfold Live.loadDependencies
      dsimp only
      rw [hstart.world]
      exact (hstart.foldl (fun unit : String × CompilationUnit =>
        (·.updateDependenciesOf unit.1)) _).emitLogs _
  | loadSymbols =>
      obtain rfl := Option.some.inj hrun
      refine ⟨_, rfl, ?_⟩
      unfold Live.loadSymbols
      dsimp only
      rw [h.world]
      exact (h.foldl LiveWorld.loadProgram _).emitLogs _
  | getDirectoryFilters | setupFileWatcher | loadExportedSymbols =>
      obtain rfl := Option.some.inj hrun
      exact ⟨_, rfl, h.act _⟩
  | storeInitialized =>
      obtain rfl := Option.some.inj hrun
      exact ⟨_, rfl, h⟩

/-- Neither do the calls that come in between. -/
theorem early (h : AlikeWith u s s') (config : LiveConfig) (call : Startup.EarlyCall) :
    AlikeWith u (s.perform config call.call) (s'.perform config call.call) := by
  cases call with
  | tryReload =>
      change AlikeWith u s.tryReload s'.tryReload
      unfold Live.tryReload
      exact (h.emitLogs _).modifyWorld _
  | fileAction directory filename =>
      change AlikeWith u (s.fileAction directory filename) (s'.fileAction directory filename)
      unfold Live.fileAction
      exact h.modifyWorld _

end AlikeWith

/-! ## What comes in between can come later -/

/-- A change of the world that the initialization functions do not notice. -/
structure Unnoticed (config : LiveConfig) (g : LiveWorld → LiveWorld) : Prop where
  outside : ∀ w, (g w).outside = w.outside
  context : ∀ w, (g w).context = w.context
  generateDatabase : ∀ w, (g w).generateDatabase config =
    (g (w.generateDatabase config).1, (w.generateDatabase config).2)
  enterUnits : ∀ filepath units w, (g w).enterUnits filepath units =
    (g (w.enterUnits filepath units).1, (w.enterUnits filepath units).2)
  updateDirectoryFilters : ∀ w, (g w).updateDirectoryFilters =
    (g w.updateDirectoryFilters.1, w.updateDirectoryFilters.2)
  updateDependenciesOf : ∀ p w, (g w).updateDependenciesOf p =
    (g (w.updateDependenciesOf p).1, (w.updateDependenciesOf p).2)
  loadProgram : ∀ path w, (g w).loadProgram path =
    (g (w.loadProgram path).1, (w.loadProgram path).2)
  loadExportedSymbols : ∀ w, (g w).loadExportedSymbols =
    (g w.loadExportedSymbols.1, w.loadExportedSymbols.2)

theorem unnoticed_id (config : LiveConfig) : Unnoticed config fun w => w :=
  ⟨fun _ => rfl, fun _ => rfl, fun _ => rfl, fun _ _ _ => rfl, fun _ => rfl, fun _ _ => rfl,
    fun _ _ => rfl, fun _ => rfl⟩

/-- An event goes to the queue. -/
theorem unnoticed_events (config : LiveConfig) (event : LiveEvent) :
    Unnoticed config fun w => { w with events := w.events ++ [event] } where
  outside _ := rfl
  context _ := rfl
  generateDatabase w := by
    unfold LiveWorld.generateDatabase
    split <;> rfl
  enterUnits _ _ _ := rfl
  updateDirectoryFilters _ := rfl
  updateDependenciesOf p w := by
    unfold LiveWorld.updateDependenciesOf
    dsimp only
    split <;> rfl
  loadProgram path w := by
    unfold LiveWorld.loadProgram
    dsimp only
    split <;> rfl
  loadExportedSymbols _ := rfl

/-- An event goes to the file watcher. -/
theorem unnoticed_fileEvents (config : LiveConfig) (event : FileEvent) :
    Unnoticed config fun w => { w with fileWatcher := w.fileWatcher.map (· ++ [event]) } where
  outside _ := rfl
  context _ := rfl
  generateDatabase w := by
    unfold LiveWorld.generateDatabase
    split <;> rfl
  enterUnits _ _ _ := rfl
  updateDirectoryFilters _ := rfl
  updateDependenciesOf p w := by
    unfold LiveWorld.updateDependenciesOf
    simp only [Option.isSome_map]
    split <;> rfl
  loadProgram path w := by
    unfold LiveWorld.loadProgram
    dsimp only
    split <;> rfl
  loadExportedSymbols _ := rfl

section Unnoticed

variable {config : LiveConfig} {g : LiveWorld → LiveWorld}

theorem emitLogs_modifyWorld (l : List LogEntry) (s : Live) :
    (s.modifyWorld g).emitLogs l = (s.emitLogs l).modifyWorld g := by
  have hhost : ∀ (l : List HostEvent) (s : Live),
      (s.modifyWorld g).emitHost l = (s.emitHost l).modifyWorld g := by
    intro l
    induction l with
    | nil => exact fun _ => rfl
    | cons e l ih => exact fun s => ih (s.emit (.host e))
  exact hhost _ s

theorem act_modifyWorld {f : LiveWorld → LiveWorld × List LogEntry}
    (hf : ∀ w, f (g w) = (g (f w).1, (f w).2)) (s : Live) :
    (s.modifyWorld g).act f = (s.act f).modifyWorld g := by
  simp only [Session.act, Session.modifyWorld_world, hf, emitLogs_modifyWorld]
  rfl

theorem foldl_act_modifyWorld {α : Type*} {f : α → LiveWorld → LiveWorld × List LogEntry}
    (hf : ∀ a w, f a (g w) = (g (f a w).1, (f a w).2)) (l : List α) (s : Live) :
    l.foldl (fun s a => s.act (f a)) (s.modifyWorld g) =
      (l.foldl (fun s a => s.act (f a)) s).modifyWorld g := by
  induction l generalizing s with
  | nil => rfl
  | cons a l ih =>
      rw [List.foldl_cons, List.foldl_cons, act_modifyWorld (hf a)]
      exact ih _

/-- Only the setup of the file watcher may notice the change. -/
theorem run_modifyWorld (hg : Unnoticed config g) {filepath : String} {f : InitializationFunction}
    (hf : f = .setupFileWatcher → ∀ w, (g w).setupFileWatcher config =
      (g (w.setupFileWatcher config).1, (w.setupFileWatcher config).2)) (s : Live) :
    f.run config filepath (s.modifyWorld g) = (f.run config filepath s).map (·.modifyWorld g) := by
  cases f with
  | loadCompilationUnits =>
      have hparse : ∀ w,
          (g w).parseCompilationUnits filepath = w.parseCompilationUnits filepath := by
        intro w
        simp only [LiveWorld.parseCompilationUnits, hg.outside]
      simp only [InitializationFunction.run, loadCompilationUnits, emitLogs_modifyWorld,
        act_modifyWorld hg.generateDatabase, Session.modifyWorld_world, hparse]
      split
      · rfl
      · rename_i units logs _
        simp only [act_modifyWorld (hg.enterUnits filepath units), Option.map_some]
  | loadDependencies =>
      have hunits : ∀ w, (g w).unitList = w.unitList := by
        intro w
        simp only [LiveWorld.unitList, hg.outside, hg.context]
      simp only [InitializationFunction.run, Live.loadDependencies, emitLogs_modifyWorld,
        Session.modifyWorld_world, hunits, Option.map_some]
      rw [foldl_act_modifyWorld (f := fun (unit : String × CompilationUnit) w =>
        w.updateDependenciesOf unit.1) (fun unit => hg.updateDependenciesOf unit.1),
        emitLogs_modifyWorld]
  | loadSymbols =>
      simp only [InitializationFunction.run, Live.loadSymbols, Session.modifyWorld_world,
        hg.outside, foldl_act_modifyWorld hg.loadProgram, emitLogs_modifyWorld, Option.map_some]
  | getDirectoryFilters =>
      exact congrArg some (act_modifyWorld hg.updateDirectoryFilters s)
  | loadExportedSymbols =>
      exact congrArg some (act_modifyWorld hg.loadExportedSymbols s)
  | setupFileWatcher => exact congrArg some (act_modifyWorld (hf rfl) s)
  | storeInitialized => rfl

/-- The initialization functions leave the compiler alone and keep what their parts keep. -/
theorem run_rule {J : LiveWorld → Prop} {filepath : String} {f : InitializationFunction}
    (hgenerate : ∀ w, J w → J (w.generateDatabase config).1)
    (henter : ∀ filepath units w, J w → J (w.enterUnits filepath units).1)
    (hfilters : ∀ w, J w → J w.updateDirectoryFilters.1)
    (hdependencies : ∀ p w, J w → J (w.updateDependenciesOf p).1)
    (hsetup : f = .setupFileWatcher → ∀ w, J w → J (w.setupFileWatcher config).1)
    (hload : ∀ path w, J w → J (w.loadProgram path).1)
    (hexported : ∀ w, J w → J w.loadExportedSymbols.1)
    (hs : J s.world) (hrun : f.run config filepath s = some t) :
    t.compiler = s.compiler ∧ J t.world := by
  let I : Live → Prop := fun t => t.compiler = s.compiler ∧ J t.world
  have hs : I s := ⟨rfl, hs⟩
  have hlogs : ∀ t l, I t → I (t.emitLogs l) := by
    intro t l ht
    exact ⟨by simpa using ht.1, by simpa using ht.2⟩
  have hact : ∀ g : LiveWorld → LiveWorld × List LogEntry, (∀ w, J w → J (g w).1) →
      ∀ t, I t → I (t.act g) := by
    intro g hg t ht
    exact ⟨by simpa using ht.1, by simpa using hg _ ht.2⟩
  cases f with
  | loadCompilationUnits =>
      exact loadCompilationUnits_rule hlogs (hact _ hgenerate)
        (fun t filepath units _ => hact _ (henter filepath units) t) hs hrun
  | loadDependencies =>
      obtain rfl := Option.some.inj hrun
      exact loadDependencies_rule hlogs (fun t p => hact _ (hdependencies p) t) hs
  | loadSymbols =>
      obtain rfl := Option.some.inj hrun
      exact loadSymbols_rule hlogs (fun t path => hact _ (hload path) t) hs
  | getDirectoryFilters =>
      obtain rfl := Option.some.inj hrun
      exact hact _ hfilters s hs
  | setupFileWatcher =>
      obtain rfl := Option.some.inj hrun
      exact hact _ (hsetup rfl) s hs
  | loadExportedSymbols =>
      obtain rfl := Option.some.inj hrun
      exact hact _ hexported s hs
  | storeInitialized =>
      obtain rfl := Option.some.inj hrun
      exact hs

theorem run_compiler {filepath : String} {f : InitializationFunction}
    (hrun : f.run config filepath s = some t) : t.compiler = s.compiler :=
  (run_rule (J := fun _ => True) (fun _ => id) (fun _ _ _ => id) (fun _ => id) (fun _ _ => id)
    (fun _ _ => id) (fun _ _ => id) (fun _ => id) trivial hrun).1

def Unwatched (w : LiveWorld) : Prop := w.fileWatcher = none ∧ w.context.dirsToMonitor = ∅

theorem run_unwatched {filepath : String} {f : InitializationFunction}
    (hf : f ≠ .setupFileWatcher) (hs : Unwatched s.world)
    (hrun : f.run config filepath s = some t) : Unwatched t.world := by
  refine (run_rule (fun w hw => ?_) (fun _ _ _ hw => hw) (fun _ hw => hw) (fun p w hw => ?_)
    (fun h => absurd h hf) (fun path w hw => ?_) (fun _ hw => hw) hs hrun).2
  · unfold LiveWorld.generateDatabase
    split
    all_goals exact hw
  · unfold LiveWorld.updateDependenciesOf
    split
    · exact hw
    · refine ⟨hw.1, ?_⟩
      simp only [updateDependencies, hw.1, hw.2, Option.isSome_none, Bool.false_eq_true, if_false]
  · unfold LiveWorld.loadProgram
    dsimp only
    split
    all_goals exact hw

/-- A directory stays monitored unless the file watcher is set up anew. -/
theorem run_dirsToMonitor {filepath dir : String} {f : InitializationFunction}
    (hf : f ≠ .setupFileWatcher) (hs : dir ∈ s.world.context.dirsToMonitor)
    (hrun : f.run config filepath s = some t) : dir ∈ t.world.context.dirsToMonitor := by
  refine (run_rule (J := fun w => dir ∈ w.context.dirsToMonitor) (fun w hw => ?_)
    (fun _ _ _ hw => hw) (fun _ hw => hw) (fun p w hw => ?_) (fun h => absurd h hf)
    (fun path w hw => ?_) (fun _ hw => hw) hs hrun).2
  · unfold LiveWorld.generateDatabase
    split
    all_goals exact hw
  · unfold LiveWorld.updateDependenciesOf
    split
    · exact hw
    · simp only [updateDependencies]
      split
      · exact Finset.mem_union_left _ hw
      · exact hw
  · unfold LiveWorld.loadProgram
    dsimp only
    split
    all_goals exact hw

/-- An initialization function may as well run before a call that came before it, unless the
function sets up the file watcher and the call is one of its events. -/
theorem run_early {filepath : String} {f : InitializationFunction} {call : Startup.EarlyCall}
    (hf : f = .setupFileWatcher → call = .tryReload)
    (hrun : f.run config filepath (s.perform config call.call) = some t) :
    ∃ s', f.run config filepath s = some s' ∧ AlikeWith [] (s'.perform config call.call) t := by
  cases call with
  | tryReload =>
      change f.run config filepath s.tryReload = some t at hrun
      unfold Live.tryReload at hrun
      rw [run_modifyWorld (unnoticed_events config .tryReload) fun _ _ => rfl] at hrun
      obtain ⟨t₀, hrun₀, rfl⟩ := Option.map_eq_some_iff.mp hrun
      obtain ⟨s', hs', halike⟩ := (AlikeWith.logged _ s).run f hrun₀
      rw [← run_compiler hs'] at halike
      refine ⟨s', hs', ?_⟩
      change AlikeWith [] s'.tryReload _
      unfold Live.tryReload
      exact ((AlikeWith.logged _ s').of_same halike).modifyWorld _
  | fileAction directory filename =>
      change f.run config filepath (s.fileAction directory filename) = some t at hrun
      have hg : Unnoticed config fun w =>
          if watched filename then
            { w with fileWatcher := w.fileWatcher.map (· ++ [⟨directory, filename⟩]) }
          else w := by
        by_cases hwatched : watched filename
        · simpa only [hwatched, if_true] using unnoticed_fileEvents config ⟨directory, filename⟩
        · simpa only [hwatched, Bool.false_eq_true, if_false] using unnoticed_id config
      unfold Live.fileAction at hrun
      rw [run_modifyWorld hg fun hf' => absurd (hf hf') (by simp)] at hrun
      obtain ⟨s', hs', rfl⟩ := Option.map_eq_some_iff.mp hrun
      exact ⟨s', hs', .refl _⟩

def performEarly (config : LiveConfig) (calls : List Startup.EarlyCall) (s : Live) : Live :=
  calls.foldl (fun s call => s.perform config call.call) s

theorem AlikeWith.performEarly {u : CompilerTrace} {s s' : Live} (h : AlikeWith u s s')
    (calls : List Startup.EarlyCall) :
    AlikeWith u (s.performEarly config calls) (s'.performEarly config calls) := by
  induction calls generalizing s s' with
  | nil => exact h
  | cons call calls ih => exact ih (h.early config call)

theorem run_performEarly {filepath : String} {f : InitializationFunction}
    {calls : List Startup.EarlyCall}
    (hf : f = .setupFileWatcher → ∀ call ∈ calls, call = .tryReload)
    (hrun : f.run config filepath (s.performEarly config calls) = some t) :
    ∃ s', f.run config filepath s = some s' ∧ AlikeWith [] (s'.performEarly config calls) t := by
  induction calls generalizing s with
  | nil => exact ⟨t, hrun, .refl t⟩
  | cons call calls ih =>
      obtain ⟨hcall, hcalls⟩ : (f = .setupFileWatcher → call = .tryReload) ∧
          (f = .setupFileWatcher → ∀ call ∈ calls, call = .tryReload) :=
        ⟨fun h => hf h call (by simp), fun h c hc => hf h c (List.mem_cons_of_mem _ hc)⟩
      obtain ⟨s₁, hs₁, halike₁⟩ := ih hcalls hrun
      obtain ⟨s', hs', halike⟩ := run_early hcall hs₁
      exact ⟨s', hs', (halike.performEarly calls).trans halike₁⟩

/-- The calls that came in between do not change what is allowed. -/
theorem allows_performEarly (config : LiveConfig) (calls : List Startup.EarlyCall)
    (call : Startup.EarlyCall) (s : Live) :
    (s.performEarly config calls).Allows call.call ↔ s.Allows call.call := by
  induction calls generalizing s with
  | nil => rfl
  | cons c calls ih =>
      refine (ih (s.perform config c.call)).trans ?_
      cases call with
      | tryReload => rfl
      | fileAction directory filename =>
          cases c with
          | tryReload => rfl
          | fileAction directory' filename' =>
              change (s.fileAction directory' filename').Allows _ ↔ _
              unfold Live.fileAction
              simp only [Startup.EarlyCall.call, Allows, Session.modifyWorld_world]
              split <;> rfl

end Unnoticed

end Live

/-! ## Runs of the two threads -/

theorem nodup_initializationFunctions : initializationFunctions.Nodup := by decide

/-- The file watcher is set up once, and `m_initialized` is set last. -/
theorem of_initializationFunctions_eq {done fs : List InitializationFunction}
    {f : InitializationFunction} (h : initializationFunctions = done ++ f :: fs) :
    f ∉ fs ∧ (f = .storeInitialized → fs = []) := by
  have hnodup := nodup_initializationFunctions
  rw [h] at hnodup
  have hnotMem : f ∉ fs := (List.nodup_cons.mp (List.nodup_append.mp hnodup).2.1).1
  refine ⟨hnotMem, ?_⟩
  rintro rfl
  rcases List.eq_nil_or_concat fs with hnil | ⟨gs, last, rfl⟩
  · exact hnil
  · have hconcat : initializationFunctions = (done ++ .storeInitialized :: gs) ++ [last] := by
      simpa using h
    have hlast := congrArg List.getLast? hconcat
    rw [List.getLast?_concat] at hlast
    obtain rfl : InitializationFunction.storeInitialized = last := Option.some.inj hlast
    simp at hnotMem

namespace Startup

variable {config : LiveConfig} {filepath : String} {out : Outside} {memory : ProcessMemory}

/-- The state is that of functions run one after another, with the calls that came in between
after them. -/
structure Serial (config : LiveConfig) (filepath : String) (out : Outside)
    (memory : ProcessMemory) (s : Startup) (done : List InitializationFunction)
    (calls : List EarlyCall) (live : Live) : Prop where
  functions : initializationFunctions = done ++ s.left
  run : InitializationFunction.runAll config filepath done
    { world := { outside := out, memory } } = some live
  alike : live.performEarly config calls |>.AlikeWith [] s.live
  allowed : ∀ call ∈ calls, live.Allows call.call
  unwatched : .setupFileWatcher ∈ s.left → (∀ call ∈ calls, call = .tryReload) ∧
    Live.Unwatched live.world
  initialized : s.initialized = true → s.left = []

namespace Serial

variable {s : Startup} {done : List InitializationFunction} {calls : List EarlyCall} {live : Live}

/-- A function of the initialization thread moves before the calls. -/
theorem run_step {f : InitializationFunction} {fs : List InitializationFunction} {live' : Live}
    (h : Serial config filepath out memory s done calls live) (hleft : s.left = f :: fs)
    (hrun : f.run config filepath s.live = some live') :
    ∃ t, Serial config filepath out memory
      { s with
        live := live'
        left := fs
        checking := true
        initialized := s.initialized || f == .storeInitialized } (done ++ [f]) calls t := by
  have hfunctions : initializationFunctions = done ++ f :: fs := hleft ▸ h.functions
  obtain ⟨honce, hlast⟩ := of_initializationFunctions_eq hfunctions
  have hunwatched : .setupFileWatcher ∈ f :: fs → (∀ call ∈ calls, call = .tryReload) ∧
      Live.Unwatched live.world := hleft ▸ h.unwatched
  obtain ⟨t₀, hrun₀, halike₀⟩ := h.alike.run f hrun
  obtain ⟨t, ht, halike⟩ := Live.run_performEarly (fun hf => (hunwatched (by simp [hf])).1) hrun₀
  refine ⟨t, by simpa using hfunctions, ?_, halike.trans halike₀, ?_, ?_, ?_⟩
  · rw [InitializationFunction.runAll_append, h.run]
    simp [InitializationFunction.runAll, ht]
  · intro call hmem
    cases call with
    | tryReload => trivial
    | fileAction directory filename =>
        -- the file watcher reports only after its setup
        have hf : f ≠ .setupFileWatcher := by
          intro hf
          have := (hunwatched (by simp [hf])).1 _ hmem
          simp at this
        obtain ⟨dir, hdir, hdirectory⟩ := h.allowed _ hmem
        exact ⟨dir, Live.run_dirsToMonitor hf hdir ht, hdirectory⟩
  · intro hmem
    have hf : f ≠ .setupFileWatcher := fun hf => honce (hf ▸ hmem)
    obtain ⟨hcalls, hworld⟩ := hunwatched (List.mem_cons_of_mem _ hmem)
    exact ⟨hcalls, Live.run_unwatched hf hworld ht⟩
  · intro hinitialized
    rcases Bool.or_eq_true_iff.mp hinitialized with hs | hf
    · simp [h.initialized hs] at hleft
    · exact hlast (beq_iff_eq.mp hf)

/-- A call goes behind those that came before it. -/
theorem early_step (h : Serial config filepath out memory s done calls live) {call : EarlyCall}
    (hallowed : s.live.Allows call.call) :
    Serial config filepath out memory { s with live := s.live.perform config call.call } done
      (calls ++ [call]) live := by
  have hcall : live.Allows call.call := by
    refine (Live.allows_performEarly config calls call live).mp ?_
    cases call with
    | tryReload => trivial
    | fileAction directory filename =>
        obtain ⟨dir, hdir, hdirectory⟩ := hallowed
        exact ⟨dir, h.alike.world ▸ hdir, hdirectory⟩
  refine ⟨h.functions, h.run, ?_, ?_, ?_, h.initialized⟩
  · rw [Live.performEarly, List.foldl_append]
    exact h.alike.early config call
  · simpa [or_imp, forall_and] using ⟨h.allowed, hcall⟩
  · intro hmem
    obtain ⟨hcalls, hworld⟩ := h.unwatched hmem
    refine ⟨?_, hworld⟩
    have htry : call = .tryReload := by
      cases call with
      | tryReload => rfl
      | fileAction directory filename =>
          obtain ⟨dir, hdir, -⟩ := hcall
          simp [hworld.2] at hdir
    simpa [or_imp, forall_and] using ⟨hcalls, htry⟩

end Serial

end Startup

namespace StartupRun

variable {config : LiveConfig} {filepath : String} {out : Outside} {memory : ProcessMemory}
  {s : Startup}

theorem serial (h : StartupRun config filepath out memory s) :
    ∃ done calls live, Startup.Serial config filepath out memory s done calls live := by
  induction h with
  | start =>
      exact ⟨[], [], _, rfl, rfl, .refl _, by simp, fun _ => ⟨by simp, rfl, rfl⟩, by simp⟩
  | step _ hstep ih =>
      obtain ⟨done, calls, live, hserial⟩ := ih
      cases hstep with
      | run f fs live' hleft _ _ hrun =>
          obtain ⟨t, ht⟩ := hserial.run_step hleft hrun
          exact ⟨_, _, t, ht⟩
      | early call hallowed => exact ⟨_, _, _, hserial.early_step hallowed⟩
      | check _ | update _ | destroy =>
          exact ⟨done, calls, live, ⟨hserial.functions, hserial.run, hserial.alike,
            hserial.allowed, hserial.unwatched, hserial.initialized⟩⟩

/-- **The initialization thread goes first**: when `m_initialized` is set, the library is in a
state that it also reaches when it is initialized all at once and only then sees the requests and
the file events that came in between; only the order of what was logged may differ. -/
theorem serialises (h : StartupRun config filepath out memory s) (hinit : s.initialized = true) :
    ∃ live, LiveRun config (fun _ call => ∃ early : Startup.EarlyCall, call = early.call) live ∧
      s.live.world = live.world ∧ s.live.compiler = live.compiler ∧
      s.live.trace.Perm live.trace := by
  obtain ⟨done, calls, live, hserial⟩ := h.serial
  have hdone : initializationFunctions = done := by
    simpa [hserial.initialized hinit] using hserial.functions
  have hcreate : Live.create config filepath out memory = some live := by
    rw [← InitializationFunction.runAll_initializationFunctions, hdone]
    exact hserial.run
  have hrun : ∀ l : List Startup.EarlyCall, (∀ call ∈ l, live.Allows call.call) →
      LiveRun config (fun _ call => ∃ early : Startup.EarlyCall, call = early.call)
        (live.performEarly config l) := by
    intro l
    induction l using List.reverseRecOn with
    | nil => exact fun _ => .start filepath out memory hcreate
    | append_singleton l call ih =>
        intro hallowed
        rw [Live.performEarly, List.foldl_append]
        refine (ih fun c hc => hallowed c (by simp [hc])).call call.call ?_ ⟨call, rfl⟩
        exact (Live.allows_performEarly config l call live).mpr (hallowed call (by simp))
  exact ⟨_, hrun calls hserial.allowed, hserial.alike.world, hserial.alike.compiler,
    hserial.alike.trace⟩

/-- A function and the look at `m_earlyExit` after it. -/
theorem run_check (h : StartupRun config filepath out memory s) {f : InitializationFunction}
    {fs : List InitializationFunction} {live : Live} (hleft : s.left = f :: fs)
    (hchecking : s.checking = false) (hended : s.ended = false)
    (hrun : f.run config filepath s.live = some live) :
    StartupRun config filepath out memory
      { s with
        live
        left := fs
        checking := false
        ended := s.earlyExit || fs.isEmpty
        initialized := s.initialized || f == .storeInitialized } :=
  (h.step (.run s f fs live hleft hchecking hended hrun)).step (.check _ rfl)

/-- A reload is requested just before `m_initialized` is set. -/
theorem exists_requested {live : Live} (h : Live.create config filepath out memory = some live) :
    ∃ s, StartupRun config filepath out memory s ∧ s.initialized = true ∧
      .tryReload ∈ s.live.world.events := by
  obtain ⟨s₁, hload, -⟩ := Option.map_eq_some_iff.mp h
  have hstart : StartupRun config filepath out memory _ := .start
  have hunits := hstart.run_check (f := .loadCompilationUnits) rfl rfl rfl hload
  have hwatched := ((hunits.run_check rfl rfl rfl rfl).run_check rfl rfl rfl rfl).run_check
    rfl rfl rfl rfl
  have hsymbols := (hwatched.run_check rfl rfl rfl rfl).run_check rfl rfl rfl rfl
  have hrequested := hsymbols.step (.early _ .tryReload trivial)
  exact ⟨_, hrequested.run_check rfl rfl rfl rfl, rfl, List.mem_append_right _ (by simp)⟩

theorem serialises_requested :
    ∃ s, StartupRun {} "/p/compile_commands.json" (.ofCommands twoUnits) (fun _ => 0) s ∧
      .tryReload ∈ s.live.world.events ∧
      ∃ live, LiveRun {} (fun _ call => ∃ early : Startup.EarlyCall, call = early.call) live ∧
        s.live.world = live.world ∧ s.live.compiler = live.compiler ∧
        s.live.trace.Perm live.trace := by
  obtain ⟨s, hs, hinit, hevents⟩ := exists_requested (Live.create_started twoUnits)
  exact ⟨s, hs, hevents, hs.serialises hinit⟩

end StartupRun

end JetLive

import JetLive.Live.Initialization

/-!
# Runs of the library

A `LiveRun` starts after the initialization and consists of the events of the file
watcher, calls of `tryReload`, writes of the live code, and the parts of `update`,
in any order that the event queue allows. The library calls the compiler only while
no link process is running, so its runs are made of small steps under the discipline
`gated`; and under `strict`, if the queue is never worked on with a link requested
and a file event waiting that concerns the units (`Live.DrainsIdle`).
-/

namespace JetLive

open Containers EventTrace TeenyPath

inductive LiveCall
  | fileAction (directory filename : String)
  | tryReload
  | write (memory : ProcessMemory)
  | tick (out : Outside) (env : Environment)
  | dispatch (out : Outside) (event : LiveEvent)
  | finish

namespace Live

/-- The watcher reports the directories it was given, with a separator at the end. The
queue hands out an event of the highest priority. -/
def Allows (s : Live) : LiveCall → Prop
  | .fileAction directory _ => ∃ dir ∈ s.world.context.dirsToMonitor,
      directory.toList = withSeparator dir.toList
  | .tryReload | .write _ => True
  | .tick .. => s.world.draining = false
  | .dispatch _ event => s.world.draining = true ∧ event ∈ s.world.events ∧
      ∀ event' ∈ s.world.events, event'.priority ≤ event.priority
  | .finish => s.world.draining = true ∧ s.world.events = []

instance (s : Live) : ∀ call, Decidable (s.Allows call)
  | .fileAction .. => inferInstanceAs (Decidable (∃ dir ∈ _, _))
  | .tryReload | .write _ => isTrue trivial
  | .tick .. => inferInstanceAs (Decidable (_ = _))
  | .dispatch .. => inferInstanceAs (Decidable (_ ∧ _ ∧ _))
  | .finish => inferInstanceAs (Decidable (_ ∧ _))

def perform (config : LiveConfig) (s : Live) : LiveCall → Live
  | .fileAction directory filename => s.fileAction directory filename
  | .tryReload => s.tryReload
  | .write memory => s.modifyWorld fun w => { w with memory }
  | .tick out env => (s.ask out).poll config env
  | .dispatch out event => (s.ask out).dispatch config event
  | .finish => s.modifyWorld fun w => { w with draining := false }

end Live

/-- The runs of the library whose calls all satisfy `P`. -/
inductive LiveRun (config : LiveConfig) (P : Live → LiveCall → Prop) : Live → Prop
  | start {s : Live} (filepath : String) (out : Outside) (memory : ProcessMemory)
      (hs : Live.create config filepath out memory = some s) : LiveRun config P s
  | call {s : Live} (h : LiveRun config P s) (call : LiveCall) (hallowed : s.Allows call)
      (hcall : P s call) : LiveRun config P (s.perform config call)

/-- The file may matter to the units: a unit depends on it, or it is the file that the
units come from, which is certain only of an absolute path. -/
def LiveWorld.concerns (w : LiveWorld) (filepath : String) : Bool :=
  (w.context.inverseDependencies.lookup filepath).isSome || !isAbsolute filepath.toList ||
    samePath w.compileCommandsPath.toList filepath.toList

def LiveWorld.disturbs (w : LiveWorld) : LiveEvent → Bool
  | .fileChanged filepath => w.concerns filepath
  | .tryReload => false

namespace Live

/-- No link is requested while a file event that concerns the units waits. -/
def Undisturbed (s : Live) : Prop :=
  s.compiler.shouldLink = true → ∀ event ∈ s.world.events, s.world.disturbs event = false

instance (s : Live) : Decidable s.Undisturbed := inferInstanceAs (Decidable (_ → _))

/-- When `update` begins to work on the queue, it is undisturbed. -/
def DrainsIdle (config : LiveConfig) (s : Live) : LiveCall → Prop
  | .tick out env =>
      ((s.ask out).poll config env).world.draining = true →
        ((s.ask out).poll config env).Undisturbed
  | _ => True

instance (config : LiveConfig) (s : Live) : ∀ call, Decidable (s.DrainsIdle config call)
  | .tick .. => inferInstanceAs (Decidable (_ → _))
  | .fileAction .. | .tryReload | .write _ | .dispatch .. | .finish => isTrue trivial

/-! ## Edits

The library handles a file event by edits: it compiles and removes units, but it
neither requests a link nor touches the queue. -/

/-- The compiler may be called. -/
def Idle (d : Discipline) (s : Live) : Prop :=
  s.compiler.runningLinkTask = none ∧ (d.compileGuarded → s.compiler.shouldLink = false)

/-- What edits leave alone. -/
structure Edits (d : Discipline) (s s' : Live) : Prop where
  steps : Steps d s.core s'.core
  runningLinkTask : s'.compiler.runningLinkTask = s.compiler.runningLinkTask
  shouldLink : s'.compiler.shouldLink = s.compiler.shouldLink
  events : s'.world.events = s.world.events
  draining : s'.world.draining = s.world.draining

variable {d : Discipline} {s s' s'' : Live}

namespace Edits

theorem refl (s : Live) : Edits d s s := ⟨.refl, rfl, rfl, rfl, rfl⟩

theorem trans (h : Edits d s s') (h' : Edits d s' s'') : Edits d s s'' :=
  ⟨h.steps.trans h'.steps, h'.runningLinkTask.trans h.runningLinkTask,
    h'.shouldLink.trans h.shouldLink, h'.events.trans h.events, h'.draining.trans h.draining⟩

theorem idle (h : Edits d s s') (hs : Idle d s) : Idle d s' := by
  refine ⟨h.runningLinkTask.trans hs.1, ?_⟩
  intro hguard
  exact h.shouldLink.trans (hs.2 hguard)

theorem emitLogs (h : Edits d s s') (l : List LogEntry) : Edits d s (s'.emitLogs l) :=
  h.trans ⟨Session.foldl_host_steps (l.map .log) s', by simp, by simp, by simp, by simp⟩

theorem modifyWorld (h : Edits d s s') {f : LiveWorld → LiveWorld}
    (hevents : (f s'.world).events = s'.world.events)
    (hdraining : (f s'.world).draining = s'.world.draining) : Edits d s (s'.modifyWorld f) :=
  h.trans ⟨.refl, rfl, rfl, hevents, hdraining⟩

theorem act (h : Edits d s s') {f : LiveWorld → LiveWorld × List LogEntry}
    (hevents : ∀ w, (f w).1.events = w.events) (hdraining : ∀ w, (f w).1.draining = w.draining) :
    Edits d s (s'.act f) := by
  refine (h.emitLogs _).modifyWorld ?_ ?_
  · rw [Session.emitLogs_world]
    exact hevents s'.world
  · rw [Session.emitLogs_world]
    exact hdraining s'.world

/-- Another world takes over. -/
theorem enter {w : LiveWorld} (logs : List LogEntry) (hevents : w.events = s.world.events)
    (hdraining : w.draining = s.world.draining) : Edits d s (s.act fun _ => (w, logs)) := by
  refine ((refl s).emitLogs logs).modifyWorld ?_ ?_
  · rw [Session.emitLogs_world]
    exact hevents
  · rw [Session.emitLogs_world]
    exact hdraining

/-- A loop of edits. -/
theorem foldl {α : Type*} {f : Live → α → Live} (hf : ∀ s a, Idle d s → Edits d s (f s a))
    (hs : Idle d s) (l : List α) : Edits d s (l.foldl f s) := by
  induction l generalizing s with
  | nil => exact .refl s
  | cons a l ih =>
      have h := hf s a hs
      exact h.trans (ih (h.idle hs))

end Edits

theorem compileUnit_world (complaint : String) (s : Live) (p : String) :
    (s.compileUnit complaint p).world = s.world := by
  unfold compileUnit
  split
  · rfl
  · simp

theorem compileUnit_edits (complaint : String) (s : Live) (p : String) (hs : Idle d s) :
    Edits d s (s.compileUnit complaint p) := by
  unfold compileUnit
  split
  · rename_i cu _
    refine ⟨.single (Session.compile_step cu _ s (fun _ => hs.1) hs.2), rfl, rfl, rfl, rfl⟩
  · exact (Edits.refl s).emitLogs _

theorem removeUnit_edits (s : Live) (p : String) (hs : Idle d s) :
    Edits d s (s.removeUnit p) := by
  have hremove : Edits d s (s.remove s.world.outside.readyOrder p) :=
    ⟨.single (Session.remove_step _ p s fun _ => hs.1), rfl, rfl, rfl, rfl⟩
  refine hremove.modifyWorld ?_ ?_
  · rfl
  · rfl

theorem applyChanges_edits (changes : UnitChanges) (s : Live) (hs : Idle d s) :
    Edits d s (s.applyChanges changes) := by
  have hcompiled := Edits.foldl (compileUnit_edits "Cannot find cu for ") hs
    (changes.added ++ changes.modified)
  have hremoved := Edits.foldl removeUnit_edits (hcompiled.idle hs) changes.removed
  unfold applyChanges
  refine (hcompiled.trans hremoved).modifyWorld ?_ ?_
  · rfl
  · rfl

/-- Reading the units again leaves the queue alone. -/
theorem updateCompilationUnits_queue {config : LiveConfig} {filepath : String} {w w' : LiveWorld}
    {changes : UnitChanges}
    (h : (updateCompilationUnits config filepath w).1 = some (w', changes)) :
    w'.events = w.events ∧ w'.draining = w.draining := by
  rcases updateCompilationUnits_cases h with ⟨_, rfl, _⟩ | ⟨_, _, rfl, _⟩
  · exact ⟨rfl, rfl⟩
  · exact ⟨rfl, rfl⟩

theorem onOtherFileChanged_edits (config : LiveConfig) (filepath : String) (s : Live)
    (hs : Idle d s) : Edits d s (s.onOtherFileChanged config filepath).1 := by
  rcases onOtherFileChanged_cases config filepath s with
    ⟨logs, h⟩ | ⟨w, changes, logs, hread, hcases⟩
  · rw [h]
    exact (Edits.refl s).emitLogs _
  · obtain ⟨hevents, hdraining⟩ := updateCompilationUnits_queue hread
    have hentered : Edits d s (s.afterReading w logs) :=
      (Edits.enter logs hevents hdraining).act (fun _ => rfl) fun _ => rfl
    rcases hcases with ⟨_, h⟩ | ⟨_, h⟩
    · rw [h]
      exact hentered.trans (applyChanges_edits changes _ (hentered.idle hs))
    · rw [h]
      exact hentered

theorem onFileChanged_edits (config : LiveConfig) (filepath : String) (s : Live)
    (hs : Idle d s) : Edits d s (s.onFileChanged config filepath).1 := by
  unfold onFileChanged
  split
  · exact Edits.foldl (compileUnit_edits _) hs _
  · exact onOtherFileChanged_edits config filepath s hs

/-- A file that does not concern the units leaves them alone. -/
theorem updateCompilationUnits_of_not_concerns {w : LiveWorld} {filepath : String}
    (hw : w.concerns filepath = false) (config : LiveConfig) :
    ∃ pbxProjPath logs, updateCompilationUnits config filepath w =
      (some ({ w with pbxProjPath }, {}), logs) := by
  simp only [LiveWorld.concerns, Bool.or_eq_false_iff, Bool.not_eq_false'] at hw
  obtain ⟨⟨_, habsolute⟩, hother⟩ := hw
  have hpath : resolveAbsolute w.outside.fs filepath.toList = filepath.toList := by
    rw [resolveAbsolute, if_pos habsolute]
  unfold updateCompilationUnits
  dsimp only
  rw [hpath]
  split
  · exact ⟨w.pbxProjPath, _, rfl⟩
  · split
    · exact ⟨_, _, rfl⟩
    · rw [if_pos (by simp [hother])]
      exact ⟨w.pbxProjPath, _, rfl⟩

/-- A file event that does not concern the units does not reach the compiler, and it
does not change what concerns them. -/
theorem onFileChanged_of_not_concerns {filepath : String}
    (hs : s.world.concerns filepath = false) (d : Discipline) (config : LiveConfig) :
    Edits d s (s.onFileChanged config filepath).1 ∧
      (s.onFileChanged config filepath).1.world.concerns = s.world.concerns := by
  obtain ⟨pbxProjPath, logs, hupdate⟩ := updateCompilationUnits_of_not_concerns hs config
  have hlookup : s.world.context.inverseDependencies.lookup filepath = none := by
    simp only [LiveWorld.concerns, Bool.or_eq_false_iff] at hs
    simpa using hs.1.1
  unfold onFileChanged onOtherFileChanged
  rw [hlookup, hupdate]
  have hedits := (Edits.enter (d := d) (s := s) (w := { s.world with pbxProjPath }) logs rfl
    rfl).act (f := LiveWorld.updateDirectoryFilters) (fun _ => rfl) fun _ => rfl
  refine ⟨hedits, ?_⟩
  funext q
  rfl

/-! ## The parts of `update` -/

theorem tickFileWatcher_steps (config : LiveConfig) (s : Live) :
    Steps d s.core (s.tickFileWatcher config).core :=
  Session.foldl_host_steps _ s

/-- While the library works on its queue no link process is running, and under a
discipline with `compileGuarded` it is undisturbed. -/
def Gated (d : Discipline) (s : Live) : Prop :=
  s.world.draining = true →
    s.compiler.runningLinkTask = none ∧ (d.compileGuarded → s.Undisturbed)

theorem poll_reached {config : LiveConfig} (env : Environment) (hd : d.config = config)
    (h : Reached d s.compiler s.trace) :
    Reached d (s.poll config env).compiler (s.poll config env).trace := by
  subst hd
  have htick : Reached d (s.tickFileWatcher d.config).compiler (s.tickFileWatcher d.config).trace :=
    h.trans (tickFileWatcher_steps d.config s)
  exact htick.trans (Session.update_steps host env _ htick.coherent.running.key htick.exclusive)

theorem poll_idle {config : LiveConfig} {env : Environment}
    (h : (s.poll config env).world.draining = true) :
    (s.poll config env).compiler.runningLinkTask = none := by
  simpa [poll, Compiler.isLinking] using h

theorem dispatch_fileChanged (config : LiveConfig) {filepath : String} (hs : s.Gated d)
    (hdraining : s.world.draining = true) (hevent : .fileChanged filepath ∈ s.world.events) :
    Steps d s.core (s.dispatch config (.fileChanged filepath)).core ∧
      (s.dispatch config (.fileChanged filepath)).Gated d := by
  obtain ⟨hidle, hundisturbed⟩ := hs hdraining
  -- either the event does not concern the units, or no link is requested
  have hedits : Edits d s (s.onFileChanged config filepath).1 ∧
      (d.compileGuarded → s.compiler.shouldLink = true →
        (s.onFileChanged config filepath).1.world.concerns = s.world.concerns) := by
    by_cases hconcerns : s.world.concerns filepath = true
    · have hshould : d.compileGuarded → s.compiler.shouldLink = false := by
        intro hguard
        by_contra hne
        have hfalse := hundisturbed hguard (by simpa using hne) _ hevent
        exact absurd (hconcerns.symm.trans hfalse) (by simp)
      refine ⟨onFileChanged_edits config filepath s ⟨hidle, hshould⟩, ?_⟩
      intro hguard htrue
      exact absurd (htrue.symm.trans (hshould hguard)) (by simp)
    · obtain ⟨hedits, hsame⟩ :=
        onFileChanged_of_not_concerns (by simpa using hconcerns) d config
      exact ⟨hedits, fun _ _ => hsame⟩
  obtain ⟨hedits, hsame⟩ := hedits
  rcases dispatch_fileChanged_cases config filepath s with ⟨_, h⟩ | ⟨_, h⟩
  · rw [h]
    refine ⟨hedits.steps, ?_⟩
    intro _
    refine ⟨hedits.runningLinkTask.trans hidle, ?_⟩
    intro hguard hshould event hmem
    have hshould' : s.compiler.shouldLink = true := hedits.shouldLink.symm.trans hshould
    have hmem' : event ∈ s.world.events := by
      rw [← hedits.events]
      exact List.mem_of_mem_erase hmem
    have hnot := hundisturbed hguard hshould' event hmem'
    cases event with
    | fileChanged filepath' =>
        have hsame' := congrFun (hsame hguard hshould') filepath'
        exact hsame'.trans hnot
    | tryReload => rfl
  · rw [h]
    exact ⟨hedits.steps, fun hfalse => absurd hfalse (by simp)⟩

theorem dispatch_tryReload (config : LiveConfig) (hs : s.Gated d)
    (hdraining : s.world.draining = true)
    (htop : ∀ event ∈ s.world.events, event.priority ≤ LiveEvent.tryReload.priority) :
    Steps d s.core (s.dispatch config .tryReload).core ∧
      (s.dispatch config .tryReload).Gated d := by
  obtain ⟨hidle, _⟩ := hs hdraining
  refine ⟨.single (Session.link_step reloadCallback s fun _ => hidle), ?_⟩
  refine fun _ => ⟨hidle, ?_⟩
  intro _ _ event hmem
  cases event with
  | fileChanged filepath =>
      -- file events go first, so none is waiting
      have hpriority := htop _ (List.mem_of_mem_erase hmem)
      simp [LiveEvent.priority] at hpriority
  | tryReload => rfl

/-! ## Initialization -/

theorem updateDependenciesOf_queue (p : String) (w : LiveWorld) :
    (w.updateDependenciesOf p).1.events = w.events ∧
      (w.updateDependenciesOf p).1.draining = w.draining := by
  unfold LiveWorld.updateDependenciesOf
  split <;> exact ⟨rfl, rfl⟩

theorem loadProgram_queue (path : String) (w : LiveWorld) :
    (w.loadProgram path).1.events = w.events ∧ (w.loadProgram path).1.draining = w.draining := by
  unfold LiveWorld.loadProgram
  dsimp only
  split <;> exact ⟨rfl, rfl⟩

theorem generateDatabase_queue (config : LiveConfig) (w : LiveWorld) :
    (w.generateDatabase config).1.events = w.events ∧
      (w.generateDatabase config).1.draining = w.draining := by
  unfold LiveWorld.generateDatabase
  split <;> exact ⟨rfl, rfl⟩

/-- The initialization is made of edits. -/
theorem edits_initRule (d : Discipline) (config : LiveConfig) (s₀ : Live) :
    InitRule config (Edits d s₀) where
  emitLogs _ l h := h.emitLogs l
  generateDatabase _ h := h.act (fun w => (generateDatabase_queue config w).1)
    fun w => (generateDatabase_queue config w).2
  enterUnits _ _ _ _ h := h.act (fun _ => rfl) fun _ => rfl
  updateDirectoryFilters _ h := h.act (fun _ => rfl) fun _ => rfl
  updateDependenciesOf _ p h := h.act (fun w => (updateDependenciesOf_queue p w).1)
    fun w => (updateDependenciesOf_queue p w).2
  setupFileWatcher _ h := h.act (fun _ => rfl) fun _ => rfl
  loadProgram _ path h := h.act (fun w => (loadProgram_queue path w).1)
    fun w => (loadProgram_queue path w).2
  loadExportedSymbols _ h := h.act (fun _ => rfl) fun _ => rfl

theorem create_edits {config : LiveConfig} {filepath : String} {out : Outside}
    {memory : ProcessMemory} (h : create config filepath out memory = some s) :
    Edits d { world := { outside := out, memory } } s :=
  (edits_initRule d config _).create (.refl _) h

end Live

/-- Every run of the library is made of small steps of its compiler. -/
theorem LiveRun.reached {d : Discipline} {P : Live → LiveCall → Prop} {s : Live}
    (hP : d.compileGuarded → ∀ s call, P s call → s.DrainsIdle d.config call)
    (h : LiveRun d.config P s) : Reached d s.compiler s.trace ∧ s.Gated d := by
  induction h with
  | start filepath out memory hs =>
      have hedits := Live.create_edits (d := d) hs
      refine ⟨hedits.steps, ?_⟩
      intro hdraining
      rw [hedits.draining] at hdraining
      exact absurd hdraining (by simp)
  | @call s _ call hallowed hcall ih =>
      obtain ⟨hreached, hgated⟩ := ih
      cases call with
      | fileAction directory filename =>
          refine ⟨hreached, ?_⟩
          simp only [Live.perform, Live.fileAction, Live.Gated, Live.Undisturbed,
            Session.modifyWorld_compiler, Session.modifyWorld_world]
          split
          · exact hgated
          · exact hgated
      | tryReload =>
          refine ⟨hreached.trans (Session.foldl_host_steps _ s), ?_⟩
          intro hdraining
          obtain ⟨hidle, hundisturbed⟩ := hgated hdraining
          refine ⟨hidle, ?_⟩
          intro hguard hshould event hmem
          cases event with
          | fileChanged filepath =>
              refine hundisturbed hguard hshould (.fileChanged filepath) ?_
              simpa [Live.perform, Live.tryReload] using hmem
          | tryReload => rfl
      | write memory => exact ⟨hreached, hgated⟩
      | tick out env =>
          refine ⟨Live.poll_reached env rfl hreached, ?_⟩
          intro hdraining
          exact ⟨Live.poll_idle hdraining, fun hguard => hP hguard s _ hcall hdraining⟩
      | dispatch out event =>
          obtain ⟨hdraining, hevent, htop⟩ := hallowed
          have hasked : (s.ask out).Gated d := hgated
          cases event with
          | fileChanged filepath =>
              obtain ⟨hsteps, hgated'⟩ :=
                Live.dispatch_fileChanged d.config hasked hdraining hevent
              exact ⟨hreached.trans hsteps, hgated'⟩
          | tryReload =>
              obtain ⟨hsteps, hgated'⟩ :=
                Live.dispatch_tryReload d.config hasked hdraining htop
              exact ⟨hreached.trans hsteps, hgated'⟩
      | finish => exact ⟨hreached, fun hdraining => absurd hdraining (by simp [Live.perform])⟩

/-- The discipline that only gates the linking asks nothing of the calls. -/
theorem LiveRun.reached_gated {config : LiveConfig} {P : Live → LiveCall → Prop} {s : Live}
    (h : LiveRun config P s) :
    Reached (.gated config) s.compiler s.trace ∧ s.Gated (.gated config) :=
  LiveRun.reached (d := .gated config) (fun hguard => hguard.elim) h

/-! ## Small runs

A world in which every file exists and no depfile can be opened, for runs on concrete
inputs. A command is the name of its object file there. -/

def FileSystem.full : FileSystem where
  access _ := true
  realpath := some
  isDirectory _ := true
  read _ := none

def Outside.ofCommands (commands : List CompileCommand) : Outside where
  fs := .full
  ls _ := []
  database _ := .entries commands
  parseCommand command := some { output := command }
  filterCompilationUnit _ := true
  xcodebuildStatus := 0
  loadedProgramsPaths := []
  programSymbols _ := {}
  exportedSymbolNames _ := []
  linkTimeRelocations _ := []
  arch := .x86_64
  patchStatus _ := 0
  hookStatus _ := 0
  dependentsOrder := .increasing
  dependencyOrder := .increasing
  unitOrder := .increasing
  newUnitOrder := .increasing
  readyOrder := .increasing

def twoUnits : List CompileCommand :=
  [⟨"a.o", "/p", "/p/a.cpp"⟩, ⟨"b.o", "/p", "/p/b.cpp"⟩]

namespace Live

def started (commands : List CompileCommand) : Live :=
  (create {} "/p/compile_commands.json" (.ofCommands commands) fun _ => 0).getD
    { world := { outside := .ofCommands commands, memory := fun _ => 0 } }

def after (commands : List CompileCommand) (calls : List LiveCall) : Live :=
  calls.foldl (perform {}) (started commands)

def AllowsAll (P : Live → LiveCall → Prop) : Live → List LiveCall → Prop
  | _, [] => True
  | s, call :: calls => (s.Allows call ∧ P s call) ∧ AllowsAll P (s.perform {} call) calls

instance (P : Live → LiveCall → Prop) [∀ s call, Decidable (P s call)] :
    ∀ (calls : List LiveCall) (s : Live), Decidable (AllowsAll P s calls)
  | [], _ => isTrue trivial
  | call :: calls, s =>
      have := instDecidableAllowsAll P calls (s.perform {} call)
      inferInstanceAs (Decidable (_ ∧ _))

end Live

theorem Live.create_started (commands : List CompileCommand) :
    Live.create {} "/p/compile_commands.json" (.ofCommands commands) (fun _ => 0) =
      some (.started commands) := by
  have hcreate : ∃ s, Live.create {} "/p/compile_commands.json" (.ofCommands commands)
      (fun _ => 0) = some s := ⟨_, rfl⟩
  obtain ⟨s, hs⟩ := hcreate
  rw [Live.started, hs, Option.getD_some]

theorem LiveRun.started (P : Live → LiveCall → Prop) (commands : List CompileCommand) :
    LiveRun {} P (.started commands) :=
  .start _ _ _ (Live.create_started commands)

theorem LiveRun.calls {P : Live → LiveCall → Prop} {s : Live} (h : LiveRun {} P s)
    (calls : List LiveCall) (hcalls : s.AllowsAll P calls) :
    LiveRun {} P (calls.foldl (Live.perform {}) s) := by
  induction calls generalizing s with
  | nil => exact h
  | cons call calls ih =>
      obtain ⟨⟨hallowed, hcall⟩, hcalls⟩ := hcalls
      exact ih (h.call call hallowed hcall) hcalls

end JetLive

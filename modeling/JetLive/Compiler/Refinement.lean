import JetLive.Compiler.Invariant

/-!
# The operations are made of small steps

For every operation of the compiler there is a sequence of small steps from the
state and the trace before it to those after it. The loops are taken apart here:
the loop over the running compilations, whose finished tasks are only removed
after it, the loop that starts pending compilations and the loop over the
undefined symbols.
-/

namespace JetLive

open Containers

namespace Compiler

def WellKeyed (c : Compiler) : Prop :=
  ∀ p task, c.runningCompilationTasks.lookup p = some task → task.cuOrLibFilepath = p

end Compiler

namespace Session

variable {W : Type*} {d : Discipline}

def core (s : Session W) : Compiler × CompilerTrace := (s.compiler, s.trace)

theorem compile_step (cu : CompilationUnit) (callback : FinishCallback) (s : Session W)
    (hguard : d.editGuarded → s.compiler.runningLinkTask = none)
    (hassert : d.compileGuarded → s.compiler.shouldLink = false) :
    Step d s.core (s.compile cu callback).core :=
  Step.compile _ _ cu callback hguard hassert

theorem remove_step (order : Iteration String) (p : String) (s : Session W)
    (hguard : d.editGuarded → s.compiler.runningLinkTask = none) :
    Step d s.core (s.remove order p).core :=
  Step.remove _ _ order p hguard

theorem link_step (callback : LinkFinishCallback) (s : Session W)
    (hguard : d.linkGuarded → s.compiler.runningLinkTask = none) :
    Step d s.core (s.link callback).core :=
  Step.link _ _ callback hguard

theorem addLog_step (severity : LogSeverity) (message : String) (s : Session W) :
    Step d s.core (s.addLog severity message).core :=
  Step.note _ _ _ trivial

theorem steps_emit {x : Compiler × CompilerTrace} {s : Session W} {e : Event} (he : e.Neutral)
    (h : Steps d x s.core) : Steps d x (s.emit e).core :=
  .tail h (Step.note _ _ e he)

theorem steps_addLog {x : Compiler × CompilerTrace} {s : Session W} (severity : LogSeverity)
    (message : String) (h : Steps d x s.core) : Steps d x (s.addLog severity message).core :=
  steps_emit trivial h

theorem foldl_host_steps (l : List HostEvent) (s : Session W) :
    Steps d s.core (l.foldl (fun s e => s.emit (.host e)) s).core := by
  induction l generalizing s with
  | nil => exact .refl
  | cons e l ih => exact .head (Step.note _ _ (.host e) trivial) (ih (s.emit (.host e)))

theorem callback_steps {x : Compiler × CompilerTrace} {e : Event} {s : Session W}
    (effect : W → W × List HostEvent) (h : Step d x (s.emit e).core) :
    Steps d x (s.callback e effect).core :=
  .head h (foldl_host_steps (effect s.world).2 { s.emit e with world := (effect s.world).1 })

theorem foldl_addLog_steps (severity : LogSeverity) (f : String → String) (l : List String)
    (s : Session W) : Steps d s.core (l.foldl (fun s el => s.addLog severity (f el)) s).core := by
  induction l generalizing s with
  | nil => exact .refl
  | cons el l ih => exact .head (addLog_step _ _ _) (ih _)

@[simp] theorem foldl_addLog_compiler (severity : LogSeverity) (f : String → String)
    (l : List String) (s : Session W) :
    (l.foldl (fun s el => s.addLog severity (f el)) s).compiler = s.compiler := by
  induction l generalizing s with
  | nil => rfl
  | cons el l ih => rw [List.foldl_cons, ih, addLog_compiler]

/-! ## Polling the compilations -/

theorem pollTask_steps (host : Host W) (env : Environment) (s : Session W) (key : String) :
    Steps d s.core (s.pollTask host env key).core := by
  unfold pollTask
  split
  · rename_i task status err hrun hexit
    by_cases hstatus : status = 0
    · subst hstatus
      refine .head (Step.addReady _ _ key task hrun) ?_
      refine .head (Step.note _ _ (.log .kInfo ("Success: " ++ task.filename)) trivial) ?_
      refine callback_steps _ (Step.succeed _ _ _ key task err hrun ?_ rfl)
      simp [Finmap.mem_insert]
    · simp only [hstatus, if_false]
      refine .head (addLog_step .kWarning (failureMessage task err) s) ?_
      refine .head (Step.dropReady _ _ key task hrun) ?_
      exact callback_steps _ (Step.fail _ _ _ key task status err hrun hstatus rfl)
  · exact .refl

@[simp] theorem pollTask_running (host : Host W) (env : Environment) (s : Session W)
    (key : String) :
    (s.pollTask host env key).compiler.runningCompilationTasks =
      s.compiler.runningCompilationTasks := by
  unfold pollTask
  split
  · rename_i status _ _ _
    by_cases hstatus : status = 0 <;> simp [hstatus]
  · rfl

theorem foldl_pollTask_steps (host : Host W) (env : Environment) (keys : List String)
    (s : Session W) : Steps d s.core (keys.foldl (pollTask host env) s).core := by
  induction keys generalizing s with
  | nil => exact .refl
  | cons key keys ih => exact (pollTask_steps host env s key).trans (ih _)

/-- The compilation of `p` has been polled: its status is recorded, and its object is
ready exactly on success. -/
def Polled (s : Session W) (p : String) : Prop :=
  ∃ task status, s.compiler.runningCompilationTasks.lookup p = some task ∧
    (history s.trace).latest p = some status ∧
    s.compiler.readyCompilationUnits.lookup p =
      if status = 0 then some ⟨p, task.objFilepath⟩ else none

theorem pollTask_polled_self (host : Host W) (env : Environment) (s : Session W)
    {key : String} {task : Task} (hkey : s.compiler.WellKeyed)
    (hrun : s.compiler.runningCompilationTasks.lookup key = some task)
    (hexit : (env.exitStatus key).isSome) : Polled (s.pollTask host env key) key := by
  obtain ⟨⟨status, err⟩, hexit⟩ := Option.isSome_iff_exists.mp hexit
  have hpath := hkey key task hrun
  refine ⟨task, status, by simpa using hrun, ?_, ?_⟩
  · simp [pollTask, hrun, hexit, hpath, History.next]
  · by_cases hstatus : status = 0 <;> simp [pollTask, hrun, hexit, hpath, hstatus]

theorem pollTask_polled_of_ne (host : Host W) (env : Environment) (s : Session W)
    {key p : String} (hkey : s.compiler.WellKeyed) (hne : p ≠ key) (h : Polled s p) :
    Polled (s.pollTask host env key) p := by
  obtain ⟨task, status, hrun, hlatest, hready⟩ := h
  refine ⟨task, status, by simpa using hrun, ?_⟩
  unfold pollTask
  split
  · rename_i task' status' err hrun' hexit
    have hpath := hkey key task' hrun'
    refine ⟨?_, ?_⟩
    · by_cases hstatus : status' = 0 <;>
        simp [hstatus, History.next, hpath, Function.update_of_ne hne, hlatest]
    · by_cases hstatus : status' = 0
      · simp [hstatus, hpath, Finmap.lookup_insert_of_ne _ hne, hready]
      · simp [hstatus, hpath, Finmap.lookup_erase_ne hne, hready]
  · exact ⟨hlatest, hready⟩

theorem foldl_pollTask_polled (host : Host W) (env : Environment) (keys : List String)
    (s : Session W) (hnodup : keys.Nodup) (hkey : s.compiler.WellKeyed) {p : String}
    (hp : p ∈ keys) (hrun : p ∈ s.compiler.runningCompilationTasks)
    (hexit : (env.exitStatus p).isSome) : Polled (keys.foldl (pollTask host env) s) p := by
  -- once polled, `p` stays polled, because the later elements of the loop are other paths
  have stays : ∀ (keys : List String) (s : Session W), s.compiler.WellKeyed → p ∉ keys →
      Polled s p → Polled (keys.foldl (pollTask host env) s) p := by
    intro keys
    induction keys with
    | nil => intro s _ _ h; exact h
    | cons key keys ih =>
        intro s hkey hp h
        have hne : p ≠ key := fun heq => hp (heq ▸ List.mem_cons_self)
        refine ih (s.pollTask host env key) ?_ (fun hmem => hp (List.mem_cons_of_mem _ hmem))
          (pollTask_polled_of_ne host env s hkey hne h)
        simpa [Compiler.WellKeyed] using hkey
  induction keys generalizing s with
  | nil => simp at hp
  | cons key keys ih =>
      have hkey' : (s.pollTask host env key).compiler.WellKeyed := by
        simpa [Compiler.WellKeyed] using hkey
      obtain ⟨hnot, hnodup⟩ := List.nodup_cons.mp hnodup
      rcases List.mem_cons.mp hp with rfl | hp
      · obtain ⟨task, htask⟩ := Finmap.mem_iff.mp hrun
        exact stays keys _ hkey' hnot (pollTask_polled_self host env s hkey htask hexit)
      · exact ih (s.pollTask host env key) hnodup hkey' hp (by simpa using hrun)

theorem eraseAll_steps (l : List String) (s : Session W) (hnodup : l.Nodup)
    (h : ∀ p ∈ l, Polled s p) :
    Steps d s.core (s.modify fun c =>
      { c with runningCompilationTasks := eraseAll c.runningCompilationTasks l }).core := by
  induction l generalizing s with
  | nil => exact .refl
  | cons p l ih =>
      obtain ⟨hnot, hnodup⟩ := List.nodup_cons.mp hnodup
      obtain ⟨task, status, hrun, hlatest, hready⟩ := h p List.mem_cons_self
      refine .head (Step.reap _ _ p task status hrun hlatest hready) ?_
      refine ih (s.modify fun c =>
        { c with runningCompilationTasks := c.runningCompilationTasks.erase p }) hnodup ?_
      intro q hq
      obtain ⟨task, status, hrun, hlatest, hready⟩ := h q (List.mem_cons_of_mem _ hq)
      have hne : q ≠ p := fun heq => hnot (heq ▸ hq)
      exact ⟨task, status, by simpa [Finmap.lookup_erase_ne hne] using hrun, hlatest, hready⟩

theorem pollCompilations_steps (host : Host W) (env : Environment) (s : Session W)
    (hkey : s.compiler.WellKeyed) : Steps d s.core (s.pollCompilations host env).core := by
  refine (foldl_pollTask_steps host env _ s).trans
    (eraseAll_steps _ _ ((env.runningOrder.nodup _).filter _) ?_)
  intro p hp
  obtain ⟨hp, hexit⟩ := List.mem_filter.mp hp
  refine foldl_pollTask_polled host env _ s (env.runningOrder.nodup _) hkey hp ?_ hexit
  exact Finmap.mem_keys.mp ((env.runningOrder.mem_toList _ _).mp hp)

/-! ## Starting compilations -/

theorem startPending_steps (pending : List PendingCompilationTask) (s : Session W)
    (hpending : s.compiler.pendingCompilationTasks = pending) :
    Steps d s.core (startPending d.config.workerThreadsCount pending s).core := by
  induction pending generalizing s with
  | nil => exact .refl
  | cons task rest ih =>
      unfold startPending
      split
      · rename_i hcard
        refine .trans ?_ (ih _ (by simp [doCompile, hpending]))
        refine .head (addLog_step .kInfo ("Compiling: " ++
          TeenyPath.filenameOf task.cu.sourceFilePath) s) ?_
        refine .head (Step.note _ _ (.compileStarted task.cu.sourceFilePath
          (compilationTask task.cu task.finishCallback).process) trivial) ?_
        have hstart := Step.start (d := d) s.compiler
          ((s.doCompile task.cu task.finishCallback).trace) task rest hpending hcard
        have hcore : ((s.doCompile task.cu task.finishCallback).modify fun c =>
            { c with pendingCompilationTasks := c.pendingCompilationTasks.tail }).core =
            ({ s.compiler with
               runningCompilationTasks := s.compiler.runningCompilationTasks.insert
                 task.cu.sourceFilePath (compilationTask task.cu task.finishCallback)
               pendingCompilationTasks := rest },
             (s.doCompile task.cu task.finishCallback).trace) := by
          simp [core, doCompile, hpending]
        rw [hcore]
        exact .single hstart
      · exact .refl

/-- If nothing is running after the start of pending compilations, then nothing is
pending either, unless there are no workers. -/
theorem startPending_idle (n : ℕ) (pending : List PendingCompilationTask) (s : Session W)
    (hpending : s.compiler.pendingCompilationTasks = pending)
    (hidle : (startPending n pending s).compiler.runningCompilationTasks.keys = ∅) :
    n = 0 ∨ (startPending n pending s).compiler.pendingCompilationTasks = [] := by
  induction pending generalizing s with
  | nil => exact Or.inr hpending
  | cons task rest ih =>
      unfold startPending at hidle ⊢
      split at hidle
      · rename_i hcard
        simp only [hcard, if_true]
        exact ih _ (by simp [doCompile, hpending]) hidle
      · rename_i hcard
        rw [hidle, Finset.card_empty] at hcard
        exact Or.inl (by omega)

/-! ## Linking -/

theorem resolveUndefined_steps (context : LiveContext) (env : Environment) (round : ℕ)
    (names : Finset String) (search : LinkSearch W)
    (hidle : d.editGuarded → search.session.compiler.runningLinkTask = none)
    (hshould : search.session.compiler.shouldLink = false) :
    Steps d search.session.core
      (resolveUndefined context env round names search).session.core := by
  fun_induction resolveUndefined context env round names search with
  | case1 => exact .refl
  | case2 _ _ _ _ _ _ ih => exact ih hidle hshould
  | case3 _ _ _ _ _ _ _ _ ih => exact ih hidle hshould
  | case4 _ _ search _ _ cu _ _ ih =>
      exact .head (compile_step cu .nothing search.session hidle fun _ => hshould)
        (ih hidle hshould)

@[simp] theorem resolveUndefined_runningLinkTask (context : LiveContext) (env : Environment)
    (round : ℕ) (names : Finset String) (search : LinkSearch W) :
    (resolveUndefined context env round names search).session.compiler.runningLinkTask =
      search.session.compiler.runningLinkTask := by
  fun_induction resolveUndefined context env round names search with
  | case1 => rfl
  | case2 _ _ _ _ _ _ ih => exact ih
  | case3 _ _ _ _ _ _ _ _ ih => exact ih
  | case4 _ _ _ _ _ _ _ _ ih => exact ih

theorem pendingCompilation_resolveUndefined (context : LiveContext) (env : Environment)
    (round : ℕ) (names : Finset String) (search : LinkSearch W)
    (h : search.pendingCompilation = true) :
    (resolveUndefined context env round names search).pendingCompilation = true := by
  fun_induction resolveUndefined context env round names search with
  | case1 => exact h
  | case2 _ _ _ _ _ _ ih => exact ih h
  | case3 _ _ _ _ _ _ _ _ ih => exact ih h
  | case4 _ _ _ _ _ _ _ _ ih => exact ih rfl

/-- A search that asks for no compilation has added no object to the link. -/
theorem resolveUndefined_eq_self (context : LiveContext) (env : Environment) (round : ℕ)
    (names : Finset String) (search : LinkSearch W)
    (h : (resolveUndefined context env round names search).pendingCompilation = false) :
    resolveUndefined context env round names search = search := by
  fun_induction resolveUndefined context env round names search with
  | case1 => rfl
  | case2 _ _ _ _ _ _ ih => exact ih h
  | case3 _ _ _ _ _ _ _ _ ih => exact ih h
  | case4 _ _ search _ _ cu _ _ ih =>
      rw [pendingCompilation_resolveUndefined context env _ _ _ rfl] at h
      exact absurd h (by simp)

theorem mem_readyList (order : Iteration String) (c : Compiler) (cu : ShortCompilationUnit) :
    cu ∈ c.readyList order ↔ ∃ p, c.readyCompilationUnits.lookup p = some cu := by
  unfold Compiler.readyList
  rw [List.mem_filterMap]
  constructor
  · rintro ⟨p, _, hp⟩
    exact ⟨p, hp⟩
  · rintro ⟨p, hp⟩
    refine ⟨p, ?_, hp⟩
    rw [Iteration.mem_toList, Finmap.mem_keys]
    exact Finmap.mem_of_lookup_eq_some hp

theorem startLink_steps (env : Environment) (callback : LinkFinishCallback)
    (objectFilePaths : List String) (s : Session W)
    (hidle : d.linkGuarded → s.compiler.runningLinkTask = none)
    (hshould : s.compiler.shouldLink = false)
    (hrunning : s.compiler.runningCompilationTasks = ∅)
    (hpending : d.config.workerThreadsCount = 0 ∨ s.compiler.pendingCompilationTasks = [])
    (hfailed : s.compiler.failedCompilationUnits = [])
    (hready : s.compiler.readyCompilationUnits ≠ ∅) (hnodup : objectFilePaths.Nodup)
    (hobjects : ∀ o, o ∈ objectFilePaths ↔
      ∃ p cu, s.compiler.readyCompilationUnits.lookup p = some cu ∧ cu.objFilepath = o) :
    Steps d s.core (s.startLink d.config env callback objectFilePaths).core := by
  refine .tail ?_ (Step.linkStart _ _ _ _ hidle hshould hrunning hpending hfailed hready
    ⟨_, _, objectFilePaths, rfl, hnodup, hobjects⟩)
  exact steps_addLog .kDebug _ (steps_addLog .kInfo "Linking..." .refl)

theorem doLink_steps (context : LiveContext) (env : Environment) (callback : LinkFinishCallback)
    (s : Session W) (hidle : d.linkGuarded → s.compiler.runningLinkTask = none)
    (hshould : s.compiler.shouldLink = false)
    (hrunning : s.compiler.runningCompilationTasks = ∅)
    (hpending : d.config.workerThreadsCount = 0 ∨ s.compiler.pendingCompilationTasks = [])
    (hfailed : s.compiler.failedCompilationUnits = []) :
    Steps d s.core (s.doLink d.config context env callback).core := by
  unfold doLink
  split
  · exact .single (addLog_step _ _ _)
  rename_i hready
  -- clearing the flag before the search changes nothing: the request has been taken already
  have hsame : (s.modify fun c => { c with shouldLink := false }) = s := by
    simp [modify, ← hshould]
  simp only [hsame]
  split
  · have hsearch := resolveUndefined_steps context env 0 (((s.compiler.readyList
      env.readyOrder)).foldl (fun names cu => names ∪ env.undefinedSymbolNames cu.objFilepath) ∅)
      ⟨s, ((s.compiler.readyList env.readyOrder).map fun cu => cu.objFilepath).toFinset, false⟩
      (fun hedit => hidle (d.linkGuarded_of_edit hedit)) hshould
    refine .tail hsearch (Step.defer _ _ callback ?_)
    intro hlink
    rw [resolveUndefined_runningLinkTask]
    exact hidle hlink
  · rename_i hsearch
    rw [resolveUndefined_eq_self context env _ _ _ (by simpa using hsearch)]
    refine startLink_steps env callback _ s hidle hshould hrunning hpending hfailed ?_
      (env.objectOrder.nodup _) ?_
    · rintro hempty
      simp [hempty] at hready
    · intro o
      rw [Iteration.mem_toList, List.mem_toFinset, List.mem_map]
      constructor
      · rintro ⟨cu, hcu, rfl⟩
        obtain ⟨p, hp⟩ := (mem_readyList _ _ _).mp hcu
        exact ⟨p, cu, hp, rfl⟩
      · rintro ⟨p, cu, hp, rfl⟩
        exact ⟨cu, (mem_readyList _ _ _).mpr ⟨p, hp⟩, rfl⟩

theorem logFailed_steps (s : Session W) : Steps d s.core s.logFailed.core :=
  steps_addLog _ _ (.head (addLog_step _ _ s) (foldl_addLog_steps _ _ _ _))

@[simp] theorem logFailed_compiler (s : Session W) : s.logFailed.compiler = s.compiler := by
  rw [logFailed, addLog_compiler, foldl_addLog_compiler, addLog_compiler]

theorem decideLink_steps (host : Host W) (env : Environment) (s : Session W)
    (hexclusive : d.linkGuarded → s.compiler.Exclusive)
    (hpending : s.compiler.runningCompilationTasks.keys = ∅ →
      d.config.workerThreadsCount = 0 ∨ s.compiler.pendingCompilationTasks = []) :
    Steps d s.core (s.decideLink host d.config env).core := by
  unfold decideLink
  split
  · rename_i hlink
    obtain ⟨hidle, hshould⟩ := hlink
    refine .head (Step.takeRequest _ _) ?_
    dsimp only
    split
    · rename_i hfailed
      exact doLink_steps _ env _ (s.modify fun c => { c with shouldLink := false })
        (fun hlink => hexclusive hlink hshould) rfl (eq_empty_of_keys hidle) (hpending hidle)
        hfailed
    · rename_i hfailed
      set taken := s.modify fun c => { c with shouldLink := false }
      have hrefuse : Step d taken.logFailed.core (taken.logFailed.emit (.linkRefused
          taken.logFailed.compiler.pendingLinkingFinishCallback)).core := by
        refine Step.refuse _ _ _ ?_
        rw [logFailed_compiler]
        exact hfailed
      exact (logFailed_steps taken).trans (callback_steps _ hrefuse)
  · exact .refl

theorem loadLibrary_steps (env : Environment) (libPath : String) (status : ℤ) (s : Session W) :
    Steps d s.core (s.loadLibrary env libPath status).1.core := by
  unfold loadLibrary
  split
  · cases env.dlerror with
    | none => exact steps_addLog _ _ (steps_emit trivial (steps_addLog _ _ .refl))
    | some err => exact steps_addLog _ _ (steps_emit trivial (steps_addLog _ _ .refl))
  · exact .refl

@[simp] theorem loadLibrary_compiler (env : Environment) (libPath : String) (status : ℤ)
    (s : Session W) : (s.loadLibrary env libPath status).1.compiler = s.compiler := by
  unfold loadLibrary
  split
  · cases env.dlerror <;> rfl
  · rfl

theorem pollLink_steps (host : Host W) (env : Environment) (s : Session W) :
    Steps d s.core (s.pollLink host env).core := by
  unfold pollLink
  split
  · rename_i task exitStatus err htask hexit
    set logged := if exitStatus ≠ 0 then
        s.addLog .kWarning ("Link failed: " ++ task.cuOrLibFilepath ++ "\n" ++ err)
      else s.addLog .kInfo "Linked successfully" with hlogged
    have hlog : Steps d s.core logged.core := by
      rw [hlogged]
      split <;> exact steps_addLog _ _ .refl
    have hcompiler : logged.compiler = s.compiler := by
      rw [hlogged]
      split <;> rfl
    have hload := loadLibrary_steps (d := d) env task.cuOrLibFilepath exitStatus logged
    refine .tail ((hlog.trans hload).trans (callback_steps _ (Step.report _ _ task _ _ err ?_
      ⟨env.readyOrder, rfl⟩))) (Step.reset _ _ _ task _ ?_ ?_ rfl)
    · rw [loadLibrary_compiler, hcompiler, htask]
    · rw [callback_compiler, loadLibrary_compiler, hcompiler, htask]
    · intro hstatus
      rw [history_callback, History.next]
      simp [hstatus]
  · exact .refl

def beforeDecideLink (host : Host W) (config : LiveConfig) (env : Environment)
    (s : Session W) : Session W :=
  let s := s.pollCompilations host env
  startPending config.workerThreadsCount s.compiler.pendingCompilationTasks s

def beforePollLink (host : Host W) (config : LiveConfig) (env : Environment) (s : Session W) :
    Session W :=
  let s := s.pollCompilations host env
  (startPending config.workerThreadsCount s.compiler.pendingCompilationTasks s).decideLink host
    config env

theorem update_eq (host : Host W) (config : LiveConfig) (env : Environment) (s : Session W) :
    s.update host config env = (s.beforePollLink host config env).pollLink host env := rfl

theorem beforeDecideLink_steps (host : Host W) (env : Environment) (s : Session W)
    (hkey : s.compiler.WellKeyed) :
    Steps d s.core (s.beforeDecideLink host d.config env).core :=
  (pollCompilations_steps host env s hkey).trans
    (startPending_steps _ (s.pollCompilations host env) rfl)

theorem beforePollLink_steps (host : Host W) (env : Environment) (s : Session W)
    (hkey : s.compiler.WellKeyed) (hexclusive : d.linkGuarded → s.compiler.Exclusive) :
    Steps d s.core (s.beforePollLink host d.config env).core := by
  have hbefore := beforeDecideLink_steps (d := d) host env s hkey
  have hdecide := decideLink_steps (d := d) host env _
    (fun hlink => Steps.invariant (I := fun c _ => c.Exclusive)
      (fun _ _ _ _ hstep hc => hc.step hstep hlink) hbefore (hexclusive hlink))
    (startPending_idle d.config.workerThreadsCount _ (s.pollCompilations host env) rfl)
  exact hbefore.trans hdecide

/-- The runloop method is made of small steps. -/
theorem update_steps (host : Host W) (env : Environment) (s : Session W)
    (hkey : s.compiler.WellKeyed) (hexclusive : d.linkGuarded → s.compiler.Exclusive) :
    Steps d s.core (s.update host d.config env).core := by
  rw [update_eq]
  exact (beforePollLink_steps host env s hkey hexclusive).trans (pollLink_steps host env _)

end Session

end JetLive

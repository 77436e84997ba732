import JetLive.Compiler.Records
import JetLive.Compiler.ThreadSafety
import JetLive.Compiler.TraceIndependence

/-!
# The threads refine the atomic compiler

Whatever the readers and the processes do in between, the calls of the main thread have the
effect that `Compiler/Run.lean` gives them, with answers that are true: the status of a
compilation is the one its process has exited with, and its message is what this process has
written, up to what was read before the task was entered; likewise for the link process.

`SessionOk` compares the map of the tasks, which the threads see, with the session that the
main thread has in its hands, and the progress of a call of `update` with its parts.
-/

namespace JetLive

open Containers ChildProcesses

/-- The runs in which the answers to every call of `update` satisfy `A`. -/
inductive RunWith {W : Type*} (host : Host W) (d : Discipline) (A : Environment → Prop) :
    Session W → Prop
  | start (w : W) : RunWith host d A { world := w }
  | call {s : Session W} (h : RunWith host d A s) (call : Call)
      (hallowed : call.Allowed d s.compiler) (hanswers : ∀ env, call = .update env → A env) :
      RunWith host d A (s.perform host d.config call)
  | outside {s : Session W} (h : RunWith host d A s) (w : W) :
      RunWith host d A { s with world := w }

namespace RunWith

variable {W : Type*} {host : Host W} {d : Discipline} {A B : Environment → Prop} {s : Session W}

theorem run (h : RunWith host d A s) : Run host d s := by
  induction h with
  | start w => exact .start w
  | call _ call hallowed _ ih => exact ih.call call hallowed
  | outside _ w ih => exact ih.outside w

theorem mono (h : RunWith host d A s) (hAB : ∀ env, A env → B env) : RunWith host d B s := by
  induction h with
  | start w => exact .start w
  | call _ call hallowed hanswers ih =>
      exact ih.call call hallowed fun env henv => hAB env (hanswers env henv)
  | outside _ w ih => exact ih.outside w

end RunWith

/-! ## What the parts of `update` change -/

namespace Session

variable {W : Type*}

/-- The poll of the compilations changes the running tasks only at its end. -/
theorem pollCompilations_running (host : Host W) (env : Environment) (s : Session W) :
    (s.pollCompilations host env).compiler.runningCompilationTasks =
      eraseAll s.compiler.runningCompilationTasks
        ((env.runningOrder.toList s.compiler.runningCompilationTasks.keys).filter
          fun key => (env.exitStatus key).isSome) := by
  have hfold : ∀ (keys : List String) (s : Session W),
      (keys.foldl (pollTask host env) s).compiler.runningCompilationTasks =
        s.compiler.runningCompilationTasks := by
    intro keys
    induction keys with
    | nil => exact fun _ => rfl
    | cons key keys ih => exact fun s => (ih _).trans (pollTask_running host env s key)
  simp only [pollCompilations, modify_compiler, hfold]

theorem pollTask_isLinking (host : Host W) (env : Environment) (s : Session W) (key : String) :
    (s.pollTask host env key).compiler.isLinking = s.compiler.isLinking := by
  unfold pollTask
  split
  · rename_i status _ _ _
    by_cases hstatus : status = 0 <;> simp [hstatus, Compiler.isLinking]
  · rfl

theorem pollCompilations_isLinking (host : Host W) (env : Environment) (s : Session W) :
    (s.pollCompilations host env).compiler.isLinking = s.compiler.isLinking := by
  have hfold : ∀ (keys : List String) (s : Session W),
      (keys.foldl (pollTask host env) s).compiler.isLinking = s.compiler.isLinking := by
    intro keys
    induction keys with
    | nil => exact fun _ => rfl
    | cons key keys ih => exact fun s => (ih _).trans (pollTask_isLinking host env s key)
  exact hfold _ s

theorem resolveUndefined_running (context : LiveContext) (env : Environment) (round : ℕ)
    (names : Finset String) (search : LinkSearch W)
    (hidle : search.session.compiler.runningCompilationTasks = ∅) :
    (resolveUndefined context env round names search).session.compiler.runningCompilationTasks =
      ∅ := by
  fun_induction resolveUndefined context env round names search with
  | case1 => exact hidle
  | case2 _ _ _ _ _ _ ih => exact ih hidle
  | case3 _ _ _ _ _ _ _ _ ih => exact ih hidle
  | case4 _ _ search _ _ cu _ _ ih =>
      apply ih
      simp only [compile, modify_compiler, emit_compiler, Compiler.enqueue, hidle]
      apply Finmap.ext_lookup
      intro p
      by_cases hp : p = cu.sourceFilePath
      · subst hp
        simp
      · rw [Finmap.lookup_erase_ne hp]

/-- The decision about linking is made when nothing is running, and leaves it so. -/
theorem decideLink_running (host : Host W) (config : LiveConfig) (env : Environment)
    (s : Session W) :
    (s.decideLink host config env).compiler.runningCompilationTasks =
      s.compiler.runningCompilationTasks := by
  unfold decideLink
  split
  · rename_i hlink
    have hidle := eq_empty_of_keys hlink.1
    dsimp only
    split
    · unfold doLink
      split
      · rfl
      · dsimp only
        split
        · rw [modify_compiler, hidle]
          exact resolveUndefined_running _ _ _ _ _ hidle
        · rw [startLink, hidle]
          exact resolveUndefined_running _ _ _ _ _ hidle
    · simp
  · rfl

/-- The decision about linking does not end a link. -/
theorem decideLink_isLinking (host : Host W) (config : LiveConfig) (env : Environment)
    {s : Session W} (hlinking : s.compiler.isLinking = true) :
    (s.decideLink host config env).compiler.isLinking = true := by
  unfold decideLink
  split
  · dsimp only
    split
    · unfold doLink
      split
      · exact hlinking
      · dsimp only
        split
        · simpa [Compiler.isLinking] using hlinking
        · rfl
    · simpa [Compiler.isLinking] using hlinking
  · exact hlinking

/-- Only the last part of `update` looks at the answer about the link process. -/
theorem resolveUndefined_withLink (answer : Option (ℤ × String)) (context : LiveContext)
    (env : Environment) (round : ℕ) (names : Finset String) (search : LinkSearch W) :
    resolveUndefined context (env.withLink answer) round names search =
      resolveUndefined context env round names search := by
  fun_induction resolveUndefined context env round names search with
  | case1 round names search hnone => exact resolveUndefined_of_none hnone
  | case2 round names search name hname hcu ih =>
      rw [← ih]
      exact resolveUndefined_of_no_owner hname hcu
  | case3 round names search name hname cu hcu hobj ih =>
      rw [← ih]
      have howner : resolveUndefined context (env.withLink answer) round names search = _ :=
        resolveUndefined_of_owner hname hcu
      exact howner.trans (if_pos hobj)
  | case4 round names search name hname cu hcu hobj ih =>
      rw [← ih]
      have howner : resolveUndefined context (env.withLink answer) round names search = _ :=
        resolveUndefined_of_owner hname hcu
      exact howner.trans (if_neg hobj)

theorem beforePollLink_withLink (answer : Option (ℤ × String)) (host : Host W)
    (config : LiveConfig) (env : Environment) (s : Session W) :
    s.beforePollLink host config (env.withLink answer) = s.beforePollLink host config env := by
  have hdecide : ∀ t : Session W,
      t.decideLink host config (env.withLink answer) = t.decideLink host config env := by
    intro t
    simp only [decideLink, doLink, resolveUndefined_withLink]
    rfl
  exact hdecide _

/-- The poll of the link process leaves the compilations alone. -/
theorem pollLink_running (host : Host W) (env : Environment) (s : Session W) :
    (s.pollLink host env).compiler.runningCompilationTasks =
      s.compiler.runningCompilationTasks := by
  rcases pollLink_cases host env s with h | ⟨_, _, _, _, s₁, _, _, hs₁, _, _, h⟩
  · rw [h]
  · rw [h]
    simp [hs₁]

theorem pollLink_of_unanswered (host : Host W) (env : Environment) (s : Session W) :
    s.pollLink host (env.withLink none) = s := by
  rcases pollLink_cases host (env.withLink none) s with h | ⟨_, _, _, _, _, _, hexit, _⟩
  · exact h
  · simp [Environment.withLink] at hexit

theorem pollLink_isLinking_of_answered (host : Host W) (env : Environment) (s : Session W)
    (answer : ℤ × String) :
    (s.pollLink host (env.withLink (some answer))).compiler.isLinking = false := by
  unfold pollLink
  split
  · rfl
  · rename_i hnone
    cases htask : s.compiler.runningLinkTask with
    | none => simp [Compiler.isLinking, htask]
    | some task => exact absurd rfl (hnone task answer.1 answer.2 htask)

end Session

namespace Threads

variable {W : Type*} {host : Host W} {d : Discipline} {s s' : Threads W}

/-! ## The session in the hands of the main thread -/

/-- The session that the main thread works on. -/
def view (s : Threads W) : Session W :=
  match s.main with
  | .starting _ t | .entering _ t _ _ | .deciding _ t | .installing _ t | .finishing _ t
  | .awaitingLink _ t _ => t
  | _ => s.session

/-- The paths of tasks that are out of the map before the call has finished. -/
def takenOut (s : Threads W) : Finset String :=
  match s.main with
  | .joining edit _ | .relocking edit | .editing edit => {edit.path}
  | _ => ∅

/-- How far the main thread is in its call. -/
def Underway (host : Host W) (d : Discipline) (s : Threads W) : Prop :=
  match s.main with
  | .locking edit | .locked edit | .killing edit _ | .joining edit _ | .relocking edit
  | .editing edit => edit.call.Allowed d s.session.compiler
  | .starting env t =>
      Reached d t.compiler t.trace ∧
        Session.startPending d.config.workerThreadsCount t.compiler.pendingCompilationTasks t =
          s.session.beforeDecideLink host d.config env
  | .entering env t _ pendingTask =>
      Reached d t.compiler t.trace ∧
        Session.startPending d.config.workerThreadsCount t.compiler.pendingCompilationTasks t =
          s.session.beforeDecideLink host d.config env ∧
        (∃ rest, t.compiler.pendingCompilationTasks = pendingTask :: rest) ∧
        t.compiler.runningCompilationTasks.keys.card < d.config.workerThreadsCount
  | .deciding env t => t = s.session.beforeDecideLink host d.config env
  | .installing env t | .finishing env t | .awaitingLink env t _ =>
      t = s.session.beforePollLink host d.config env
  | _ => True

/-- A compilation with this status and message was reported. Its process has exited with the
status, and what it has written is the message after what was heard before the task was
entered. -/
def Reported (key : String) (status : ℤ) (err : String) (s : Threads W) : Prop :=
  ∃ pid < s.started, s.sources pid = key ∧ (s.children pid).reader = .ended ∧
    (s.children pid).exitStatus = some status ∧ (s.children pid).output = s.unheard pid ++ err

def ReportedLink (status : ℤ) (err : String) (s : Threads W) : Prop :=
  ∃ c ∈ s.pastLinkers, c.exitStatus = some status ∧ c.output = err

structure Truthful (s : Threads W) (env : Environment) : Prop where
  compilations : ∀ key status err, env.exitStatus key = some (status, err) →
    s.Reported key status err
  linker : ∀ status err, env.linkExitStatus = some (status, err) → s.ReportedLink status err

/-- The answers that `update` goes on with after it has polled the compilations. -/
def polled (s : Threads W) : Option Environment :=
  match s.main with
  | .starting env _ | .entering env _ _ _ | .deciding env _ | .installing env _
  | .finishing env _ | .awaitingLink env _ _ => some env
  | _ => none

/-! ## Reports stay true -/

/-- Nothing happens any more to the processes that have exited and whose readers have ended. -/
structure Settles (s s' : Threads W) : Prop where
  started : s.started ≤ s'.started
  sources : ∀ pid < s.started, s'.sources pid = s.sources pid
  children : ∀ pid < s.started, (s.children pid).reader = .ended →
    (s.children pid).exitStatus ≠ none →
    s'.children pid = s.children pid ∧ s'.unheard pid = s.unheard pid
  pastLinkers : ∀ c ∈ s.pastLinkers, c ∈ s'.pastLinkers

theorem Background.settles (h : s.TasksOk) (hstep : Background s s') : Settles s s' := by
  -- a reader at work on its callback has not ended
  have hother : ∀ pid pid', (s.children pid).reader = .ended → (s.children pid').reader ≠ .ended →
      pid ≠ pid' := by
    rintro pid _ hended halive rfl
    exact halive hended
  cases hstep with
  | child pid child' hchild =>
      refine ⟨Nat.le_refl _, fun _ _ => rfl, ?_, fun _ => id⟩
      intro pid' _ hended hexit
      refine ⟨?_, rfl⟩
      by_cases hpid : pid' = pid
      · subst hpid
        simp [setChild, hchild.eq_of_ended (h.conserves pid') hended hexit]
      · simp [setChild, hpid]
  | acquire pid bytes hcalling hfree =>
      refine ⟨Nat.le_refl _, fun _ _ => rfl, ?_, fun _ => id⟩
      intro pid' _ hended _
      simp [setChild, hother pid' pid hended (by simp [hcalling])]
  | deliver pid bytes hinside =>
      refine ⟨?_, ?_, ?_, ?_⟩
      · simp [setChild]
      · simp [setChild]
      · intro pid' _ hended _
        have hne := hother pid' pid hended (by simp [hinside])
        refine ⟨by simp [setChild, hne], ?_⟩
        exact hear_unheard_of_ne hne
      · simp [setChild]
  | release pid hleaving =>
      refine ⟨Nat.le_refl _, fun _ _ => rfl, ?_, fun _ => id⟩
      intro pid' _ hended _
      simp [setChild, hother pid' pid hended (by simp [hleaving])]
  | linker | deliverLink | faultLink =>
      exact ⟨Nat.le_refl _, fun _ _ => rfl, fun _ _ _ _ => ⟨rfl, rfl⟩, fun _ => id⟩

theorem Main.settles (hstep : Main host d s s') : Settles s s' := by
  cases hstep
  case fork env t pendingTask rest hmain hpending hcard =>
    refine ⟨Nat.le_succ _, ?_, ?_, fun _ => id⟩
    · intro pid hpid
      exact Function.update_of_ne (by omega) _ _
    · intro pid hpid _ _
      exact ⟨Function.update_of_ne (by omega) _ _, rfl⟩
  case reportLink env t status err hmain hended htask =>
    exact ⟨Nat.le_refl _, fun _ _ => rfl, fun _ _ _ _ => ⟨rfl, rfl⟩,
      fun _ => List.mem_cons_of_mem _⟩
  all_goals exact ⟨Nat.le_refl _, fun _ _ => rfl, fun _ _ _ _ => ⟨rfl, rfl⟩, fun _ => id⟩

theorem Reported.mono {key : String} {status : ℤ} {err : String} (h : s.Reported key status err)
    (hs : Settles s s') : s'.Reported key status err := by
  obtain ⟨pid, hpid, hsource, hended, hexit, houtput⟩ := h
  obtain ⟨hchild, hunheard⟩ := hs.children pid hpid hended (by simp [hexit])
  refine ⟨pid, Nat.lt_of_lt_of_le hpid hs.started, ?_, ?_, ?_, ?_⟩
  · rw [hs.sources pid hpid, hsource]
  · rw [hchild, hended]
  · rw [hchild, hexit]
  · rw [hchild, hunheard, houtput]

theorem Truthful.mono {env : Environment} (h : s.Truthful env) (hs : Settles s s') :
    s'.Truthful env := by
  refine ⟨fun key status err hkey => (h.compilations key status err hkey).mono hs, ?_⟩
  intro status err herr
  obtain ⟨c, hc, hreport⟩ := h.linker status err herr
  exact ⟨c, hs.pastLinkers c hc, hreport⟩

/-- An answer of a task whose process has exited and whose reader has ended is true. -/
theorem TasksOk.reported (h : s.TasksOk) {env : Environment} (hanswered : s.Answered env)
    {key : String} {status : ℤ} {err : String} (hkey : env.exitStatus key = some (status, err)) :
    s.Reported key status err := by
  obtain ⟨pid, htask, hended, hexit⟩ := hanswered key status err hkey
  obtain ⟨hsource, hborn⟩ := h.source _ _ htask
  refine ⟨pid, hborn, hsource, hended, hexit, ?_⟩
  rw [← (h.conserves pid).delivered_of_ended hended]
  exact h.heard _ _ htask

/-! ## The calls of the main thread -/

/-- The map of the tasks and the progress of the call agree with the session. -/
structure SessionOk (host : Host W) (d : Discipline) (s : Threads W) : Prop where
  run : RunWith host d s.Truthful s.session
  tasks : ∀ p, p ∈ s.runningCompilationTasks ↔
    p ∈ s.view.compiler.runningCompilationTasks ∧ p ∉ s.takenOut
  underway : s.Underway host d
  answers : ∀ env, s.polled = some env → ∀ key status err,
    env.exitStatus key = some (status, err) → s.Reported key status err

/-- The session after a start of a compilation. -/
theorem startOne_compiler {t : Session W} {pendingTask : PendingCompilationTask}
    {rest : List PendingCompilationTask}
    (hpending : t.compiler.pendingCompilationTasks = pendingTask :: rest) :
    (startOne pendingTask t).compiler =
      { t.compiler with
        runningCompilationTasks := t.compiler.runningCompilationTasks.insert
          pendingTask.cu.sourceFilePath
          (compilationTask pendingTask.cu pendingTask.finishCallback)
        pendingCompilationTasks := rest } := by
  simp [startOne, Session.doCompile, hpending]

theorem startOne_steps {t : Session W} {pendingTask : PendingCompilationTask}
    {rest : List PendingCompilationTask}
    (hpending : t.compiler.pendingCompilationTasks = pendingTask :: rest)
    (hcard : t.compiler.runningCompilationTasks.keys.card < d.config.workerThreadsCount) :
    Steps d t.core (startOne pendingTask t).core := by
  refine .head (Session.addLog_step .kInfo ("Compiling: " ++
    TeenyPath.filenameOf pendingTask.cu.sourceFilePath) t) ?_
  refine .head (Step.note _ _ (.compileStarted pendingTask.cu.sourceFilePath
    (compilationTask pendingTask.cu pendingTask.finishCallback).process) trivial) ?_
  have hcore : (startOne pendingTask t).core =
      ({ t.compiler with
         runningCompilationTasks := t.compiler.runningCompilationTasks.insert
           pendingTask.cu.sourceFilePath
           (compilationTask pendingTask.cu pendingTask.finishCallback)
         pendingCompilationTasks := rest },
       (t.doCompile pendingTask.cu pendingTask.finishCallback).trace) := by
    rw [Session.core, startOne_compiler hpending]
    rfl
  rw [hcore]
  exact .single (Step.start _ _ pendingTask rest hpending hcard)

theorem startPending_startOne {t : Session W} {pendingTask : PendingCompilationTask}
    {rest : List PendingCompilationTask} {n : ℕ}
    (hpending : t.compiler.pendingCompilationTasks = pendingTask :: rest)
    (hcard : t.compiler.runningCompilationTasks.keys.card < n) :
    Session.startPending n (startOne pendingTask t).compiler.pendingCompilationTasks
      (startOne pendingTask t) =
      Session.startPending n t.compiler.pendingCompilationTasks t := by
  rw [startOne_compiler hpending, hpending, Session.startPending, if_pos hcard]
  rfl

theorem startPending_of_done {t : Session W} {n : ℕ}
    (hdone : t.compiler.pendingCompilationTasks = [] ∨
      ¬ t.compiler.runningCompilationTasks.keys.card < n) :
    Session.startPending n t.compiler.pendingCompilationTasks t = t := by
  cases hpending : t.compiler.pendingCompilationTasks with
  | nil => rfl
  | cons pendingTask rest =>
      rw [Session.startPending, if_neg]
      exact hdone.resolve_left (by simp [hpending])

theorem perform_edit_running (host : Host W) (config : LiveConfig) (edit : Edit) (t : Session W) :
    (t.perform host config edit.call).compiler.runningCompilationTasks =
      t.compiler.runningCompilationTasks.erase edit.path := by
  cases edit <;> rfl

theorem mem_hear {pid : ℕ} {bytes : String} (p : String) :
    p ∈ (s.hear pid bytes).runningCompilationTasks ↔ p ∈ s.runningCompilationTasks := by
  rw [← Finmap.lookup_isSome, ← Finmap.lookup_isSome,
    ← Option.isSome_map (f := ProcessTask.process), hear_lookup_process, Option.isSome_map]

namespace SessionOk

theorem initial (w : W) : SessionOk host d ({ session := { world := w } } : Threads W) where
  run := .start w
  tasks := by simp [view, takenOut, ← Finmap.mem_keys]
  underway := trivial
  answers := by simp [polled]

/-- Nothing is taken out of the map, so it has the keys of the session. -/
theorem keys_eq (h : s.SessionOk host d) (hnone : s.takenOut = ∅) :
    s.runningCompilationTasks.keys = s.view.compiler.runningCompilationTasks.keys := by
  ext p
  rw [Finmap.mem_keys, Finmap.mem_keys, h.tasks p, hnone]
  simp

theorem background (h : s.SessionOk host d) (htasks : s.TasksOk) (hstep : Background s s') :
    s'.SessionOk host d := by
  have hsettles := hstep.settles htasks
  have hmain : s'.main = s.main := by cases hstep <;> simp [setChild]
  have hsession : s'.session = s.session := by cases hstep <;> simp [setChild]
  have hview : s'.view = s.view := by simp only [view, hmain, hsession]
  have hmem : ∀ p, p ∈ s'.runningCompilationTasks ↔ p ∈ s.runningCompilationTasks := by
    intro p
    cases hstep with
    | deliver pid bytes hinside => exact mem_hear p
    | child | acquire | release | linker | deliverLink | faultLink => exact Iff.rfl
  refine ⟨?_, ?_, ?_, ?_⟩
  · rw [hsession]
    exact h.run.mono fun env henv => henv.mono hsettles
  · intro p
    rw [hmem, h.tasks p, hview]
    simp only [takenOut, hmain]
  · have hunderway := h.underway
    simp only [Underway, hmain, hsession] at hunderway ⊢
    exact hunderway
  · intro env henv key status err hkey
    simp only [polled, hmain] at henv
    exact (h.answers env henv key status err hkey).mono hsettles

/-- The main thread moves on in its call. -/
theorem advance (h : s.SessionOk host d) (hsettles : Settles s s')
    (hsession : s'.session = s.session)
    (htasks : ∀ p, p ∈ s'.runningCompilationTasks ↔
      p ∈ s'.view.compiler.runningCompilationTasks ∧ p ∉ s'.takenOut)
    (hunderway : s'.Underway host d)
    (hpolled : ∀ env, s'.polled = some env → s.polled = some env) : s'.SessionOk host d := by
  refine ⟨?_, htasks, hunderway, ?_⟩
  · rw [hsession]
    exact h.run.mono fun env henv => henv.mono hsettles
  · intro env henv key status err hkey
    exact (h.answers env (hpolled env henv) key status err hkey).mono hsettles

/-- It does so without a change of the map or of the session it works on. -/
theorem move (h : s.SessionOk host d) (hsettles : Settles s s')
    (hsession : s'.session = s.session)
    (htasks : s'.runningCompilationTasks = s.runningCompilationTasks)
    (hview : s'.view = s.view) (htaken : s'.takenOut = s.takenOut)
    (hunderway : s'.Underway host d)
    (hpolled : ∀ env, s'.polled = some env → s.polled = some env) : s'.SessionOk host d := by
  refine h.advance hsettles hsession ?_ hunderway hpolled
  rw [htasks, hview, htaken]
  exact h.tasks

/-- A call returns: the session has made another step of its run. -/
theorem returns (hrun : RunWith host d s'.Truthful s'.session) (hmain : s'.main = .idle)
    (htasks : ∀ p, p ∈ s'.runningCompilationTasks ↔
      p ∈ s'.session.compiler.runningCompilationTasks) : s'.SessionOk host d := by
  refine ⟨hrun, ?_, ?_, ?_⟩
  · intro p
    simp [view, takenOut, hmain, htasks p]
  · simp [Underway, hmain]
  · simp [polled, hmain]

/-- The map of the tasks while no edit is under way. -/
theorem mem_iff (h : s.SessionOk host d) (hnone : s.takenOut = ∅) (p : String) :
    p ∈ s.runningCompilationTasks ↔ p ∈ s.view.compiler.runningCompilationTasks := by
  simp [h.tasks p, hnone]

/-- A task leaves the map before the call that it is for has finished. -/
theorem takes_out (h : s.SessionOk host d) {edit : Edit} (hsettles : Settles s s')
    (hsession : s'.session = s.session) (hview : s.view = s.session) (hview' : s'.view = s.session)
    (hnone : s.takenOut = ∅) (htaken : s'.takenOut = {edit.path})
    (htasks : ∀ p, p ∈ s'.runningCompilationTasks ↔
      p ≠ edit.path ∧ p ∈ s.runningCompilationTasks)
    (hunderway : s'.Underway host d) (hpolled : s'.polled = none) : s'.SessionOk host d := by
  refine h.advance hsettles hsession ?_ hunderway (by simp [hpolled])
  intro p
  rw [htasks, hview', htaken, Finset.mem_singleton, h.mem_iff hnone, hview]
  exact and_comm

/-- `update` has swept the tasks whose processes had exited. -/
theorem sweep (h : s.SessionOk host d) (htasks : s.TasksOk) {env : Environment}
    (hmain : s.main = .polling env [])
    (hsettles : Settles s
      { s with
        main := .starting env (s.session.pollCompilations host env)
        runningCompilationTasks := eraseAll s.runningCompilationTasks (s.tasksToRemove env) }) :
    SessionOk host d
      { s with
        main := .starting env (s.session.pollCompilations host env)
        runningCompilationTasks := eraseAll s.runningCompilationTasks (s.tasksToRemove env) } := by
  have hplaced := htasks.placed
  rw [Placed, hmain] at hplaced
  have hnone : s.takenOut = ∅ := by simp [takenOut, hmain]
  have hview : s.view = s.session := by simp [view, hmain]
  have hkeys := h.keys_eq hnone
  rw [hview] at hkeys
  have hreached := h.run.run.reached
  refine ⟨h.run.mono fun env henv => henv.mono hsettles, ?_, ⟨?_, rfl⟩, ?_⟩
  · intro p
    change p ∈ eraseAll s.runningCompilationTasks (s.tasksToRemove env) ↔
      p ∈ (s.session.pollCompilations host env).compiler.runningCompilationTasks ∧ p ∉ ∅
    rw [Session.pollCompilations_running, ← hkeys, ← tasksToRemove, mem_eraseAll, mem_eraseAll,
      h.mem_iff hnone, hview]
    simp
  · exact hreached.trans (Session.pollCompilations_steps host env s.session
      hreached.coherent.running.key)
  · intro env' henv' key status err hkey
    obtain rfl : env = env' := by simpa [polled] using henv'
    exact (htasks.reported hplaced.1 hkey).mono hsettles

/-- `update` returns with an answer of the link process, if it has one. -/
theorem returns_update (h : s.SessionOk host d) (answer : Option (ℤ × String))
    (hsettles : Settles s s') {env : Environment} (hpolled : s.polled = some env)
    (hnone : s.takenOut = ∅)
    (hbefore : s.view = s.session.beforePollLink host d.config env)
    (hlink : ∀ status err, answer = some (status, err) → s'.ReportedLink status err)
    (hsession : s'.session = s.view.pollLink host (env.withLink answer))
    (hmain : s'.main = .idle)
    (htasks : s'.runningCompilationTasks = s.runningCompilationTasks) : s'.SessionOk host d := by
  have hrun : RunWith host d s'.Truthful s.session := h.run.mono fun env henv => henv.mono hsettles
  have htruthful : s'.Truthful (env.withLink answer) :=
    ⟨fun key status err hkey => (h.answers env hpolled key status err hkey).mono hsettles, hlink⟩
  have hcall := hrun.call (.update (env.withLink answer)) trivial fun env' henv' =>
    Call.update.inj henv' ▸ htruthful
  refine returns ?_ hmain ?_
  · convert hcall using 1
    rw [hsession, hbefore, ← Session.beforePollLink_withLink answer]
    rfl
  · intro p
    rw [htasks, h.mem_iff hnone, hsession, Session.pollLink_running]

theorem main_step (h : s.SessionOk host d) (htasks : s.TasksOk)
    (hlinked : ∀ env t status err, s.main = .awaitingLink env t status →
      s.linker.reader = .ended → s.linkMessage = some err →
      s.linker.exitStatus = some status ∧ s.linker.output = err)
    (hstep : Main host d s s') : s'.SessionOk host d := by
  have hsettles := hstep.settles
  have hrun : RunWith host d s'.Truthful s.session := h.run.mono fun env henv => henv.mono hsettles
  have hunderway := h.underway
  cases hstep
  case link finishCallback hmain hallowed =>
    refine returns (hrun.call _ hallowed (by simp)) hmain ?_
    intro p
    simpa [view, hmain, Session.link] using h.mem_iff (by simp [takenOut, hmain]) p
  case outside w hmain =>
    refine returns (hrun.outside w) hmain ?_
    intro p
    simpa [view, hmain] using h.mem_iff (by simp [takenOut, hmain]) p
  case call edit hmain hallowed =>
    exact h.move hsettles rfl rfl (by simp [view, hmain]) (by simp [takenOut, hmain]) hallowed
      (by simp [polled])
  case notFound edit hmain htask =>
    refine h.takes_out hsettles rfl (by simp [view, hmain]) rfl (by simp [takenOut, hmain]) rfl ?_
      (by simpa [Underway, hmain] using hunderway) rfl
    intro p
    refine ⟨fun hp => ⟨?_, hp⟩, And.right⟩
    rintro rfl
    exact Finmap.lookup_eq_none.mp htask hp
  case kill edit pid hmain =>
    exact h.takes_out hsettles rfl (by simp [view, hmain]) rfl (by simp [takenOut, hmain]) rfl
      (fun p => Finmap.mem_erase) (by simpa [Underway, hmain] using hunderway) rfl
  case edit edit hmain =>
    have hallowed : edit.call.Allowed d s.session.compiler := by
      simpa [Underway, hmain] using hunderway
    refine returns (hrun.call _ hallowed (by cases edit <;> simp [Edit.call])) rfl ?_
    intro p
    have hp := h.tasks p
    simp only [view, takenOut, hmain, Finset.mem_singleton] at hp
    rw [hp, perform_edit_running, Finmap.mem_erase]
    exact and_comm
  case sweep env hmain => exact h.sweep htasks hmain hsettles
  case fork env t pendingTask rest hmain hpending hcard =>
    have hkeys := h.keys_eq (by simp [takenOut, hmain])
    simp only [view, hmain] at hkeys
    rw [Underway, hmain] at hunderway
    exact h.move hsettles rfl rfl (by simp [view, hmain]) (by simp [takenOut, hmain])
      ⟨hunderway.1, hunderway.2, ⟨rest, hpending⟩, hkeys ▸ hcard⟩ (by simp [polled, hmain])
  case enter env t pid pendingTask hmain =>
    have hmem := h.mem_iff (by simp [takenOut, hmain])
    simp only [view, hmain] at hmem
    rw [Underway, hmain] at hunderway
    obtain ⟨hreached, hstart, ⟨rest, hpending⟩, hcard⟩ := hunderway
    refine h.advance hsettles rfl ?_ ⟨hreached.trans (startOne_steps hpending hcard), ?_⟩
      (by simp [polled, hmain])
    · intro p
      simp only [view, takenOut, Finset.notMem_empty, not_false_eq_true, and_true,
        startOne_compiler hpending, Finmap.mem_insert, hmem]
    · rw [startPending_startOne hpending hcard, hstart]
  case allStarted env t hmain hdone =>
    have hkeys := h.keys_eq (by simp [takenOut, hmain])
    simp only [view, hmain] at hkeys
    rw [Underway, hmain] at hunderway
    rw [hkeys] at hdone
    refine h.move hsettles rfl rfl (by simp [view, hmain]) (by simp [takenOut, hmain]) ?_
      (by simp [polled, hmain])
    exact (startPending_of_done hdone).symm.trans hunderway.2
  case decide env t hmain _ _ | forkLinker env t hmain _ _ =>
    have hmem := h.mem_iff (by simp [takenOut, hmain])
    simp only [view, hmain] at hmem
    rw [Underway, hmain] at hunderway
    refine h.advance hsettles rfl ?_ (by rw [Underway, hunderway]; rfl) (by simp [polled, hmain])
    intro p
    simpa [view, takenOut, Session.decideLink_running] using hmem p
  case finish env t hmain hlink =>
    have hview : s.view = t := by simp [view, hmain]
    rw [Underway, hmain, ← hview] at hunderway
    exact h.returns_update none hsettles (by simp [polled, hmain]) (by simp [takenOut, hmain])
      hunderway (by simp) (by rw [hview]) rfl rfl
  case reportLink env t status err hmain hended htask =>
    have hview : s.view = t := by simp [view, hmain]
    rw [Underway, hmain, ← hview] at hunderway
    obtain ⟨hexit, houtput⟩ := hlinked env t status err hmain hended htask
    refine h.returns_update (some (status, err)) hsettles (by simp [polled, hmain])
      (by simp [takenOut, hmain]) hunderway ?_ (by rw [hview]) rfl rfl
    intro status' err' hanswer
    obtain ⟨rfl, rfl⟩ := Prod.mk.inj (Option.some.inj hanswer)
    exact ⟨s.linker, List.mem_cons_self, hexit, houtput⟩
  all_goals
    refine h.move hsettles rfl rfl ?_ ?_ ?_ ?_
    · simp [*, view]
    · simp [*, takenOut]
    · first
      | exact trivial
      | simpa [*, Underway] using hunderway
    · simp [*, polled]

end SessionOk

/-! ## The link process -/

/-- The link process was started and its task is not stored yet. -/
def Installing (s : Threads W) : Prop :=
  match s.main with
  | .installing _ _ => True
  | _ => False

/-- The task of the link process and its reader belong together. -/
structure LinkOk (s : Threads W) : Prop where
  task : s.linkMessage = none ↔ s.view.compiler.isLinking = false ∨ s.Installing
  ended : s.linkMessage = none → ¬ s.Installing → s.linker.reader = .ended
  conserves : s.linker.Conserves
  unlocked : ¬ s.linker.reader.HasMutex
  heard : s.fault = false → ∀ err, s.linkMessage = some err → s.linker.delivered = err
  installing : s.Installing → s.view.compiler.isLinking = true ∧
    (s.fault = false → s.linker.delivered = "")
  awaited : ∀ env t status, s.main = .awaitingLink env t status →
    s.linker.exitStatus = some status ∧ s.linkMessage ≠ none

namespace LinkOk

theorem initial (w : W) : LinkOk ({ session := { world := w } } : Threads W) where
  task := by simp [view, Compiler.isLinking]
  ended := fun _ _ => rfl
  conserves := .unborn
  unlocked := by simp [Child.unborn]
  heard := by simp
  installing := fun h => h.elim
  awaited := by simp

/-- Nothing changes about the link process. -/
theorem move (h : s.LinkOk) (hlinker : s'.linker = s.linker)
    (hmessage : s'.linkMessage = s.linkMessage) (hfault : s'.fault = s.fault)
    (hview : s'.view.compiler.isLinking = s.view.compiler.isLinking)
    (hinstalling : s'.Installing ↔ s.Installing)
    (hawaited : ∀ env t status, s'.main = .awaitingLink env t status →
      s.linker.exitStatus = some status ∧ s.linkMessage ≠ none) : s'.LinkOk := by
  refine ⟨?_, ?_, ?_, ?_, ?_, ?_, ?_⟩
  · rw [hmessage, hview, hinstalling]
    exact h.task
  · rw [hmessage, hinstalling, hlinker]
    exact h.ended
  · rw [hlinker]
    exact h.conserves
  · rw [hlinker]
    exact h.unlocked
  · rw [hfault, hlinker, hmessage]
    exact h.heard
  · rw [hfault, hlinker, hview, hinstalling]
    exact h.installing
  · rw [hlinker, hmessage]
    exact hawaited

theorem background (h : s.LinkOk) (hstep : Background s s') : s'.LinkOk := by
  have hmain : s'.main = s.main := by cases hstep <;> simp [setChild]
  have hview : s'.view = s.view := by
    have hsession : s'.session = s.session := by cases hstep <;> simp [setChild]
    simp only [view, hmain, hsession]
  have hinstalling : s'.Installing ↔ s.Installing := by simp only [Installing, hmain]
  cases hstep with
  | child | acquire | release =>
      exact h.move rfl rfl rfl rfl Iff.rfl h.awaited
  | deliver pid bytes hinside =>
      refine h.move ?_ ?_ ?_ (by rw [hview]) hinstalling ?_
      · simp [setChild]
      · simp [setChild]
      · simp [setChild]
      · rw [hmain]
        exact h.awaited
  | linker child' hchild =>
      refine ⟨h.task, ?_, h.conserves.step hchild, hchild.hasMutex_iff.not.mpr h.unlocked,
        ?_, ?_, ?_⟩
      · intro hnone hnot
        by_contra halive
        exact hchild.reader_ne_ended halive (h.ended hnone hnot)
      · intro hfault err herr
        exact hchild.delivered_eq.trans (h.heard hfault err herr)
      · intro hpos
        exact ⟨(h.installing hpos).1, fun hfault =>
          hchild.delivered_eq.trans ((h.installing hpos).2 hfault)⟩
      · intro env t status hpos
        obtain ⟨hexit, hmessage⟩ := h.awaited env t status hpos
        exact ⟨hchild.exitStatus_of_some hexit, hmessage⟩
  | deliverLink bytes err hreader htask =>
      have hnot : ¬ (s.view.compiler.isLinking = false ∨ s.Installing) := by
        rw [← h.task, htask]
        simp
      refine ⟨?_, by simp, h.conserves.deliver (by simp [hreader]) (Or.inl rfl),
        by simp [Child.deliver], ?_, ?_, ?_⟩
      · rw [hview, hinstalling]
        simpa using hnot
      · intro hfault err' herr'
        obtain rfl := Option.some.inj herr'
        simp [Child.deliver, h.heard hfault err htask]
      · exact fun hpos => absurd (Or.inr (hinstalling.mp hpos)) hnot
      · intro env t status hpos
        exact ⟨(h.awaited env t status hpos).1, by simp⟩
  | faultLink bytes hreader htask =>
      refine ⟨h.task, ?_, h.conserves.deliver (by simp [hreader]) (Or.inl rfl),
        by simp [Child.deliver], by simp, fun hpos => ⟨(h.installing hpos).1, by simp⟩, ?_⟩
      · intro hnone hnot
        exact absurd (h.ended hnone hnot) (by simp [hreader])
      · intro env t status hpos
        exact absurd htask (h.awaited env t status hpos).2

theorem main_step (h : s.LinkOk) (hstep : Main host d s s') : s'.LinkOk := by
  have htask := h.task
  cases hstep
  case forkLinker env t hmain hfree hlink =>
    have hnone : s.linkMessage = none := htask.mpr (Or.inl (by simpa [view, hmain] using hlink.1))
    refine ⟨?_, ?_, .start, by simp, by simp [hnone], ?_, by simp⟩
    · simp [hnone, Installing]
    · intro _ hnot
      exact absurd trivial hnot
    · exact fun _ => ⟨by simpa [view] using hlink.2, fun _ => rfl⟩
  case install env t hmain =>
    obtain ⟨hlinking, hdelivered⟩ := h.installing (by simp [Installing, hmain])
    refine ⟨?_, by simp, h.conserves, h.unlocked, ?_, fun hpos => hpos.elim, by simp⟩
    · simpa [view, hmain, Installing] using hlinking
    · intro hfault err herr
      obtain rfl := Option.some.inj herr
      exact hdelivered hfault
  case reportLink env t status err hmain hended hmessage =>
    refine ⟨?_, fun _ _ => hended, h.conserves, h.unlocked, by simp, fun hpos => hpos.elim,
      by simp⟩
    simp [view, Session.pollLink_isLinking_of_answered]
  case pollLinker env t status hmain hlink hexit =>
    refine h.move rfl rfl rfl (by simp [view, hmain]) (by simp [Installing, hmain]) ?_
    intro env' t' status' hpos
    obtain ⟨_, _, rfl⟩ := by simpa using hpos
    refine ⟨hexit, ?_⟩
    rw [Ne, htask]
    simp [view, hmain, hlink, Installing]
  case sweep env hmain =>
    refine h.move rfl rfl rfl ?_ (by simp [Installing, hmain]) (by simp)
    simp [view, hmain, Session.pollCompilations_isLinking]
  case decide env t hmain hfree hlink =>
    refine h.move rfl rfl rfl ?_ (by simp [Installing, hmain]) (by simp)
    simp only [view, hmain]
    cases hlinking : t.compiler.isLinking with
    | true => exact Session.decideLink_isLinking host d.config env hlinking
    | false => exact Bool.eq_false_iff.mpr fun htrue => hlink ⟨hlinking, htrue⟩
  case finish env t hmain hlink =>
    refine h.move rfl rfl rfl ?_ (by simp [Installing, hmain]) (by simp)
    simp [view, hmain, Session.pollLink_of_unanswered]
  case edit edit hmain =>
    refine h.move rfl rfl rfl ?_ (by simp [Installing, hmain]) (by simp)
    simp only [view, hmain]
    cases edit <;> rfl
  all_goals
    refine h.move rfl rfl rfl ?_ ?_ ?_
    · simp [*, view, Compiler.isLinking, Session.link, startOne, Session.doCompile]
    · simp [*, Installing]
    · simp [*]

end LinkOk

/-! ## Whole runs -/

structure Ok (host : Host W) (d : Discipline) (s : Threads W) : Prop where
  lock : s.LockOk
  tasks : s.TasksOk
  session : s.SessionOk host d
  link : s.LinkOk

namespace Ok

/-- The path of a compilation that waits is not the path of a running one. -/
theorem lookup_pending (h : s.Ok host d) {env : Environment} {t : Session W}
    {pendingTask : PendingCompilationTask} {rest : List PendingCompilationTask}
    (hmain : s.main = .starting env t)
    (hpending : t.compiler.pendingCompilationTasks = pendingTask :: rest) :
    s.runningCompilationTasks.lookup pendingTask.cu.sourceFilePath = none := by
  have hunderway := h.session.underway
  rw [Underway, hmain] at hunderway
  have hnot := hunderway.1.coherent.pending_not_running pendingTask.cu.sourceFilePath
    (by simp [Compiler.pendingPaths, hpending])
  rw [Finmap.lookup_eq_none, h.session.tasks]
  simpa [view, hmain] using fun hmem => absurd hmem hnot

theorem background (h : s.Ok host d) (hstep : Background s s') : s'.Ok host d :=
  ⟨h.lock.background hstep, h.tasks.background hstep, h.session.background h.tasks hstep,
    h.link.background hstep⟩

theorem step (h : s.Ok host d) (hok : s.fault = false) (hstep : Step host d s s') :
    s'.Ok host d := by
  rcases hstep with hmain | hback
  · refine ⟨h.lock.main_step (h.tasks.unborn _ (Nat.le_refl _)).1 hmain,
      h.tasks.main_step hmain ?_, h.session.main_step h.tasks ?_ hmain, h.link.main_step hmain⟩
    · intro env t pendingTask rest hpos hpending
      exact h.lookup_pending hpos hpending
    · intro env t status err hpos hended herr
      refine ⟨(h.link.awaited env t status hpos).1, ?_⟩
      rw [← h.link.conserves.delivered_of_ended hended]
      exact h.link.heard hok err herr
  · exact h.background hback

end Ok

end Threads

namespace ThreadedRun

variable {W : Type*} {host : Host W} {d : Discipline} {s : Threads W}

theorem ok (h : ThreadedRun host d s) : s.Ok host d := by
  induction h with
  | start w _ => exact ⟨.initial w, .initial w, .initial w, .initial w⟩
  | step _ hok hstep ih => exact ih.step hok hstep

theorem main (h : ThreadedRun host d s) (hok : s.fault = false) {s' : Threads W}
    (hstep : Threads.Main host d s s') : ThreadedRun host d s' :=
  h.step hok (Or.inl hstep)

theorem background (h : ThreadedRun host d s) (hok : s.fault = false) {s' : Threads W}
    (hstep : Threads.Background s s') : ThreadedRun host d s' :=
  h.step hok (Or.inr hstep)

end ThreadedRun

/-! ## Small runs

A compilation is started and writes a message. Either the source is compiled again, while the reader
of the message has the mutex; or the compilation fails, and a later call of `update` reports it. -/

theorem exists_threadedRun : (∃ s : Threads Unit, ThreadedRun Host.idle (.linkGated {}) s ∧
      (s.children 0).reader = .inside "e" ∧ s.mutex = some (.reader 0) ∧
        s.main = .locking (.compile { sourceFilePath := "a.cpp" } .nothing)) ∧
    ∃ s : Threads Unit, ThreadedRun Host.idle (.linkGated {}) s ∧
      ∃ c, (c, .compileFinished .nothing 1 "a.cpp" "e") ∈ s.session.trace := by
  have hstart : ThreadedRun Host.idle (.linkGated {}) _ := .start () trivial
  have hcalled := hstart.main rfl
    (.call _ (.compile { sourceFilePath := "a.cpp" } .nothing) rfl ⟨False.elim, False.elim⟩)
  have hedited := ((hcalled.main rfl (.lock _ _ rfl rfl)).main rfl (.notFound _ _ rfl rfl)).main rfl
    (.edit _ _ rfl)
  have hpolled := (hedited.main rfl (.update _ (.finished "" 0) rfl)).main rfl (.sweep _ _ rfl)
  have hforked := hpolled.main rfl (.fork _ _ _ _ _ rfl rfl (by decide))
  have hentered := hforked.main rfl (.enter _ _ _ _ _ rfl)
  have hread := (hentered.background rfl (.child _ 0 _ (.write _ "e" rfl))).background rfl
    (.child _ 0 _ (.read _ "e" "" rfl rfl))
  have hidle := ((hread.main rfl (.allStarted _ _ _ rfl (Or.inl rfl))).main rfl
    (.decide _ _ _ rfl rfl fun h => absurd h.2 (by decide))).main rfl
    (.finish _ _ _ rfl (Or.inl rfl))
  have hinside := hidle.background rfl (.acquire _ 0 "e" rfl rfl)
  have hlocking := hinside.main rfl
    (.call _ (.compile { sourceFilePath := "a.cpp" } .nothing) rfl ⟨False.elim, False.elim⟩)
  refine ⟨⟨_, hlocking, rfl, rfl, rfl⟩, ?_⟩
  have hheard := (hinside.background rfl (.deliver _ 0 "e" rfl)).background rfl (.release _ 0 rfl)
  have hclosed := ((hheard.background rfl (.child _ 0 _ (.exit _ 1 rfl))).background rfl
    (.child _ 0 _ (.hangUp _))).background rfl (.child _ 0 _ (.close _ rfl rfl rfl))
  have hanswered := ((hclosed.main rfl (.update _ (.finished "" 0) rfl)).main rfl
    (.pollExited _ _ "a.cpp" [] ⟨0, "e"⟩ 1 rfl rfl rfl)).main rfl
    (.report _ _ _ _ _ _ ⟨0, "e"⟩ rfl rfl rfl)
  have hswept := (hanswered.main rfl (.sweep _ _ rfl)).main rfl (.allStarted _ _ _ rfl (Or.inl rfl))
  have hreported := (hswept.main rfl
    (.decide _ _ _ rfl rfl fun h => absurd h.2 (by decide))).main rfl
    (.finish _ _ _ rfl (Or.inl rfl))
  exact ⟨_, hreported, _, List.mem_cons_self⟩

namespace ThreadedRun

variable {W : Type*} {host : Host W} {d : Discipline} {s : Threads W}

/-- Every run of the threads is a run of the atomic compiler with true answers. -/
theorem refines_calls (h : ThreadedRun host d s) : RunWith host d s.Truthful s.session :=
  h.ok.session.run

theorem refines_calls_reported : ∃ s : Threads Unit,
    (∃ c, (c, .compileFinished .nothing 1 "a.cpp" "e") ∈ s.session.trace) ∧
      RunWith Host.idle (.linkGated {}) s.Truthful s.session := by
  obtain ⟨s, hrun, htrace⟩ := exists_threadedRun.2
  exact ⟨s, htrace, hrun.refines_calls⟩

/-- A callback of a compilation finds the task of its own process, unless the main thread is
between the start of the process and the entry of its task, or joins the reader of the killed
process; the callback of the link process finds a task, unless the main thread has not stored
it yet. -/
theorem callbacks_find_own (h : ThreadedRun host d s) :
    (∀ pid bytes, (s.children pid).reader = .inside bytes →
      (∃ err, s.runningCompilationTasks.lookup (s.sources pid) = some ⟨pid, err⟩) ∨
        (s.runningCompilationTasks.lookup (s.sources pid) = none ∧ s.main.Detached pid)) ∧
    ∀ bytes, s.linker.reader = .calling bytes → s.linkMessage = none → s.Installing := by
  refine ⟨?_, ?_⟩
  · intro pid bytes hinside
    refine (h.ok.tasks.alive pid (by simp [hinside])).imp_right ?_
    exact fun hdetached => ⟨h.ok.tasks.detached pid hdetached, hdetached⟩
  · intro bytes hcalling hnone
    by_contra hnot
    exact absurd (h.ok.link.ended hnone hnot) (by simp [hcalling])

theorem callbacks_find_own_inside : ∃ s : Threads Unit,
    (s.children 0).reader = .inside "e" ∧
      ∃ err, s.runningCompilationTasks.lookup (s.sources 0) = some ⟨0, err⟩ := by
  obtain ⟨s, hrun, hinside, _, hmain⟩ := exists_threadedRun.1
  refine ⟨s, hinside, (hrun.callbacks_find_own.1 0 "e" hinside).resolve_right ?_⟩
  rintro ⟨_, hdetached⟩
  rw [hmain] at hdetached
  exact hdetached

end ThreadedRun

end JetLive

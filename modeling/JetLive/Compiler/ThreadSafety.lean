import JetLive.Compiler.Threads

/-!
# What the threads keep

The invariants of the threads. `LockOk` ties the mutex to the positions of the threads,
`TasksOk` the tasks to the readers that are alive. A reader that has not ended belongs to the
task under the path its callback has captured, unless the main thread is just entering or
has just taken out this task; so no reader finds the task of another process, although it
looks it up by the path.
-/

namespace JetLive

open Containers ChildProcesses

namespace MainThread

variable {W : Type*}

def HasMutex : MainThread W → Prop
  | .locked _ | .editing _ => True
  | _ => False

/-- The process has no task at the moment: it was just started, or it was killed and is being
joined. -/
def Detached (pid : ℕ) : MainThread W → Prop
  | .joining _ pid' | .entering _ _ pid' _ => pid' = pid
  | _ => False

end MainThread

namespace Threads

variable {W : Type*} {host : Host W} {d : Discipline} {s s' : Threads W}

/-! ## What the callback changes -/

section Hear

variable (pid : ℕ) (bytes : String) (s : Threads W)

/-- The callback changes the message of one task, or what was not heard of one process. -/
theorem hear_eq : ∃ tasks unheard, s.hear pid bytes =
    { s with runningCompilationTasks := tasks, unheard } := by
  unfold hear
  split
  · exact ⟨_, s.unheard, rfl⟩
  · exact ⟨s.runningCompilationTasks, _, rfl⟩

@[simp] theorem hear_session : (s.hear pid bytes).session = s.session := by
  obtain ⟨_, _, h⟩ := hear_eq pid bytes s
  rw [h]

@[simp] theorem hear_main : (s.hear pid bytes).main = s.main := by
  obtain ⟨_, _, h⟩ := hear_eq pid bytes s
  rw [h]

@[simp] theorem hear_mutex : (s.hear pid bytes).mutex = s.mutex := by
  obtain ⟨_, _, h⟩ := hear_eq pid bytes s
  rw [h]

@[simp] theorem hear_children : (s.hear pid bytes).children = s.children := by
  obtain ⟨_, _, h⟩ := hear_eq pid bytes s
  rw [h]

@[simp] theorem hear_sources : (s.hear pid bytes).sources = s.sources := by
  obtain ⟨_, _, h⟩ := hear_eq pid bytes s
  rw [h]

@[simp] theorem hear_started : (s.hear pid bytes).started = s.started := by
  obtain ⟨_, _, h⟩ := hear_eq pid bytes s
  rw [h]

@[simp] theorem hear_linker : (s.hear pid bytes).linker = s.linker := by
  obtain ⟨_, _, h⟩ := hear_eq pid bytes s
  rw [h]

@[simp] theorem hear_linkMessage : (s.hear pid bytes).linkMessage = s.linkMessage := by
  obtain ⟨_, _, h⟩ := hear_eq pid bytes s
  rw [h]

@[simp] theorem hear_pastLinkers : (s.hear pid bytes).pastLinkers = s.pastLinkers := by
  obtain ⟨_, _, h⟩ := hear_eq pid bytes s
  rw [h]

@[simp] theorem hear_fault : (s.hear pid bytes).fault = s.fault := by
  obtain ⟨_, _, h⟩ := hear_eq pid bytes s
  rw [h]

variable {pid bytes s}

theorem hear_of_task {task : ProcessTask}
    (htask : s.runningCompilationTasks.lookup (s.sources pid) = some task) :
    s.hear pid bytes = { s with
      runningCompilationTasks := s.runningCompilationTasks.insert (s.sources pid)
        { task with errMessage := task.errMessage ++ bytes } } := by
  rw [hear, htask]

theorem hear_of_none (htask : s.runningCompilationTasks.lookup (s.sources pid) = none) :
    s.hear pid bytes =
      { s with unheard := Function.update s.unheard pid (s.unheard pid ++ bytes) } := by
  rw [hear, htask]

/-- Every task keeps its place and its process. -/
theorem hear_lookup_process (p : String) :
    ((s.hear pid bytes).runningCompilationTasks.lookup p).map ProcessTask.process =
      (s.runningCompilationTasks.lookup p).map ProcessTask.process := by
  cases htask : s.runningCompilationTasks.lookup (s.sources pid) with
  | none => rw [hear_of_none htask]
  | some task =>
      rw [hear_of_task htask]
      by_cases hp : p = s.sources pid
      · subst hp
        simp [htask]
      · simp [Finmap.lookup_insert_of_ne _ hp]

theorem hear_lookup_of_ne {p : String} (hp : p ≠ s.sources pid) :
    (s.hear pid bytes).runningCompilationTasks.lookup p = s.runningCompilationTasks.lookup p := by
  cases htask : s.runningCompilationTasks.lookup (s.sources pid) with
  | none => rw [hear_of_none htask]
  | some task =>
      rw [hear_of_task htask]
      exact Finmap.lookup_insert_of_ne _ hp

theorem hear_unheard_of_ne {pid' : ℕ} (hpid : pid' ≠ pid) :
    (s.hear pid bytes).unheard pid' = s.unheard pid' := by
  cases htask : s.runningCompilationTasks.lookup (s.sources pid) with
  | none =>
      rw [hear_of_none htask]
      exact Function.update_of_ne hpid _ _
  | some task => rw [hear_of_task htask]

end Hear

/-! ## The mutex -/

/-- The mutex is held by the thread that is at a position where it has it. -/
structure LockOk (s : Threads W) : Prop where
  main : s.mutex = some .main ↔ s.main.HasMutex
  reader : ∀ pid, s.mutex = some (.reader pid) ↔ (s.children pid).reader.HasMutex

namespace LockOk

theorem initial (w : W) : LockOk ({ session := { world := w } } : Threads W) := by
  refine ⟨by simp [MainThread.HasMutex], ?_⟩
  intro pid
  simp [Child.unborn]

theorem background (h : s.LockOk) (hstep : Background s s') : s'.LockOk := by
  obtain ⟨hmain, hreader⟩ := h
  cases hstep with
  | child pid child' hchild =>
      refine ⟨hmain, (Function.forall_update_iff s.children
        fun pid' c => s.mutex = some (.reader pid') ↔ c.reader.HasMutex).mpr ⟨?_, ?_⟩⟩
      · exact (hreader pid).trans hchild.hasMutex_iff.symm
      · exact fun pid' _ => hreader pid'
  | acquire pid bytes hcalling hfree =>
      rw [hfree] at hmain hreader
      refine ⟨by simpa [setChild] using hmain, (Function.forall_update_iff s.children
        fun pid' c => some (.reader pid) = some (MutexHolder.reader pid') ↔
          c.reader.HasMutex).mpr ⟨?_, ?_⟩⟩
      · simp [Child.enter]
      · intro pid' hpid
        simpa [Ne.symm hpid] using hreader pid'
  | deliver pid bytes hinside =>
      refine ⟨by simpa [setChild] using hmain, (Function.forall_update_iff
        (s.hear pid bytes).children fun pid' c => (s.hear pid bytes).mutex = some (.reader pid') ↔
          c.reader.HasMutex).mpr ⟨?_, ?_⟩⟩
      · simpa [Child.deliver, hinside] using hreader pid
      · intro pid' _
        simpa using hreader pid'
  | release pid hleaving =>
      have hheld : s.mutex = some (.reader pid) := (hreader pid).mpr (by simp [hleaving])
      rw [hheld] at hmain hreader
      refine ⟨by simpa [setChild] using hmain, (Function.forall_update_iff s.children
        fun pid' c => none = some (MutexHolder.reader pid') ↔ c.reader.HasMutex).mpr ⟨?_, ?_⟩⟩
      · simp [Child.leave]
      · intro pid' hpid
        simpa [Ne.symm hpid] using hreader pid'
  | linker child' hchild => exact ⟨hmain, hreader⟩
  | deliverLink => exact ⟨hmain, hreader⟩
  | faultLink => exact ⟨hmain, hreader⟩

/-- The main thread moves on without touching the mutex. -/
theorem move (h : s.LockOk) (hmutex : s'.mutex = s.mutex) (hchildren : s'.children = s.children)
    (hmain : s'.main.HasMutex ↔ s.main.HasMutex) : s'.LockOk := by
  refine ⟨?_, ?_⟩
  · rw [hmutex, hmain]
    exact h.main
  · rw [hmutex, hchildren]
    exact h.reader

/-- The main thread takes the mutex. -/
theorem take (h : s.LockOk) (hfree : s.mutex = none) (hmutex : s'.mutex = some .main)
    (hchildren : s'.children = s.children) (hmain : s'.main.HasMutex) : s'.LockOk := by
  refine ⟨by simp [hmutex, hmain], ?_⟩
  intro pid
  have hreader := h.reader pid
  rw [hfree] at hreader
  rw [hmutex, hchildren]
  simpa using hreader

/-- The main thread gives the mutex back. -/
theorem give (h : s.LockOk) (hheld : s.main.HasMutex) (hmutex : s'.mutex = none)
    (hchildren : s'.children = s.children) (hmain : ¬ s'.main.HasMutex) : s'.LockOk := by
  refine ⟨by simp [hmutex, hmain], ?_⟩
  intro pid
  have hreader := h.reader pid
  rw [h.main.mpr hheld] at hreader
  rw [hmutex, hchildren]
  simpa using hreader

theorem main_step (h : s.LockOk) (hunborn : s.children s.started = .unborn)
    (hstep : Main host d s s') : s'.LockOk := by
  cases hstep
  case lock edit hmain hfree => exact h.take hfree rfl rfl trivial
  case relock edit hmain hfree => exact h.take hfree rfl rfl trivial
  case found edit task hmain htask =>
    exact h.give (by simp [hmain, MainThread.HasMutex]) rfl rfl (by simp [MainThread.HasMutex])
  case edit edit hmain =>
    exact h.give (by simp [hmain, MainThread.HasMutex]) rfl rfl (by simp [MainThread.HasMutex])
  case fork env t pendingTask rest hmain hpending hcard =>
    refine ⟨by simpa [hmain, MainThread.HasMutex] using h.main,
      (Function.forall_update_iff s.children
        fun pid c => s.mutex = some (.reader pid) ↔ c.reader.HasMutex).mpr ⟨?_, ?_⟩⟩
    · have hreader := h.reader s.started
      rw [hunborn] at hreader
      simpa [Child.unborn] using hreader
    · exact fun pid _ => h.reader pid
  -- the other steps are taken without the mutex, or keep it
  all_goals exact h.move rfl rfl (by simp [*, MainThread.HasMutex])

end LockOk

/-! ## The tasks -/

/-- The answers found so far are those of tasks whose processes have exited and whose readers
have ended. -/
def Answered (env : Environment) (s : Threads W) : Prop :=
  ∀ key status err, env.exitStatus key = some (status, err) →
    ∃ pid, s.runningCompilationTasks.lookup key = some ⟨pid, err⟩ ∧
      (s.children pid).reader = .ended ∧ (s.children pid).exitStatus = some status

/-- What the position of the main thread says about the tasks and the processes. -/
def Placed (s : Threads W) : Prop :=
  match s.main with
  | .killing edit pid => ∃ err, s.runningCompilationTasks.lookup edit.path = some ⟨pid, err⟩
  | .joining edit pid => s.sources pid = edit.path
  | .polling env keys => s.Answered env ∧ ∀ key ∈ keys, key ∈ s.runningCompilationTasks
  | .awaiting env key pid status keys =>
      s.Answered env ∧ (∃ err, s.runningCompilationTasks.lookup key = some ⟨pid, err⟩) ∧
        (s.children pid).exitStatus = some status ∧ ∀ key ∈ keys, key ∈ s.runningCompilationTasks
  | .entering _ _ pid pendingTask =>
      s.sources pid = pendingTask.cu.sourceFilePath ∧ pid < s.started ∧
        (s.children pid).delivered = s.unheard pid
  | _ => True

/-- A step that is not one of the main thread leaves the tasks and the processes in their
places. -/
theorem Placed.of_frame (h : s.Placed) (hmain : s'.main = s.main)
    (hsources : s'.sources = s.sources) (hstarted : s'.started = s.started)
    (hprocess : ∀ p, (s'.runningCompilationTasks.lookup p).map ProcessTask.process =
      (s.runningCompilationTasks.lookup p).map ProcessTask.process)
    (hanswered : ∀ env, s.Answered env → s'.Answered env)
    (hexit : ∀ pid status, (s.children pid).exitStatus = some status →
      (s'.children pid).exitStatus = some status)
    (hdelivered : ∀ pid, s.main.Detached pid → (s.children pid).delivered = s.unheard pid →
      (s'.children pid).delivered = s'.unheard pid) : s'.Placed := by
  have htask : ∀ p pid, (∃ err, s.runningCompilationTasks.lookup p = some ⟨pid, err⟩) →
      ∃ err, s'.runningCompilationTasks.lookup p = some ⟨pid, err⟩ := by
    rintro p pid ⟨err, herr⟩
    have hp := hprocess p
    rw [herr, Option.map_some, Option.map_eq_some_iff] at hp
    obtain ⟨⟨_, err'⟩, herr', rfl⟩ := hp
    exact ⟨err', herr'⟩
  have hkeys : ∀ p, p ∈ s.runningCompilationTasks → p ∈ s'.runningCompilationTasks := by
    intro p hp
    obtain ⟨⟨pid, err⟩, herr⟩ := Finmap.mem_iff.mp hp
    obtain ⟨err', herr'⟩ := htask p pid ⟨err, herr⟩
    exact Finmap.mem_of_lookup_eq_some herr'
  unfold Placed at h ⊢
  rw [hmain]
  cases hpos : s.main with
  | killing edit pid =>
      rw [hpos] at h
      exact htask edit.path pid h
  | joining edit pid =>
      rw [hpos] at h
      rw [hsources]
      exact h
  | polling env keys =>
      rw [hpos] at h
      exact ⟨hanswered env h.1, fun key hkey => hkeys key (h.2 key hkey)⟩
  | awaiting env key pid status keys =>
      rw [hpos] at h
      obtain ⟨henv, hkey, hstatus, hrest⟩ := h
      exact ⟨hanswered env henv, htask key pid hkey, hexit pid status hstatus,
        fun key hkey => hkeys key (hrest key hkey)⟩
  | entering env t pid pendingTask =>
      rw [hpos] at h
      rw [hsources, hstarted]
      exact ⟨h.1, h.2.1, hdelivered pid (by simp [hpos, MainThread.Detached]) h.2.2⟩
  | _ => trivial

structure TasksOk (s : Threads W) : Prop where
  source : ∀ p task, s.runningCompilationTasks.lookup p = some task →
    s.sources task.process = p ∧ task.process < s.started
  alive : ∀ pid, (s.children pid).reader ≠ .ended →
    (∃ err, s.runningCompilationTasks.lookup (s.sources pid) = some ⟨pid, err⟩) ∨
      s.main.Detached pid
  detached : ∀ pid, s.main.Detached pid →
    s.runningCompilationTasks.lookup (s.sources pid) = none
  unborn : ∀ pid, s.started ≤ pid → s.children pid = .unborn ∧ s.unheard pid = ""
  conserves : ∀ pid, (s.children pid).Conserves
  heard : ∀ p task, s.runningCompilationTasks.lookup p = some task →
    (s.children task.process).delivered = s.unheard task.process ++ task.errMessage
  placed : s.Placed

namespace TasksOk

theorem initial (w : W) : TasksOk ({ session := { world := w } } : Threads W) where
  source := by simp
  alive := by simp [Child.unborn]
  detached := by simp [MainThread.Detached]
  unborn := by simp
  conserves _ := .unborn
  heard := by simp
  placed := trivial

/-- The reader of a process finds the task of this process or none. -/
theorem own_task (h : s.TasksOk) {pid : ℕ} {task : ProcessTask}
    (halive : (s.children pid).reader ≠ .ended)
    (htask : s.runningCompilationTasks.lookup (s.sources pid) = some task) :
    task.process = pid := by
  rcases h.alive pid halive with ⟨err, herr⟩ | hdetached
  · rw [htask] at herr
    obtain rfl := Option.some.inj herr
    rfl
  · exact absurd htask (by simp [h.detached pid hdetached])

theorem withMutex (h : s.TasksOk) (mutex : Option MutexHolder) :
    TasksOk { s with mutex } :=
  ⟨h.source, h.alive, h.detached, h.unborn, h.conserves, h.heard, h.placed⟩

/-- A step that is not one of the main thread leaves the processes of the tasks alone. -/
theorem of_frame (h : s.TasksOk) (hmain : s'.main = s.main) (hsources : s'.sources = s.sources)
    (hstarted : s'.started = s.started)
    (hprocess : ∀ p, (s'.runningCompilationTasks.lookup p).map ProcessTask.process =
      (s.runningCompilationTasks.lookup p).map ProcessTask.process)
    (halive : ∀ pid, (s'.children pid).reader ≠ .ended → (s.children pid).reader ≠ .ended)
    (hunborn : ∀ pid, s.started ≤ pid →
      s'.children pid = s.children pid ∧ s'.unheard pid = s.unheard pid)
    (hconserves : ∀ pid, (s'.children pid).Conserves)
    (hheard : ∀ p task, s'.runningCompilationTasks.lookup p = some task →
      (s'.children task.process).delivered = s'.unheard task.process ++ task.errMessage)
    (hplaced : s'.Placed) : s'.TasksOk := by
  refine ⟨?_, ?_, ?_, ?_, hconserves, hheard, hplaced⟩
  · intro p task htask
    have hp := hprocess p
    rw [htask, Option.map_some, eq_comm, Option.map_eq_some_iff] at hp
    obtain ⟨task', htask', hsame⟩ := hp
    rw [hsources, hstarted, ← hsame]
    exact h.source p task' htask'
  · intro pid hreader
    rw [hsources, hmain]
    refine Or.imp_left ?_ (h.alive pid (halive pid hreader))
    rintro ⟨err, herr⟩
    have hp := hprocess (s.sources pid)
    rw [herr, Option.map_some, Option.map_eq_some_iff] at hp
    obtain ⟨⟨_, err'⟩, herr', rfl⟩ := hp
    exact ⟨err', herr'⟩
  · intro pid hdetached
    rw [hmain] at hdetached
    have hp := hprocess (s.sources pid)
    rw [h.detached pid hdetached, Option.map_none, Option.map_eq_none_iff] at hp
    rw [hsources]
    exact hp
  · intro pid hpid
    rw [hstarted] at hpid
    rw [(hunborn pid hpid).1, (hunborn pid hpid).2]
    exact h.unborn pid hpid

/-- A child changes without the callback. -/
theorem setChild (h : s.TasksOk) (pid : ℕ) {c : Child}
    (halive : c.reader ≠ .ended → (s.children pid).reader ≠ .ended)
    (hfinal : (s.children pid).reader = .ended → (s.children pid).exitStatus ≠ none →
      c = s.children pid)
    (hconserves : c.Conserves) (hdelivered : c.delivered = (s.children pid).delivered)
    (hexit : ∀ status, (s.children pid).exitStatus = some status → c.exitStatus = some status) :
    (s.setChild pid c).TasksOk := by
  -- what holds of the child that changes and of its old value holds of every child
  have hall : ∀ P : Child → Child → Prop, P (s.children pid) c → (∀ c', P c' c') →
      ∀ pid', P (s.children pid') ((s.setChild pid c).children pid') := by
    intro P hP hrefl
    exact (Function.forall_update_iff s.children fun pid' c => P (s.children pid') c).mpr
      ⟨hP, fun _ _ => hrefl _⟩
  have hsame := hall (fun c c' => c'.delivered = c.delivered) hdelivered fun _ => rfl
  have hended := hall (fun c c' => c.reader = .ended → c.exitStatus ≠ none → c' = c) hfinal
    fun _ _ _ => rfl
  refine h.of_frame rfl rfl rfl (fun _ => rfl)
    (hall (fun c c' => c'.reader ≠ .ended → c.reader ≠ .ended) halive fun _ => id) ?_ ?_ ?_ ?_
  · intro pid' hpid'
    have hunborn := (h.unborn pid' hpid').1
    exact ⟨hended pid' (by simp [hunborn, Child.unborn]) (by simp [hunborn, Child.unborn]), rfl⟩
  · exact (Function.forall_update_iff s.children fun _ c => c.Conserves).mpr
      ⟨hconserves, fun pid' _ => h.conserves pid'⟩
  · intro p task htask
    rw [hsame]
    exact h.heard p task htask
  · refine h.placed.of_frame rfl rfl rfl (fun _ => rfl) ?_ ?_ ?_
    · intro env henv key status err hkey
      obtain ⟨pid', htask, hreader, hstatus⟩ := henv key status err hkey
      have hc := hended pid' hreader (by simp [hstatus])
      exact ⟨pid', htask, by rw [hc, hreader], by rw [hc, hstatus]⟩
    · exact hall (fun c c' => ∀ status, c.exitStatus = some status → c'.exitStatus = some status)
        hexit fun _ _ => id
    · intro pid' _ hunheard
      rw [hsame]
      exact hunheard

/-- The callback hands over its bytes to the task of its own process. -/
theorem heard_deliver (h : s.TasksOk) {pid : ℕ} {bytes p : String} {task : ProcessTask}
    (halive : (s.children pid).reader ≠ .ended)
    (htask : (s.hear pid bytes).runningCompilationTasks.lookup p = some task) :
    (((s.hear pid bytes).setChild pid ((s.children pid).deliver .leaving bytes)).children
      task.process).delivered = (s.hear pid bytes).unheard task.process ++ task.errMessage := by
  by_cases hp : p = s.sources pid
  · subst hp
    cases hold : s.runningCompilationTasks.lookup (s.sources pid) with
    | none =>
        rw [hear_of_none hold, hold] at htask
        exact absurd htask (by simp)
    | some task' =>
        rw [hear_of_task hold, Finmap.lookup_insert] at htask
        obtain rfl := Option.some.inj htask
        have hown := h.own_task halive hold
        have hheard := h.heard _ task' hold
        rw [hown] at hheard
        simp [Threads.setChild, hear_of_task hold, hown, Child.deliver, hheard,
          String.append_assoc]
  · rw [hear_lookup_of_ne hp] at htask
    have hpid : task.process ≠ pid := by
      rintro hpid
      exact hp ((h.source p task htask).1.symm.trans (by rw [hpid]))
    rw [hear_unheard_of_ne hpid, ← h.heard p task htask]
    simp [Threads.setChild, hpid]

/-- The callback hands over its bytes. They go to the task of its own process, or nowhere if
there is none. -/
theorem deliver (h : s.TasksOk) {pid : ℕ} {bytes : String}
    (hinside : (s.children pid).reader = .inside bytes) :
    ((s.hear pid bytes).setChild pid ((s.children pid).deliver .leaving bytes)).TasksOk := by
  have halive : (s.children pid).reader ≠ .ended := by simp [hinside]
  have hborn : pid < s.started := by
    by_contra hge
    exact halive (by simp [(h.unborn pid (Nat.le_of_not_lt hge)).1, Child.unborn])
  have hself : ((s.hear pid bytes).setChild pid
      ((s.children pid).deliver .leaving bytes)).children pid =
      (s.children pid).deliver .leaving bytes := by
    simp [Threads.setChild]
  have hchild : ∀ pid' ≠ pid, ((s.hear pid bytes).setChild pid
      ((s.children pid).deliver .leaving bytes)).children pid' = s.children pid' := by
    intro pid' hpid
    simp [Threads.setChild, hpid]
  refine h.of_frame (hear_main ..) (hear_sources ..) (hear_started ..) hear_lookup_process
    ?_ ?_ ?_ ?_ ?_
  · intro pid' hreader
    by_cases hpid : pid' = pid
    · exact hpid ▸ halive
    · rwa [hchild pid' hpid] at hreader
  · intro pid' hpid'
    have hpid : pid' ≠ pid := by omega
    exact ⟨hchild pid' hpid, hear_unheard_of_ne hpid⟩
  · intro pid'
    by_cases hpid : pid' = pid
    · rw [hpid, hself]
      exact (h.conserves pid).deliver (by simp [hinside]) (Or.inr rfl)
    · rw [hchild pid' hpid]
      exact h.conserves pid'
  · intro p task htask
    exact h.heard_deliver halive htask
  · refine h.placed.of_frame (hear_main ..) (hear_sources ..) (hear_started ..)
      hear_lookup_process ?_ ?_ ?_
    · intro env henv key status err hkey
      obtain ⟨pid', htask, hreader, hstatus⟩ := henv key status err hkey
      have hpid : pid' ≠ pid := by
        rintro rfl
        exact halive hreader
      have hkey' : key ≠ s.sources pid := by
        rintro rfl
        exact hpid (h.own_task halive htask)
      refine ⟨pid', ?_, by rw [hchild pid' hpid, hreader], by rw [hchild pid' hpid, hstatus]⟩
      exact (hear_lookup_of_ne hkey').trans htask
    · intro pid' status hstatus
      by_cases hpid : pid' = pid
      · rw [hpid, hself]
        rwa [hpid] at hstatus
      · rwa [hchild pid' hpid]
    · intro pid' hdetached hunheard
      by_cases hpid : pid' = pid
      · subst hpid
        rw [hself]
        change _ = (s.hear pid' bytes).unheard pid'
        rw [hear_of_none (h.detached pid' hdetached)]
        simp [Child.deliver, hunheard]
      · rw [hchild pid' hpid, hunheard]
        exact (hear_unheard_of_ne hpid).symm

theorem background (h : s.TasksOk) (hstep : Background s s') : s'.TasksOk := by
  cases hstep with
  | child pid child' hchild =>
      exact h.setChild pid hchild.reader_ne_ended (hchild.eq_of_ended (h.conserves pid))
        ((h.conserves pid).step hchild) hchild.delivered_eq fun _ => hchild.exitStatus_of_some
  | acquire pid bytes hcalling hfree =>
      refine (h.setChild pid ?_ ?_ ?_ ?_ ?_).withMutex _
      · simp [hcalling]
      · simp [hcalling]
      · exact (h.conserves pid).enter hcalling
      · rfl
      · exact fun _ => id
  | deliver pid bytes hinside => exact h.deliver hinside
  | release pid hleaving =>
      refine (h.setChild pid ?_ ?_ ?_ ?_ ?_).withMutex _
      · simp [hleaving]
      · simp [hleaving]
      · exact (h.conserves pid).leave hleaving
      · rfl
      · exact fun _ => id
  | linker | deliverLink | faultLink =>
      exact ⟨h.source, h.alive, h.detached, h.unborn, h.conserves, h.heard, h.placed⟩

/-- The main thread moves on without touching the tasks and the processes; a process that
gets its reader joined is no longer detached. -/
theorem move (h : s.TasksOk) (htasks : s'.runningCompilationTasks = s.runningCompilationTasks)
    (hchildren : s'.children = s.children) (hsources : s'.sources = s.sources)
    (hstarted : s'.started = s.started) (hunheard : s'.unheard = s.unheard)
    (hdetached : ∀ pid, s'.main.Detached pid → s.main.Detached pid)
    (hjoined : ∀ pid, s.main.Detached pid →
      s'.main.Detached pid ∨ (s.children pid).reader = .ended)
    (hplaced : s'.Placed) : s'.TasksOk := by
  refine ⟨?_, ?_, ?_, ?_, ?_, ?_, hplaced⟩
  · rw [htasks, hsources, hstarted]
    exact h.source
  · intro pid hreader
    rw [hchildren] at hreader
    rw [htasks, hsources]
    refine (h.alive pid hreader).imp_right ?_
    exact fun hpid => (hjoined pid hpid).resolve_right hreader
  · intro pid hpid
    rw [htasks, hsources]
    exact h.detached pid (hdetached pid hpid)
  · rw [hstarted, hchildren, hunheard]
    exact h.unborn
  · rw [hchildren]
    exact h.conserves
  · rw [htasks, hchildren, hunheard]
    exact h.heard

/-- A running process is killed: its task leaves the map. -/
theorem kill (h : s.TasksOk) {edit : Edit} {pid : ℕ} (hmain : s.main = .killing edit pid) :
    TasksOk { s with
      main := .joining edit pid
      runningCompilationTasks := s.runningCompilationTasks.erase edit.path } := by
  obtain ⟨err, herr⟩ : ∃ err, s.runningCompilationTasks.lookup edit.path = some ⟨pid, err⟩ := by
    simpa [Placed, hmain] using h.placed
  obtain ⟨hsource, hborn⟩ := h.source _ _ herr
  have hsub : ∀ p task, (s.runningCompilationTasks.erase edit.path).lookup p = some task →
      s.runningCompilationTasks.lookup p = some task := by
    intro p task htask
    by_cases hp : p = edit.path
    · subst hp
      simp at htask
    · rwa [Finmap.lookup_erase_ne hp] at htask
  refine ⟨fun p task htask => h.source p task (hsub p task htask), ?_, ?_, h.unborn, h.conserves,
    fun p task htask => h.heard p task (hsub p task htask), hsource⟩
  · intro pid' hreader
    rcases h.alive pid' hreader with ⟨err', herr'⟩ | hdetached
    · by_cases hp : s.sources pid' = edit.path
      · rw [hp, herr] at herr'
        obtain ⟨rfl, -⟩ := by simpa using herr'
        exact Or.inr rfl
      · exact Or.inl ⟨err', (Finmap.lookup_erase_ne hp).trans herr'⟩
    · simp [hmain, MainThread.Detached] at hdetached
  · intro pid' hdetached
    obtain rfl : pid = pid' := hdetached
    change (s.runningCompilationTasks.erase edit.path).lookup (s.sources pid) = none
    rw [hsource, Finmap.lookup_erase]

/-- The tasks of the processes that have been reported leave the map. -/
theorem sweep (h : s.TasksOk) {env : Environment} (t : Session W)
    (hmain : s.main = .polling env []) :
    TasksOk { s with
      main := .starting env t
      runningCompilationTasks := eraseAll s.runningCompilationTasks (s.tasksToRemove env) } := by
  have hanswered : s.Answered env := by
    have hplaced := h.placed
    rw [Placed, hmain] at hplaced
    exact hplaced.1
  have hsub : ∀ p task, (eraseAll s.runningCompilationTasks (s.tasksToRemove env)).lookup p =
      some task → s.runningCompilationTasks.lookup p = some task := by
    intro p task htask
    rw [lookup_eraseAll] at htask
    split at htask
    · simp at htask
    · exact htask
  refine ⟨fun p task htask => h.source p task (hsub p task htask), ?_, ?_, h.unborn, h.conserves,
    fun p task htask => h.heard p task (hsub p task htask), trivial⟩
  · intro pid hreader
    rcases h.alive pid hreader with ⟨err, herr⟩ | hdetached
    · refine Or.inl ⟨err, ?_⟩
      change (eraseAll s.runningCompilationTasks (s.tasksToRemove env)).lookup (s.sources pid) = _
      rw [lookup_eraseAll, if_neg, herr]
      -- an answered task has no reader any more
      intro hmem
      obtain ⟨-, hsome⟩ := List.mem_filter.mp hmem
      obtain ⟨⟨status, err'⟩, hexit⟩ := Option.isSome_iff_exists.mp hsome
      obtain ⟨pid', htask, hended, -⟩ := hanswered _ _ _ hexit
      rw [herr] at htask
      obtain ⟨rfl, -⟩ := by simpa using htask
      exact hreader hended
    · simp [hmain, MainThread.Detached] at hdetached
  · intro pid hdetached
    exact hdetached.elim

/-- A new process, whose path is not the one of a task. -/
theorem fork (h : s.TasksOk) {env : Environment} {t : Session W}
    {pendingTask : PendingCompilationTask} (hmain : s.main = .starting env t)
    (hnew : s.runningCompilationTasks.lookup pendingTask.cu.sourceFilePath = none) :
    TasksOk { s with
      main := .entering env t s.started pendingTask
      started := s.started + 1
      children := Function.update s.children s.started {}
      sources := Function.update s.sources s.started pendingTask.cu.sourceFilePath } := by
  have hold : ∀ p task, s.runningCompilationTasks.lookup p = some task →
      task.process ≠ s.started := by
    intro p task htask
    have hlt := (h.source p task htask).2
    omega
  refine ⟨?_, ?_, ?_, ?_, ?_, ?_, ?_⟩
  · intro p task htask
    obtain ⟨hsource, hlt⟩ := h.source p task htask
    exact ⟨(Function.update_of_ne (hold p task htask) _ _).trans hsource, by
      change task.process < s.started + 1
      omega⟩
  · intro pid hreader
    by_cases hpid : pid = s.started
    · exact Or.inr hpid.symm
    · have hreader' : (s.children pid).reader ≠ .ended := by
        simpa [hpid] using hreader
      rcases h.alive pid hreader' with ⟨err, herr⟩ | hdetached
      · refine Or.inl ⟨err, ?_⟩
        change s.runningCompilationTasks.lookup (Function.update s.sources s.started _ pid) = _
        rw [Function.update_of_ne hpid, herr]
      · simp [hmain, MainThread.Detached] at hdetached
  · intro pid hdetached
    obtain rfl : s.started = pid := hdetached
    change s.runningCompilationTasks.lookup (Function.update s.sources s.started _ s.started) = _
    rw [Function.update_self, hnew]
  · intro pid hpid
    change s.started + 1 ≤ pid at hpid
    have hne : pid ≠ s.started := by omega
    exact ⟨(Function.update_of_ne hne _ _).trans (h.unborn pid (by omega)).1,
      (h.unborn pid (by omega)).2⟩
  · exact (Function.forall_update_iff s.children fun _ c => c.Conserves).mpr
      ⟨.start, fun pid _ => h.conserves pid⟩
  · intro p task htask
    change (Function.update s.children s.started {} task.process).delivered = _
    rw [Function.update_of_ne (hold p task htask)]
    exact h.heard p task htask
  · refine ⟨by simp, by simp, ?_⟩
    simpa using (h.unborn s.started (Nat.le_refl _)).2.symm

/-- The task of a new process is entered. -/
theorem enter (h : s.TasksOk) {env : Environment} {t t' : Session W} {pid : ℕ}
    {pendingTask : PendingCompilationTask} (hmain : s.main = .entering env t pid pendingTask) :
    TasksOk { s with
      main := .starting env t'
      runningCompilationTasks := s.runningCompilationTasks.insert
        pendingTask.cu.sourceFilePath { process := pid } } := by
  obtain ⟨hsource, hborn, hdelivered⟩ : s.sources pid = pendingTask.cu.sourceFilePath ∧
      pid < s.started ∧ (s.children pid).delivered = s.unheard pid := by
    simpa [Placed, hmain] using h.placed
  have hnone := h.detached pid (by simp [hmain, MainThread.Detached])
  rw [hsource] at hnone
  have hcases : ∀ p task, (s.runningCompilationTasks.insert pendingTask.cu.sourceFilePath
      { process := pid }).lookup p = some task →
      (p = pendingTask.cu.sourceFilePath ∧ task = { process := pid }) ∨
        s.runningCompilationTasks.lookup p = some task := by
    intro p task htask
    by_cases hp : p = pendingTask.cu.sourceFilePath
    · subst hp
      rw [Finmap.lookup_insert] at htask
      exact Or.inl ⟨rfl, (Option.some.inj htask).symm⟩
    · rw [Finmap.lookup_insert_of_ne _ hp] at htask
      exact Or.inr htask
  refine ⟨?_, ?_, ?_, h.unborn, h.conserves, ?_, trivial⟩
  · intro p task htask
    rcases hcases p task htask with ⟨rfl, rfl⟩ | hold
    · exact ⟨hsource, hborn⟩
    · exact h.source p task hold
  · intro pid' hreader
    refine Or.inl ?_
    change ∃ err, (s.runningCompilationTasks.insert pendingTask.cu.sourceFilePath
      { process := pid }).lookup (s.sources pid') = some ⟨pid', err⟩
    rcases h.alive pid' hreader with ⟨err, herr⟩ | hdetached
    · have hp : s.sources pid' ≠ pendingTask.cu.sourceFilePath := by
        intro hp
        rw [hp, hnone] at herr
        simp at herr
      exact ⟨err, (Finmap.lookup_insert_of_ne _ hp).trans herr⟩
    · obtain rfl : pid = pid' := by simpa [hmain, MainThread.Detached] using hdetached
      refine ⟨"", ?_⟩
      rw [hsource, Finmap.lookup_insert]
  · intro pid' hdetached
    exact hdetached.elim
  · intro p task htask
    rcases hcases p task htask with ⟨rfl, rfl⟩ | hold
    · simpa using hdelivered
    · exact h.heard p task hold

theorem main_step (h : s.TasksOk) (hstep : Main host d s s')
    (hnew : ∀ env t pendingTask rest, s.main = .starting env t →
      t.compiler.pendingCompilationTasks = pendingTask :: rest →
      s.runningCompilationTasks.lookup pendingTask.cu.sourceFilePath = none) : s'.TasksOk := by
  have hplaced := h.placed
  cases hstep
  case kill edit pid hmain => exact h.kill hmain
  case sweep env hmain => exact h.sweep _ hmain
  case fork env t pendingTask rest hmain hpending hcard =>
    exact h.fork hmain (hnew env t pendingTask rest hmain hpending)
  case enter env t pid pendingTask hmain => exact h.enter hmain
  case joined edit pid hmain hended =>
    refine h.move rfl rfl rfl rfl rfl (by simp [MainThread.Detached]) ?_ trivial
    intro pid' hdetached
    obtain rfl : pid = pid' := by simpa [hmain, MainThread.Detached] using hdetached
    exact Or.inr hended
  case found edit task hmain htask =>
    exact h.move rfl rfl rfl rfl rfl (by simp [MainThread.Detached])
      (by simp [hmain, MainThread.Detached]) ⟨task.errMessage, htask⟩
  case update env hmain =>
    refine h.move rfl rfl rfl rfl rfl (by simp [MainThread.Detached])
      (by simp [hmain, MainThread.Detached]) ⟨?_, ?_⟩
    · intro key status err hkey
      simp [Environment.unanswered] at hkey
    · intro key hkey
      exact Finmap.mem_keys.mp ((env.runningOrder.mem_toList _ key).mp hkey)
  case pollRunning env key keys task hmain htask hexit =>
    rw [Placed, hmain] at hplaced
    exact h.move rfl rfl rfl rfl rfl (by simp [MainThread.Detached])
      (by simp [hmain, MainThread.Detached])
      ⟨hplaced.1, fun key' hkey => hplaced.2 key' (List.mem_cons_of_mem _ hkey)⟩
  case pollExited env key keys task status hmain htask hexit =>
    rw [Placed, hmain] at hplaced
    exact h.move rfl rfl rfl rfl rfl (by simp [MainThread.Detached])
      (by simp [hmain, MainThread.Detached]) ⟨hplaced.1, ⟨task.errMessage, htask⟩, hexit,
        fun key' hkey => hplaced.2 key' (List.mem_cons_of_mem _ hkey)⟩
  case report env key pid status keys task hmain hended htask =>
    rw [Placed, hmain] at hplaced
    obtain ⟨hanswered, ⟨err, herr⟩, hstatus, hkeys⟩ := hplaced
    rw [htask] at herr
    obtain rfl := Option.some.inj herr
    refine h.move rfl rfl rfl rfl rfl (by simp [MainThread.Detached])
      (by simp [hmain, MainThread.Detached]) ⟨?_, hkeys⟩
    intro key' status' err' hkey'
    by_cases hkey : key' = key
    · subst hkey
      obtain ⟨rfl, rfl⟩ := by simpa [Environment.answer] using hkey'
      exact ⟨pid, htask, hended, hstatus⟩
    · exact hanswered key' status' err' (by simpa [Environment.answer, hkey] using hkey')
  -- nothing is said about the tasks at the other positions
  all_goals
    refine h.move rfl rfl rfl rfl rfl ?_ ?_ ?_
    · simp [*, MainThread.Detached]
    · simp [*, MainThread.Detached]
    · simp [*, Placed]

end TasksOk

end Threads

end JetLive

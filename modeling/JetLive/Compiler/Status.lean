import JetLive.Compiler.Records
import JetLive.Compiler.Run

/-!
# The status of the compiler

`Live::getStatus` tells which files are being compiled, which have been compiled and which have
failed. It is asked between the calls of the compiler. What it ought to tell is read off the
trace: `Board` follows the requests, the ends of compilations and the ends of links, and never
looks at the tasks. The two agree after every run.

Inside `update` they need not agree: the tasks that have been polled are removed only after the
loop over all of them, so `Shows` counts the tasks that are polled and not removed yet.
-/

namespace JetLive

open Containers EventTrace

structure Status where
  compilingFiles : Finset String
  successfulFiles : Finset String
  failedFiles : Finset String
  deriving DecidableEq

namespace Compiler

def getFilesBeingCompiled (c : Compiler) : Finset String :=
  (c.pendingCompilationTasks.map fun el => TeenyPath.filenameOf el.cu.sourceFilePath).toFinset ∪
    c.runningCompilationTasks.keys.biUnion fun key =>
      ((c.runningCompilationTasks.lookup key).map fun task => task.filename).toFinset

def getSuccessfullyCompiledFiles (c : Compiler) : Finset String :=
  c.readyCompilationUnits.keys.biUnion fun key =>
    ((c.readyCompilationUnits.lookup key).map fun cu =>
      TeenyPath.filenameOf cu.sourceFilepath).toFinset

def getFailedToCompileFiles (c : Compiler) : Finset String := c.failedCompilationUnits.toFinset

/-- What is collected over the values of a map. -/
theorem mem_biUnion_lookup {α : Type*} {m : UnorderedMap String α} {g : α → String} {f : String} :
    f ∈ (m.keys.biUnion fun key => ((m.lookup key).map g).toFinset) ↔
      ∃ p a, m.lookup p = some a ∧ g a = f := by
  simp only [Finset.mem_biUnion, Finmap.mem_keys, Option.mem_toFinset, Option.mem_def,
    Option.map_eq_some_iff]
  constructor
  · rintro ⟨p, _, a, ha, hf⟩
    exact ⟨p, a, ha, hf⟩
  · rintro ⟨p, a, ha, hf⟩
    exact ⟨p, Finmap.mem_of_lookup_eq_some ha, a, ha, hf⟩

/-- `Live::getStatus`; the files being compiled are erased from the other two sets. -/
def getStatus (c : Compiler) : Status where
  compilingFiles := c.getFilesBeingCompiled
  successfulFiles := c.getSuccessfullyCompiledFiles \ c.getFilesBeingCompiled
  failedFiles := c.getFailedToCompileFiles \ c.getFilesBeingCompiled

end Compiler

/-- What a trace tells about the sources. -/
structure Board where
  /-- Requested, and neither finished nor removed since. -/
  asked : Finset String := ∅
  /-- Compiled with success, and since then neither compiled without success, nor removed, nor
  loaded. -/
  ready : Finset String := ∅
  /-- The file names for which the last compilation to finish failed. -/
  failed : Finset String := ∅

namespace Board

def next (b : Board) : Event → Board
  | .compile cu => { b with asked := insert cu.sourceFilePath b.asked }
  | .remove p => { b with asked := b.asked.erase p, ready := b.ready.erase p }
  | .compileFinished _ status p _ =>
      { asked := b.asked.erase p
        ready := if status = 0 then insert p b.ready else b.ready.erase p
        failed :=
          if status = 0 then b.failed.erase (TeenyPath.filenameOf p)
          else insert (TeenyPath.filenameOf p) b.failed }
  | .linkTaskReset status => { b with ready := if status = 0 then ∅ else b.ready }
  | _ => b

/-- The status as it should be told. -/
def status (b : Board) : Status where
  compilingFiles := b.asked.image TeenyPath.filenameOf
  successfulFiles := b.ready.image TeenyPath.filenameOf \ b.asked.image TeenyPath.filenameOf
  failedFiles := b.failed \ b.asked.image TeenyPath.filenameOf

end Board

def board : CompilerTrace → Board
  | [] => {}
  | (_, e) :: t => (board t).next e

@[simp] theorem board_cons (c : Compiler) (e : Event) (t : CompilerTrace) :
    board ((c, e) :: t) = (board t).next e := rfl

/-- The status of the compilation that was the last one to finish among the sources with this file
name. -/
def latestStatus (filename : String) : CompilerTrace → Option ℤ
  | [] => none
  | (_, .compileFinished _ status p _) :: t =>
      if TeenyPath.filenameOf p = filename then some status else latestStatus filename t
  | _ :: t => latestStatus filename t

theorem mem_board_failed (filename : String) (t : CompilerTrace) :
    filename ∈ (board t).failed ↔ ∃ status, latestStatus filename t = some status ∧ status ≠ 0 := by
  induction t with
  | nil => simp [board, latestStatus]
  | cons x t ih =>
      obtain ⟨c, e⟩ := x
      cases e with
      | compileFinished callback status p err =>
          rw [board_cons, latestStatus, Board.next]
          by_cases hname : TeenyPath.filenameOf p = filename
          · by_cases hstatus : status = 0 <;> simp [hname, hstatus]
          · by_cases hstatus : status = 0 <;> simp [hname, hstatus, Ne.symm hname, ih]
      | _ => exact ih

def Event.Unshown : Event → Prop
  | .compile _ | .remove _ | .compileFinished .. | .linkTaskReset _ => False
  | _ => True

theorem Board.next_of_unshown (b : Board) {e : Event} (he : e.Unshown) : b.next e = b := by
  cases e <;> first | rfl | exact he.elim

theorem board_append {u : CompilerTrace} (hu : ∀ x ∈ u, x.2.Unshown) (t : CompilerTrace) :
    board (u ++ t) = board t := by
  induction u with
  | nil => rfl
  | cons x u ih =>
      obtain ⟨hx, hu⟩ := List.forall_mem_cons.mp hu
      exact (Board.next_of_unshown _ hx).trans (ih hu)

namespace Session

variable {W : Type*} {s s' : Session W} {polled : Finset String}

theorem board_foldl_host (l : List HostEvent) (s : Session W) :
    board (l.foldl (fun s e => s.emit (.host e)) s).trace = board s.trace := by
  induction l generalizing s with
  | nil => rfl
  | cons e l ih => exact ih (s.emit (.host e))

@[simp] theorem board_callback (e : Event) (effect : W → W × List HostEvent) (s : Session W) :
    board (s.callback e effect).trace = (board s.trace).next e := by
  rw [callback, board_foldl_host]
  rfl

@[simp] theorem board_addLog (severity : LogSeverity) (message : String) (s : Session W) :
    board (s.addLog severity message).trace = board s.trace := rfl

/-- The tasks of the compiler are those of the board, but for the `polled` ones. -/
structure Shows (s : Session W) (polled : Finset String) : Prop where
  asked : ∀ p, p ∈ (board s.trace).asked ↔
    p ∈ s.compiler.pendingPaths ∨ p ∈ s.compiler.runningCompilationTasks ∧ p ∉ polled
  ready : ∀ p, p ∈ (board s.trace).ready ↔ p ∈ s.compiler.readyCompilationUnits
  failed : ∀ f, f ∈ (board s.trace).failed ↔ f ∈ s.compiler.failedCompilationUnits

namespace Shows

theorem initial (w : W) : Shows ({ world := w } : Session W) ∅ := by
  refine ⟨?_, ?_, ?_⟩
  · simp [board, Compiler.pendingPaths, ← Finmap.mem_keys]
  · simp [board, ← Finmap.mem_keys]
  · simp [board]

/-- A step that touches neither the tasks nor the board. -/
theorem of_same (h : s.Shows polled) (hboard : board s'.trace = board s.trace)
    (hpending : s'.compiler.pendingCompilationTasks = s.compiler.pendingCompilationTasks)
    (hrunning : s'.compiler.runningCompilationTasks = s.compiler.runningCompilationTasks)
    (hready : s'.compiler.readyCompilationUnits = s.compiler.readyCompilationUnits)
    (hfailed : s'.compiler.failedCompilationUnits = s.compiler.failedCompilationUnits) :
    s'.Shows polled := by
  refine ⟨?_, ?_, ?_⟩
  · simpa only [hboard, Compiler.pendingPaths, hpending, hrunning] using h.asked
  · simpa only [hboard, hready] using h.ready
  · simpa only [hboard, hfailed] using h.failed

theorem addLog (h : s.Shows polled) (severity : LogSeverity) (message : String) :
    (s.addLog severity message).Shows polled :=
  h.of_same rfl rfl rfl rfl rfl

theorem compile (h : s.Shows ∅) (cu : CompilationUnit) (callback : FinishCallback) :
    (s.compile cu callback).Shows ∅ := by
  refine ⟨?_, h.ready, h.failed⟩
  intro p
  change p ∈ insert cu.sourceFilePath (board s.trace).asked ↔
    p ∈ (s.compiler.enqueue cu callback).pendingPaths ∨
      p ∈ s.compiler.runningCompilationTasks.erase cu.sourceFilePath ∧ p ∉ (∅ : Finset String)
  rw [Finset.mem_insert, h.asked, Compiler.mem_pendingPaths_enqueue, Finmap.mem_erase]
  by_cases hp : p = cu.sourceFilePath
  · simp [hp]
  · simp [hp]

theorem remove (h : s.Shows ∅)
    (hkey : ∀ p cu, s.compiler.readyCompilationUnits.lookup p = some cu → cu.sourceFilepath = p)
    (order : Iteration String) (p : String) : (s.remove order p).Shows ∅ := by
  refine ⟨?_, ?_, h.failed⟩
  · intro q
    change q ∈ (board s.trace).asked.erase p ↔ q ∈ (s.compiler.dequeue order p).pendingPaths ∨
      q ∈ s.compiler.runningCompilationTasks.erase p ∧ q ∉ (∅ : Finset String)
    rw [Finset.mem_erase, h.asked, Compiler.pendingPaths_dequeue, Finmap.mem_erase]
    simp [and_or_left, and_comm]
  · intro q
    change q ∈ (board s.trace).ready.erase p ↔
      q ∈ (s.compiler.dequeue order p).readyCompilationUnits
    rw [Finset.mem_erase, h.ready, Compiler.dequeue_ready order p hkey, Finmap.mem_erase]

/-! ## The parts of `update` -/

/-- A polled task is shown as finished. -/
theorem pollTask (h : s.Shows polled) (host : Host W) (env : Environment) {key : String}
    (hkey : s.compiler.WellKeyed)
    (hname : ∀ p task, s.compiler.runningCompilationTasks.lookup p = some task →
      task.filename = TeenyPath.filenameOf p)
    (hpending : key ∉ s.compiler.pendingPaths) :
    (s.pollTask host env key).Shows
      (if (env.exitStatus key).isSome then insert key polled else polled) := by
  unfold Session.pollTask
  split
  · rename_i task status err hrun hexit
    have hpath := hkey key task hrun
    have hfile := hname key task hrun
    have hasked : ∀ p, p ∈ (board s.trace).asked.erase key ↔ p ∈ s.compiler.pendingPaths ∨
        p ∈ s.compiler.runningCompilationTasks ∧ p ∉ insert key polled := by
      intro p
      rw [Finset.mem_erase, h.asked, Finset.mem_insert]
      by_cases hp : p = key
      · simp [hp, hpending]
      · simp [hp]
    rw [hexit, Option.isSome_some, if_pos rfl, hpath, hfile]
    by_cases hstatus : status = 0
    · refine ⟨?_, ?_, ?_⟩
      · simpa [hstatus, Board.next, Compiler.pendingPaths] using hasked
      · simp [hstatus, Board.next, h.ready]
      · simp [hstatus, Board.next, h.failed, and_comm]
    · refine ⟨?_, ?_, ?_⟩
      · simpa [hstatus, Board.next, Compiler.pendingPaths] using hasked
      · simp [hstatus, Board.next, h.ready]
      · simp [hstatus, Board.next, h.failed]
  · rename_i hnone
    split
    · rename_i hexit
      obtain ⟨answer, hanswer⟩ := Option.isSome_iff_exists.mp hexit
      have hrun : key ∉ s.compiler.runningCompilationTasks := by
        intro hmem
        obtain ⟨task, htask⟩ := Finmap.mem_iff.mp hmem
        exact hnone task answer.1 answer.2 htask hanswer
      refine ⟨?_, h.ready, h.failed⟩
      intro p
      rw [h.asked, Finset.mem_insert]
      by_cases hp : p = key
      · simp [hp, hrun]
      · simp [hp]
    · exact h

end Shows

theorem pollTask_pendingPaths (host : Host W) (env : Environment) (s : Session W)
    (key : String) : (s.pollTask host env key).compiler.pendingPaths = s.compiler.pendingPaths := by
  unfold Session.pollTask
  split
  · rename_i status _ _ _
    by_cases hstatus : status = 0 <;> simp [hstatus, Compiler.pendingPaths]
  · rfl

namespace Shows

theorem foldl_pollTask (host : Host W) (env : Environment) {keys : List String}
    (h : s.Shows polled) (hkey : s.compiler.WellKeyed)
    (hname : ∀ p task, s.compiler.runningCompilationTasks.lookup p = some task →
      task.filename = TeenyPath.filenameOf p)
    (hpending : ∀ key ∈ keys, key ∉ s.compiler.pendingPaths) :
    (keys.foldl (Session.pollTask host env) s).Shows
      (polled ∪ (keys.filter fun key => (env.exitStatus key).isSome).toFinset) := by
  induction keys generalizing s polled with
  | nil => simpa using h
  | cons key keys ih =>
      obtain ⟨hhead, htail⟩ := List.forall_mem_cons.mp hpending
      have hpolled := ih (h.pollTask host env hkey hname hhead)
        (by simpa [Compiler.WellKeyed] using hkey) (by simpa using hname)
        (by simpa [pollTask_pendingPaths] using htail)
      have hset : polled ∪ ((key :: keys).filter fun key => (env.exitStatus key).isSome).toFinset =
          (if (env.exitStatus key).isSome then insert key polled else polled) ∪
            (keys.filter fun key => (env.exitStatus key).isSome).toFinset := by
        by_cases hexit : (env.exitStatus key).isSome
        · simp [hexit]
        · simp [hexit]
      rw [hset]
      exact hpolled

theorem pollCompilations {d : Discipline} (h : s.Shows ∅) (host : Host W) (env : Environment)
    (hreached : Reached d s.compiler s.trace) : (s.pollCompilations host env).Shows ∅ := by
  have hcoherent := hreached.coherent
  have hpending : ∀ key ∈ env.runningOrder.toList s.compiler.runningCompilationTasks.keys,
      key ∉ s.compiler.pendingPaths := by
    intro key hmem hpending
    rw [Iteration.mem_toList, Finmap.mem_keys] at hmem
    exact hcoherent.pending_not_running key hpending hmem
  have hpolled := h.foldl_pollTask host env hcoherent.running.key hcoherent.running.filename
    hpending
  refine ⟨?_, hpolled.ready, hpolled.failed⟩
  intro p
  refine (hpolled.asked p).trans ?_
  simp only [Session.pollCompilations, modify_compiler, mem_eraseAll]
  simp [Compiler.pendingPaths]

theorem startPending (n : ℕ) {pending : List PendingCompilationTask} (h : s.Shows ∅)
    (hpending : s.compiler.pendingCompilationTasks = pending) :
    (Session.startPending n pending s).Shows ∅ := by
  induction pending generalizing s with
  | nil => exact h
  | cons task rest ih =>
      unfold Session.startPending
      split
      · refine ih ⟨?_, h.ready, h.failed⟩ (by simp [doCompile, hpending])
        intro p
        refine (h.asked p).trans ?_
        simp only [Compiler.pendingPaths, doCompile, hpending, modify_compiler, emit_compiler,
          addLog_compiler, List.map_cons, List.tail_cons, List.mem_cons, Finmap.mem_insert]
        tauto
      · exact h

theorem resolveUndefined (context : LiveContext) (env : Environment) (round : ℕ)
    (names : Finset String) (search : LinkSearch W) (h : search.session.Shows ∅) :
    (Session.resolveUndefined context env round names search).session.Shows ∅ := by
  fun_induction Session.resolveUndefined context env round names search with
  | case1 => exact h
  | case2 _ _ _ _ _ _ ih => exact ih h
  | case3 _ _ _ _ _ _ _ _ ih => exact ih h
  | case4 _ _ _ _ _ cu _ _ ih => exact ih (h.compile cu .nothing)

theorem doLink (h : s.Shows ∅) (config : LiveConfig) (context : LiveContext) (env : Environment)
    (callback : LinkFinishCallback) : (s.doLink config context env callback).Shows ∅ := by
  unfold Session.doLink
  split
  · exact h.addLog _ _
  · dsimp only
    have hsearch := fun names objects => resolveUndefined context env 0 names
      ⟨s.modify fun c => { c with shouldLink := false }, objects, false⟩
      (h.of_same rfl rfl rfl rfl rfl)
    split
    · exact (hsearch _ _).of_same rfl rfl rfl rfl rfl
    · exact (hsearch _ _).of_same rfl rfl rfl rfl rfl

theorem decideLink (h : s.Shows ∅) (host : Host W) (config : LiveConfig) (env : Environment) :
    (s.decideLink host config env).Shows ∅ := by
  unfold Session.decideLink
  split
  · dsimp only
    set taken := s.modify fun c => { c with shouldLink := false }
    have htaken : taken.Shows ∅ := h.of_same rfl rfl rfl rfl rfl
    split
    · exact htaken.doLink config _ env _
    · have hboard : board taken.logFailed.trace = board taken.trace := by
        have hfold : ∀ (l : List String) (t : Session W), board (l.foldl
            (fun s el => s.addLog .kWarning ("* " ++ el)) t).trace = board t.trace := by
          intro l
          induction l with
          | nil => exact fun _ => rfl
          | cons el l ih => exact fun t => ih (t.addLog _ _)
        exact hfold _ _
      refine htaken.of_same ?_ ?_ ?_ ?_ ?_
      · rw [board_callback, hboard]
        rfl
      all_goals simp
  · exact h

theorem pollLink (h : s.Shows ∅) (host : Host W) (env : Environment) :
    (s.pollLink host env).Shows ∅ := by
  rcases pollLink_cases host env s with heq | ⟨_, _, status, _, s₁, _, _, hs₁, _, hloading, heq⟩
  · rw [heq]
    exact h
  · obtain ⟨⟨u, hu, hunshown⟩, -⟩ := hloading
    have hboard : board s₁.trace = board s.trace := by
      rw [hu]
      refine board_append ?_ _
      intro x hx
      have hloaded := hunshown x hx
      cases hevent : x.2 <;> simp_all [Event.Loading, Event.Unshown]
    rw [heq]
    refine ⟨?_, ?_, ?_⟩
    · simpa [Board.next, hboard, hs₁, Compiler.pendingPaths] using h.asked
    · by_cases hstatus : status = 0
      · simp [hstatus, Board.next, ← Finmap.mem_keys]
      · simpa [hstatus, Board.next, hboard, hs₁] using h.ready
    · simpa [Board.next, hboard, hs₁] using h.failed

theorem update {d : Discipline} (h : s.Shows ∅) (host : Host W) (env : Environment)
    (hreached : Reached d s.compiler s.trace) : (s.update host d.config env).Shows ∅ :=
  (((h.pollCompilations host env hreached).startPending _ rfl).decideLink host d.config
    env).pollLink host env

end Shows

end Session

namespace Run

variable {W : Type*} {host : Host W} {d : Discipline} {s : Session W}

theorem shows (h : Run host d s) : s.Shows ∅ := by
  induction h with
  | start w => exact .initial w
  | @call s hrun call _ ih =>
      have hreached := hrun.reached
      cases call with
      | compile cu callback => exact ih.compile cu callback
      | remove order p => exact ih.remove hreached.coherent.ready_key order p
      | link callback => exact ih.of_same rfl rfl rfl rfl rfl
      | update env => exact ih.update host env hreached
  | outside _ w ih => exact ih.of_same rfl rfl rfl rfl rfl

/-- **The status is that of the trace**: after any calls, with any ends of the processes, the
files told to be compiling are those of the sources that were requested and neither finished nor
removed since; the successful ones are those of the sources that were compiled with success and
not loaded since; the failed ones are the file names for which the last compilation to finish
failed. Sources with the same file name count as one there. -/
theorem status_exact (h : Run host d s) :
    s.compiler.getStatus = (board s.trace).status ∧ ∀ filename,
      filename ∈ (board s.trace).failed ↔
        ∃ status, latestStatus filename s.trace = some status ∧ status ≠ 0 := by
  refine ⟨?_, fun filename => mem_board_failed filename s.trace⟩
  have hshows := h.shows
  have hcoherent := h.reached.coherent
  have hcompiling : s.compiler.getFilesBeingCompiled =
      (board s.trace).asked.image TeenyPath.filenameOf := by
    ext f
    simp only [Compiler.getFilesBeingCompiled, Finset.mem_union, List.mem_toFinset, List.mem_map,
      Compiler.mem_biUnion_lookup, Finset.mem_image, hshows.asked, Finset.notMem_empty,
      not_false_eq_true, and_true]
    constructor
    · rintro (⟨task, htask, rfl⟩ | ⟨p, task, htask, rfl⟩)
      · exact ⟨_, Or.inl (List.mem_map_of_mem htask), rfl⟩
      · exact ⟨p, Or.inr (Finmap.mem_of_lookup_eq_some htask),
          (hcoherent.running.filename p task htask).symm⟩
    · rintro ⟨p, hp | hp, rfl⟩
      · obtain ⟨task, htask, rfl⟩ := List.mem_map.mp hp
        exact Or.inl ⟨task, htask, rfl⟩
      · obtain ⟨task, htask⟩ := Finmap.mem_iff.mp hp
        exact Or.inr ⟨p, task, htask, hcoherent.running.filename p task htask⟩
  have hsuccessful : s.compiler.getSuccessfullyCompiledFiles =
      (board s.trace).ready.image TeenyPath.filenameOf := by
    ext f
    simp only [Compiler.getSuccessfullyCompiledFiles, Compiler.mem_biUnion_lookup,
      Finset.mem_image, hshows.ready, Finmap.mem_iff]
    constructor
    · rintro ⟨p, cu, hcu, rfl⟩
      exact ⟨p, ⟨cu, hcu⟩, by rw [hcoherent.ready_key p cu hcu]⟩
    · rintro ⟨p, ⟨cu, hcu⟩, rfl⟩
      exact ⟨p, cu, hcu, by rw [hcoherent.ready_key p cu hcu]⟩
  have hfailed : s.compiler.getFailedToCompileFiles = (board s.trace).failed := by
    ext f
    rw [hshows.failed, Compiler.getFailedToCompileFiles, List.mem_toFinset]
  rw [Compiler.getStatus, Board.status, hcompiling, hsuccessful, hfailed]

theorem status_exact_failed :
    (Session.after (Call.compileOne { sourceFilePath := "/p/a.cpp" } 1)).compiler.getStatus =
      (board (Session.after (Call.compileOne { sourceFilePath := "/p/a.cpp" } 1)).trace).status ∧
    (Session.after (Call.compileOne { sourceFilePath := "/p/a.cpp" } 1)).compiler.getStatus =
      ⟨∅, ∅, {"a.cpp"}⟩ :=
  ⟨(Run.after _).status_exact.1, by decide +kernel⟩

end Run

end JetLive

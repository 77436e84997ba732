import JetLive.Compiler.Closure
import JetLive.Compiler.Poll
import JetLive.Compiler.Records

/-!
# Deferred links

`doLink` defers a link while an object of the link belongs to a unit that is not ready: the
unit is compiled, and a later call of `update` decides about the link again. A unit is fresh
if its current object is ready. From a deferral to the next decision the compiler works only on
units that are not fresh, and by then one of them has become fresh or has failed to compile;
this is the invariant `Awaits`. So a decision that does not refuse the link finds more fresh
units than the deferral before it.
-/

namespace JetLive

open Containers

/-- The units of the context are stored under their sources, with the objects `objOf`. -/
structure Knows (objOf : String → Option String) (context : LiveContext) : Prop where
  objFilePath : ∀ p,
    (context.compilationUnits.lookup p).map (fun cu => cu.objFilePath) = objOf p
  sourceFilePath : ∀ p cu, context.compilationUnits.lookup p = some cu → cu.sourceFilePath = p

def freshUnits (context : LiveContext) (c : Compiler) : Finset String :=
  context.compilationUnits.keys.filter fun p =>
    (c.readyCompilationUnits.lookup p).map (fun cu => cu.objFilepath) =
      (context.compilationUnits.lookup p).map fun cu => cu.objFilePath

def Compiler.Fresh (objOf : String → Option String) (c : Compiler) (p : String) : Prop :=
  ∃ cu, c.readyCompilationUnits.lookup p = some cu ∧ objOf p = some cu.objFilepath

namespace Knows

variable {objOf : String → Option String} {context context' : LiveContext} {c : Compiler}
  {p : String}

theorem mem_keys (h : Knows objOf context) :
    p ∈ context.compilationUnits.keys ↔ ∃ o, objOf p = some o := by
  rw [Finmap.mem_keys, Finmap.mem_iff, ← h.objFilePath]
  simp [Option.map_eq_some_iff]

theorem keys_eq (h : Knows objOf context) (h' : Knows objOf context') :
    context.compilationUnits.keys = context'.compilationUnits.keys := by
  ext p
  rw [h.mem_keys, h'.mem_keys]

theorem mem_freshUnits (h : Knows objOf context) :
    p ∈ freshUnits context c ↔ c.Fresh objOf p := by
  rw [freshUnits, Finset.mem_filter, h.mem_keys, h.objFilePath]
  constructor
  · rintro ⟨⟨o, ho⟩, hready⟩
    rw [ho] at hready
    obtain ⟨cu, hcu, rfl⟩ := Option.map_eq_some_iff.mp hready
    exact ⟨cu, hcu, ho⟩
  · rintro ⟨cu, hcu, ho⟩
    exact ⟨⟨_, ho⟩, by rw [hcu, ho]; rfl⟩

/-- The unit that exports an undefined symbol. -/
theorem ownerUnit (h : Knows objOf context) {undefSymName : String} {cu : CompilationUnit}
    (hcu : ownerUnit context undefSymName = some cu) :
    objOf cu.sourceFilePath = some cu.objFilePath := by
  obtain ⟨p, hp⟩ := exists_lookup_of_ownerUnit hcu
  rw [h.sourceFilePath p cu hp, ← h.objFilePath, hp]
  rfl

end Knows

/-! ## Waiting for the next decision -/

namespace Compiler

variable {objOf : String → Option String} {env : Environment} {c : Compiler} {p : String}

def Busy (c : Compiler) (p : String) : Prop :=
  p ∈ c.pendingPaths ∨ p ∈ c.runningCompilationTasks

theorem Busy.of_pollAll (h : (c.pollAll env).Busy p) : c.Busy p := by
  rcases h with hp | hp
  · rw [pendingPaths, pollAll_pending] at hp
    exact Or.inl hp
  · obtain ⟨task, htask⟩ := Finmap.mem_iff.mp hp
    rw [pollAll_running] at htask
    split at htask
    · simp at htask
    · exact Or.inr (Finmap.mem_of_lookup_eq_some htask)

theorem Fresh.pollAll (hkey : c.WellKeyed) (hfresh : c.Fresh objOf p) (hidle : ¬ c.Busy p)
    (env : Environment) : (c.pollAll env).Fresh objOf p ∧ ¬ (c.pollAll env).Busy p := by
  obtain ⟨cu, hcu, ho⟩ := hfresh
  refine ⟨⟨cu, ?_, ho⟩, fun hp => hidle hp.of_pollAll⟩
  rw [pollAll_ready_of_not_running hkey fun hp => hidle (Or.inr hp)]
  exact hcu

end Compiler

/-- A link was deferred when the units in `before` were fresh. They still are, and the compiler
works on the current objects of other units; if it is done, then one of these has become fresh
or has failed. -/
structure Awaits (d : Discipline) (objOf : String → Option String) (before : Finset String)
    (c : Compiler) : Prop where
  workers : d.config.workerThreadsCount ≠ 0
  request : c.shouldLink = true
  fresh : ∀ p ∈ before, c.Fresh objOf p ∧ ¬ c.Busy p
  pending : ∀ task ∈ c.pendingCompilationTasks,
    objOf task.cu.sourceFilePath = some task.cu.objFilePath
  running : ∀ p task, c.runningCompilationTasks.lookup p = some task →
    objOf p = some task.objFilepath
  answer : (∃ p, c.Busy p) ∨ c.failedCompilationUnits ≠ [] ∨
    ∃ p ∉ before, c.Fresh objOf p ∧ ¬ c.Busy p

namespace Awaits

variable {d : Discipline} {objOf : String → Option String} {before : Finset String}
  {c : Compiler} {h : History}

/-- A unit that has been compiled is fresh now, and it was not before. -/
theorem fresh_of_success (hc : Coherent d c h) (ha : Awaits d objOf before c) {env : Environment}
    {p err : String} (hp : p ∈ c.runningCompilationTasks)
    (hexit : env.exitStatus p = some (0, err)) :
    p ∉ before ∧ (c.pollAll env).Fresh objOf p ∧ ¬ (c.pollAll env).Busy p := by
  obtain ⟨task, hrun⟩ := Finmap.mem_iff.mp hp
  have hready := Compiler.pollAll_ready_of_success hc.running.key hrun hexit
  refine ⟨fun hmem => (ha.fresh p hmem).2 (Or.inr hp), ⟨_, hready, ha.running p task hrun⟩, ?_⟩
  rintro (hpending | hrunning)
  · rw [Compiler.pendingPaths, Compiler.pollAll_pending] at hpending
    exact hc.pending_not_running p hpending hp
  · obtain ⟨task', htask'⟩ := Finmap.mem_iff.mp hrunning
    simp [Compiler.pollAll_running, hexit] at htask'

theorem answer_pollAll (hc : Coherent d c h) (ha : Awaits d objOf before c) (env : Environment) :
    (∃ p, (c.pollAll env).Busy p) ∨ (c.pollAll env).failedCompilationUnits ≠ [] ∨
      ∃ p ∉ before, (c.pollAll env).Fresh objOf p ∧ ¬ (c.pollAll env).Busy p := by
  by_cases hsuccess : ∃ p ∈ c.runningCompilationTasks, ∃ err, env.exitStatus p = some (0, err)
  · obtain ⟨p, hp, err, hexit⟩ := hsuccess
    exact Or.inr (Or.inr ⟨p, ha.fresh_of_success hc hp hexit⟩)
  · have hnone : ∀ p ∈ c.runningCompilationTasks, ∀ err, env.exitStatus p ≠ some (0, err) :=
      fun p hp err hexit => hsuccess ⟨p, hp, err, hexit⟩
    rcases ha.answer with ⟨p, hp | hp⟩ | hfailed | ⟨p, hnot, hfresh, hidle⟩
    · refine Or.inl ⟨p, Or.inl ?_⟩
      rw [Compiler.pendingPaths, Compiler.pollAll_pending]
      exact hp
    · by_cases hends : (env.exitStatus p).isSome
      · exact Or.inr (Or.inl (Compiler.pollAll_failed hnone (Or.inr ⟨p, hp, hends⟩)))
      · refine Or.inl ⟨p, Or.inr (Finmap.mem_iff.mpr ?_)⟩
        rw [Compiler.pollAll_running, if_neg hends]
        exact Finmap.mem_iff.mp hp
    · exact Or.inr (Or.inl (Compiler.pollAll_failed hnone (Or.inl hfailed)))
    · exact Or.inr (Or.inr ⟨p, hnot, hfresh.pollAll hc.running.key hidle env⟩)

theorem pollAll (hc : Coherent d c h) (ha : Awaits d objOf before c) (env : Environment) :
    Awaits d objOf before (c.pollAll env) where
  workers := ha.workers
  request := by
    rw [Compiler.pollAll_shouldLink]
    exact ha.request
  fresh := by
    intro p hp
    obtain ⟨hfresh, hidle⟩ := ha.fresh p hp
    exact hfresh.pollAll hc.running.key hidle env
  pending := by
    rw [Compiler.pollAll_pending]
    exact ha.pending
  running := by
    intro p task htask
    rw [Compiler.pollAll_running] at htask
    split at htask
    · simp at htask
    · exact ha.running p task htask
  answer := ha.answer_pollAll hc env

/-- A pending compilation is started. -/
theorem start {task : PendingCompilationTask} {rest : List PendingCompilationTask}
    (hpending : c.pendingCompilationTasks = task :: rest) (ha : Awaits d objOf before c) :
    Awaits d objOf before { c with
      runningCompilationTasks := c.runningCompilationTasks.insert task.cu.sourceFilePath
        (compilationTask task.cu task.finishCallback)
      pendingCompilationTasks := rest } := by
  have hbusy : ∀ p, Compiler.Busy { c with
      runningCompilationTasks := c.runningCompilationTasks.insert task.cu.sourceFilePath
        (compilationTask task.cu task.finishCallback)
      pendingCompilationTasks := rest } p ↔ c.Busy p := by
    intro p
    simp only [Compiler.Busy, Compiler.pendingPaths, hpending, List.map_cons, List.mem_cons,
      Finmap.mem_insert]
    tauto
  have hexpected : ∀ task' ∈ task :: rest,
      objOf task'.cu.sourceFilePath = some task'.cu.objFilePath := hpending ▸ ha.pending
  refine ⟨ha.workers, ha.request, ?_, ?_, ?_, ?_⟩
  · intro p hp
    rw [hbusy]
    exact ha.fresh p hp
  · exact fun task' htask' => hexpected task' (List.mem_cons_of_mem _ htask')
  · intro p task' htask'
    by_cases hp : p = task.cu.sourceFilePath
    · subst hp
      rw [Finmap.lookup_insert] at htask'
      obtain rfl := Option.some.inj htask'
      exact hexpected task List.mem_cons_self
    · rw [Finmap.lookup_insert_of_ne _ hp] at htask'
      exact ha.running p task' htask'
  · simp only [hbusy]
    exact ha.answer

/-- When the compiler is done and no file has failed, more units are fresh than before. -/
theorem exists_fresh (ha : Awaits d objOf before c) (hrunning : c.runningCompilationTasks.keys = ∅)
    (hpending : c.pendingCompilationTasks = []) (hfailed : c.failedCompilationUnits = []) :
    ∃ p ∉ before, c.Fresh objOf p := by
  rcases ha.answer with ⟨p, hp | hp⟩ | hne | ⟨p, hnot, hp, _⟩
  · simp [Compiler.pendingPaths, hpending] at hp
  · rw [← Finmap.mem_keys, hrunning] at hp
    exact absurd hp (Finset.notMem_empty p)
  · exact absurd hfailed hne
  · exact ⟨p, hnot, hp⟩

end Awaits

namespace Session

variable {W : Type*} {d : Discipline} {objOf : String → Option String} {before : Finset String}

theorem startPending_awaits (n : ℕ) (pending : List PendingCompilationTask) (s : Session W)
    (hpending : s.compiler.pendingCompilationTasks = pending)
    (ha : Awaits d objOf before s.compiler) :
    Awaits d objOf before (startPending n pending s).compiler := by
  induction pending generalizing s with
  | nil => exact ha
  | cons task rest ih =>
      unfold startPending
      split
      · refine ih _ (by simp [doCompile, hpending]) ?_
        simpa [doCompile, hpending] using ha.start hpending
      · exact ha

theorem beforeDecideLink_awaits (host : Host W) (config : LiveConfig) (env : Environment)
    {s : Session W} {h : History} (hc : Coherent d s.compiler h)
    (ha : Awaits d objOf before s.compiler) :
    Awaits d objOf before (s.beforeDecideLink host config env).compiler := by
  refine startPending_awaits _ _ (s.pollCompilations host env) rfl ?_
  rw [pollCompilations_compiler]
  exact ha.pollAll hc env

/-! ## Deferring a link -/

/-- The search for the objects of a link has begun in the state `c`. It compiles only units
whose object was not ready then. -/
structure Recompiles (objOf : String → Option String) (c : Compiler) (search : LinkSearch W) :
    Prop where
  objects : c.readyObjects ⊆ search.uniqueObjectFilePaths
  ready : search.session.compiler.readyCompilationUnits = c.readyCompilationUnits
  running : search.session.compiler.runningCompilationTasks = ∅
  pending : ∀ task ∈ search.session.compiler.pendingCompilationTasks,
    objOf task.cu.sourceFilePath = some task.cu.objFilePath ∧
      task.cu.objFilePath ∉ c.readyObjects
  asked : search.pendingCompilation = true →
    search.session.compiler.pendingCompilationTasks ≠ []

namespace Recompiles

variable {c : Compiler} {search : LinkSearch W}

theorem compile {cu : CompilationUnit} (h : Recompiles objOf c search)
    (hcu : objOf cu.sourceFilePath = some cu.objFilePath)
    (hnew : cu.objFilePath ∉ search.uniqueObjectFilePaths) :
    Recompiles objOf c
      { session := search.session.compile cu .nothing
        uniqueObjectFilePaths := insert cu.objFilePath search.uniqueObjectFilePaths
        pendingCompilation := true } where
  objects := h.objects.trans (Finset.subset_insert _ _)
  ready := h.ready
  running := by
    simp only [Session.compile, modify_compiler, Compiler.enqueue, emit_compiler, h.running]
    rfl
  pending := by
    intro task htask
    rcases List.mem_append.mp htask with hold | hlast
    · exact h.pending task (List.mem_of_mem_filter hold)
    · obtain rfl := List.mem_singleton.mp hlast
      exact ⟨hcu, fun hready => hnew (h.objects hready)⟩
  asked _ := by simp [Session.compile, Compiler.enqueue]

theorem resolveUndefined {context : LiveContext} (hknows : Knows objOf context)
    (env : Environment) (round : ℕ) (names : Finset String) (h : Recompiles objOf c search) :
    Recompiles objOf c (resolveUndefined context env round names search) := by
  fun_induction Session.resolveUndefined context env round names search with
  | case1 => exact h
  | case2 _ _ _ _ _ _ ih => exact ih h
  | case3 _ _ _ _ _ _ _ _ ih => exact ih h
  | case4 _ _ _ _ _ cu hcu hobj ih => exact ih (h.compile (hknows.ownerUnit hcu) hobj)

/-- A unit that is compiled for the link was not fresh. -/
theorem not_fresh (h : Recompiles objOf c search) {task : PendingCompilationTask}
    (htask : task ∈ search.session.compiler.pendingCompilationTasks) :
    ¬ c.Fresh objOf task.cu.sourceFilePath := by
  rintro ⟨ready, hready, ho⟩
  obtain ⟨hcu, hnot⟩ := h.pending task htask
  apply hnot
  rw [Compiler.mem_readyObjects]
  exact ⟨_, ready, hready, Option.some.inj (ho.symm.trans hcu)⟩

theorem linkSearch {context : LiveContext} {s : Session W} (hknows : Knows objOf context)
    (env : Environment) (hrunning : s.compiler.runningCompilationTasks = ∅)
    (hpending : s.compiler.pendingCompilationTasks = []) :
    Recompiles objOf s.compiler (s.linkSearch context env) := by
  refine resolveUndefined hknows env 0 _ ⟨?_, rfl, hrunning, ?_, ?_⟩
  · rw [linkStart_uniqueObjectFilePaths]
  · intro task htask
    have hnil : (s.linkStart env).session.compiler.pendingCompilationTasks = [] := hpending
    rw [hnil] at htask
    exact absurd htask List.not_mem_nil
  · intro hasked
    exact absurd hasked (by simp [linkStart])

/-- The state after a deferral. -/
theorem awaits {context : LiveContext} (hknows : Knows objOf context)
    (hworkers : d.config.workerThreadsCount ≠ 0) (h : Recompiles objOf c search)
    (hasked : search.pendingCompilation = true) (callback : LinkFinishCallback) :
    Awaits d objOf (freshUnits context c)
        { search.session.compiler with
          shouldLink := true, pendingLinkingFinishCallback := callback } ∧
      freshUnits context c ⊂ context.compilationUnits.keys := by
  obtain ⟨task, htask⟩ := List.exists_mem_of_ne_nil _ (h.asked hasked)
  refine ⟨⟨hworkers, rfl, ?_, ?_, ?_, ?_⟩, ?_⟩
  · intro p hp
    have hfresh := hknows.mem_freshUnits.mp hp
    refine ⟨?_, ?_⟩
    · obtain ⟨cu, hcu, ho⟩ := hfresh
      exact ⟨cu, by rw [h.ready]; exact hcu, ho⟩
    · rintro (hpending | hrunning)
      · obtain ⟨task, htask, rfl⟩ := List.mem_map.mp hpending
        exact h.not_fresh htask hfresh
      · exact Finmap.notMem_empty (h.running ▸ hrunning)
  · exact fun task htask => (h.pending task htask).1
  · intro p task htask
    simp [h.running] at htask
  · exact Or.inl ⟨_, Or.inl (List.mem_map_of_mem htask)⟩
  · refine ⟨Finset.filter_subset _ _, fun hsub => h.not_fresh htask ?_⟩
    apply hknows.mem_freshUnits.mp
    exact hsub (hknows.mem_keys.mpr ⟨_, (h.pending task htask).1⟩)

end Recompiles

/-- A decision after which the request stands again has searched for objects and asked for a
compilation. -/
theorem decideLink_of_shouldLink (host : Host W) (config : LiveConfig) (env : Environment)
    {s : Session W} (hrunning : s.compiler.runningCompilationTasks.keys = ∅)
    (hrequest : s.compiler.shouldLink = true)
    (hdefers : (s.decideLink host config env).compiler.shouldLink = true) :
    let search := (s.modify fun c => { c with shouldLink := false }).linkSearch
      (host.context s.world) env
    s.compiler.readyCompilationUnits.keys ≠ ∅ ∧ search.pendingCompilation = true ∧
      ∃ callback, (s.decideLink host config env).compiler =
        { search.session.compiler with
          shouldLink := true, pendingLinkingFinishCallback := callback } := by
  unfold decideLink at hdefers ⊢
  rw [if_pos ⟨hrunning, hrequest⟩] at hdefers ⊢
  dsimp only at hdefers ⊢
  split at hdefers
  · rename_i hfailed
    rw [if_pos hfailed]
    rw [doLink_eq] at hdefers ⊢
    split at hdefers
    · simp at hdefers
    · rename_i hready
      rw [if_neg hready]
      split at hdefers
      · rename_i hasked
        rw [if_pos hasked]
        exact ⟨hready, hasked, _, rfl⟩
      · simp [startLink] at hdefers
  · simp at hdefers

/-- If the request stands again after the decision, then the link was deferred. -/
theorem decideLink_awaits (host : Host W) (env : Environment) {s : Session W} {h : History}
    (hc : Coherent d s.compiler h) (hknows : Knows objOf (host.context s.world))
    (hrunning : s.compiler.runningCompilationTasks.keys = ∅)
    (hpending : d.config.workerThreadsCount = 0 ∨ s.compiler.pendingCompilationTasks = [])
    (hrequest : s.compiler.shouldLink = true)
    (hdefers : (s.decideLink host d.config env).compiler.shouldLink = true) :
    Awaits d objOf (freshUnits (host.context s.world) s.compiler)
        (s.decideLink host d.config env).compiler ∧
      freshUnits (host.context s.world) s.compiler ⊂
        (host.context s.world).compilationUnits.keys := by
  obtain ⟨hready, hasked, callback, heq⟩ :=
    decideLink_of_shouldLink host d.config env hrunning hrequest hdefers
  have hworkers : d.config.workerThreadsCount ≠ 0 := by
    intro hn
    apply hready
    simp [hc.ready_empty hn]
  have hsearch := Recompiles.linkSearch (s := s.modify fun c => { c with shouldLink := false })
    hknows env (eq_empty_of_keys hrunning) (hpending.resolve_left hworkers)
  rw [heq]
  exact hsearch.awaits hknows hworkers hasked callback

end Session

end JetLive

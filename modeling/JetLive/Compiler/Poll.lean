import JetLive.Compiler.Refinement

/-!
# The poll of the compilations

What the first part of `update` does to the state of the compiler, apart from the callbacks:
the compilations that have ended are no longer running, the objects of those that have
succeeded are ready, and if none has succeeded, then the names of failed files only grow.
-/

namespace JetLive

open Containers

namespace Compiler

/-- What the loop over the running compilations does to the state for one of them. -/
def poll (env : Environment) (c : Compiler) (key : String) : Compiler :=
  match c.runningCompilationTasks.lookup key, env.exitStatus key with
  | some task, some (status, _) =>
      if status = 0 then
        { c with
          readyCompilationUnits := c.readyCompilationUnits.insert task.cuOrLibFilepath
            ⟨task.cuOrLibFilepath, task.objFilepath⟩
          failedCompilationUnits := setErase task.filename c.failedCompilationUnits }
      else
        { c with
          readyCompilationUnits := c.readyCompilationUnits.erase task.cuOrLibFilepath
          failedCompilationUnits := setInsert task.filename c.failedCompilationUnits }
  | _, _ => c

def pollAll (env : Environment) (c : Compiler) : Compiler :=
  let keys := env.runningOrder.toList c.runningCompilationTasks.keys
  { keys.foldl (poll env) c with
    runningCompilationTasks := eraseAll c.runningCompilationTasks
      (keys.filter fun key => (env.exitStatus key).isSome) }

variable {env : Environment} {c : Compiler} {p : String}

/-- An element of the loop changes the ready and the failed units only. -/
theorem poll_eq (env : Environment) (c : Compiler) (key : String) :
    ∃ ready failed, c.poll env key =
      { c with readyCompilationUnits := ready, failedCompilationUnits := failed } := by
  unfold poll
  split
  · split
    · exact ⟨_, _, rfl⟩
    · exact ⟨_, _, rfl⟩
  · exact ⟨_, _, rfl⟩

theorem poll_running (env : Environment) (c : Compiler) (key : String) :
    (c.poll env key).runningCompilationTasks = c.runningCompilationTasks := by
  obtain ⟨ready, failed, heq⟩ := poll_eq env c key
  rw [heq]

theorem foldl_poll_eq (env : Environment) (keys : List String) (c : Compiler) :
    ∃ ready failed, keys.foldl (poll env) c =
      { c with readyCompilationUnits := ready, failedCompilationUnits := failed } := by
  induction keys generalizing c with
  | nil => exact ⟨_, _, rfl⟩
  | cons key keys ih =>
      obtain ⟨_, _, hfirst⟩ := poll_eq env c key
      obtain ⟨ready, failed, hrest⟩ := ih (c.poll env key)
      refine ⟨ready, failed, ?_⟩
      rw [List.foldl_cons, hrest, hfirst]

theorem WellKeyed.poll (h : c.WellKeyed) (env : Environment) (key : String) :
    (c.poll env key).WellKeyed := by
  unfold WellKeyed
  rw [poll_running]
  exact h

theorem poll_ready_of_ne {key : String} (hkey : c.WellKeyed) (hne : p ≠ key) :
    (c.poll env key).readyCompilationUnits.lookup p = c.readyCompilationUnits.lookup p := by
  unfold Compiler.poll
  split
  · rename_i task status err hrun hexit
    have hpath := hkey key task hrun
    split
    · exact Finmap.lookup_insert_of_ne _ (hpath ▸ hne)
    · exact Finmap.lookup_erase_ne (hpath ▸ hne)
  · rfl

theorem foldl_poll_ready_of_notMem {keys : List String} (hkey : c.WellKeyed) (hp : p ∉ keys) :
    (keys.foldl (poll env) c).readyCompilationUnits.lookup p =
      c.readyCompilationUnits.lookup p := by
  induction keys generalizing c with
  | nil => rfl
  | cons key keys ih =>
      rw [List.mem_cons, not_or] at hp
      rw [List.foldl_cons, ih (hkey.poll env key) hp.2]
      exact poll_ready_of_ne hkey hp.1

/-- After the loop the objects of the compilations that have succeeded are ready. -/
theorem foldl_poll_ready_of_success {keys : List String} {task : Task} {err : String}
    (hkey : c.WellKeyed) (hp : p ∈ keys) (hrun : c.runningCompilationTasks.lookup p = some task)
    (hexit : env.exitStatus p = some (0, err)) :
    (keys.foldl (poll env) c).readyCompilationUnits.lookup p = some ⟨p, task.objFilepath⟩ := by
  induction keys generalizing c with
  | nil => exact absurd hp List.not_mem_nil
  | cons key keys ih =>
      by_cases hlater : p ∈ keys
      · exact ih (hkey.poll env key) hlater (by rw [poll_running]; exact hrun)
      · obtain rfl := (List.mem_cons.mp hp).resolve_right hlater
        rw [List.foldl_cons, foldl_poll_ready_of_notMem (hkey.poll env p) hlater]
        simp [poll, hrun, hexit, hkey p task hrun]

/-- Nothing happens to a compilation that goes on. -/
theorem poll_of_not_ended {key : String}
    (h : ¬ (key ∈ c.runningCompilationTasks ∧ (env.exitStatus key).isSome)) :
    c.poll env key = c := by
  unfold poll
  split
  · rename_i task status err hrun hexit
    exact absurd ⟨Finmap.mem_of_lookup_eq_some hrun, by simp [hexit]⟩ h
  · rfl

theorem poll_failed {key : String} (hnone : ∀ err, env.exitStatus key ≠ some (0, err))
    (hmem : key ∈ c.runningCompilationTasks) (hends : (env.exitStatus key).isSome) :
    (c.poll env key).failedCompilationUnits ≠ [] := by
  obtain ⟨task, hrun⟩ := Finmap.mem_iff.mp hmem
  obtain ⟨⟨status, err⟩, hexit⟩ := Option.isSome_iff_exists.mp hends
  have hstatus : status ≠ 0 := fun h => hnone err (h ▸ hexit)
  apply List.ne_nil_of_mem (a := task.filename)
  simp [poll, hrun, hexit, hstatus]

/-- If no compilation succeeds, then the names of failed files stay, and each compilation that
ends adds one. -/
theorem foldl_poll_failed {keys : List String}
    (hnone : ∀ key ∈ keys, ∀ err, env.exitStatus key ≠ some (0, err))
    (hfailed : c.failedCompilationUnits ≠ [] ∨ ∃ key ∈ keys,
      key ∈ c.runningCompilationTasks ∧ (env.exitStatus key).isSome) :
    (keys.foldl (poll env) c).failedCompilationUnits ≠ [] := by
  induction keys generalizing c with
  | nil =>
      rcases hfailed with hfailed | ⟨key, hkey, _⟩
      · exact hfailed
      · exact absurd hkey List.not_mem_nil
  | cons key keys ih =>
      obtain ⟨hkey, hkeys⟩ := List.forall_mem_cons.mp hnone
      apply ih hkeys
      by_cases hends : key ∈ c.runningCompilationTasks ∧ (env.exitStatus key).isSome
      · exact Or.inl (poll_failed hkey hends.1 hends.2)
      · rw [poll_of_not_ended hends]
        rcases hfailed with hfailed | ⟨q, hq, hends'⟩
        · exact Or.inl hfailed
        · refine Or.inr ⟨q, (List.mem_cons.mp hq).resolve_left ?_, hends'⟩
          rintro rfl
          exact hends hends'

theorem pollAll_eq (env : Environment) (c : Compiler) :
    ∃ ready failed running, c.pollAll env =
      { c with
        readyCompilationUnits := ready
        failedCompilationUnits := failed
        runningCompilationTasks := running } := by
  obtain ⟨ready, failed, heq⟩ := foldl_poll_eq env
    (env.runningOrder.toList c.runningCompilationTasks.keys) c
  exact ⟨ready, failed, _, by rw [pollAll, heq]⟩

@[simp] theorem pollAll_pending (env : Environment) (c : Compiler) :
    (c.pollAll env).pendingCompilationTasks = c.pendingCompilationTasks := by
  obtain ⟨_, _, _, heq⟩ := pollAll_eq env c
  rw [heq]

@[simp] theorem pollAll_shouldLink (env : Environment) (c : Compiler) :
    (c.pollAll env).shouldLink = c.shouldLink := by
  obtain ⟨_, _, _, heq⟩ := pollAll_eq env c
  rw [heq]

/-- The compilations that go on are those that have not ended. -/
theorem pollAll_running (env : Environment) (c : Compiler) (p : String) :
    (c.pollAll env).runningCompilationTasks.lookup p =
      if (env.exitStatus p).isSome then none else c.runningCompilationTasks.lookup p := by
  simp only [pollAll, lookup_eraseAll, List.mem_filter, Iteration.mem_toList, Finmap.mem_keys]
  by_cases hp : p ∈ c.runningCompilationTasks
  · simp [hp]
  · simp [hp, Finmap.lookup_eq_none.mpr hp]

theorem pollAll_ready_of_not_running (hkey : c.WellKeyed) (hp : p ∉ c.runningCompilationTasks) :
    (c.pollAll env).readyCompilationUnits.lookup p = c.readyCompilationUnits.lookup p := by
  refine foldl_poll_ready_of_notMem hkey ?_
  rw [Iteration.mem_toList, Finmap.mem_keys]
  exact hp

theorem pollAll_ready_of_success {task : Task} {err : String} (hkey : c.WellKeyed)
    (hrun : c.runningCompilationTasks.lookup p = some task)
    (hexit : env.exitStatus p = some (0, err)) :
    (c.pollAll env).readyCompilationUnits.lookup p = some ⟨p, task.objFilepath⟩ := by
  refine foldl_poll_ready_of_success hkey ?_ hrun hexit
  rw [Iteration.mem_toList, Finmap.mem_keys]
  exact Finmap.mem_of_lookup_eq_some hrun

theorem pollAll_failed
    (hnone : ∀ p ∈ c.runningCompilationTasks, ∀ err, env.exitStatus p ≠ some (0, err))
    (hfailed : c.failedCompilationUnits ≠ [] ∨
      ∃ p ∈ c.runningCompilationTasks, (env.exitStatus p).isSome) :
    (c.pollAll env).failedCompilationUnits ≠ [] := by
  have hmem : ∀ p, p ∈ env.runningOrder.toList c.runningCompilationTasks.keys ↔
      p ∈ c.runningCompilationTasks := by
    intro p
    rw [Iteration.mem_toList, Finmap.mem_keys]
  refine foldl_poll_failed (fun p hp => hnone p ((hmem p).mp hp)) ?_
  rcases hfailed with hfailed | ⟨p, hp, hsome⟩
  · exact Or.inl hfailed
  · exact Or.inr ⟨p, (hmem p).mpr hp, hp, hsome⟩

end Compiler

namespace Session

variable {W : Type*}

theorem pollTask_compiler (host : Host W) (env : Environment) (s : Session W) (key : String) :
    (s.pollTask host env key).compiler = s.compiler.poll env key := by
  unfold pollTask Compiler.poll
  cases s.compiler.runningCompilationTasks.lookup key with
  | none => rfl
  | some task =>
      cases env.exitStatus key with
      | none => rfl
      | some result => by_cases hstatus : result.1 = 0 <;> simp [hstatus]

theorem pollCompilations_compiler (host : Host W) (env : Environment) (s : Session W) :
    (s.pollCompilations host env).compiler = s.compiler.pollAll env := by
  have hloop : ∀ (keys : List String) (s : Session W),
      (keys.foldl (pollTask host env) s).compiler =
        keys.foldl (Compiler.poll env) s.compiler := by
    intro keys
    induction keys with
    | nil => exact fun _ => rfl
    | cons key keys ih =>
        intro s
        rw [List.foldl_cons, List.foldl_cons, ih, pollTask_compiler]
  obtain ⟨_, _, heq⟩ := Compiler.foldl_poll_eq env
    (env.runningOrder.toList s.compiler.runningCompilationTasks.keys) s.compiler
  rw [pollCompilations, modify_compiler, hloop, Compiler.pollAll, heq]

end Session

end JetLive

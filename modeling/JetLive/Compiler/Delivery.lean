import JetLive.Compiler.Progress

/-!
# What was compiled is delivered

A reload is requested while the compiler holds some unit, and from then on all processes end well.
Calls of `update` start the pending compilations, defer the link for units that are needed too,
and at last start the link and report its end. A call that finds all processes at their end cannot
be wasted: it leaves fewer pending compilations, or defers the link, or reports its end. There
are only so many deferrals, and each of them adds at most all units to the pending ones. So after
a number of such calls that is known beforehand the unit is among the sources that were linked and
loaded (`Session.Sound.delivers`), however many other calls are between them.
-/

namespace JetLive

open Containers

variable {W : Type*} {host : Host W}

structure Turn.Succeeds (t : Turn host) : Prop where
  compilations : ∀ p status err, t.env.exitStatus p = some (status, err) → status = 0
  link : ∀ status err, t.env.linkExitStatus = some (status, err) → status = 0
  opens : t.env.dlerror = none

namespace Session

/-- All processes have ended when the call looks at them. -/
def Ends (s : Session W) (t : Turn host) : Prop :=
  (∀ p ∈ s.compiler.runningCompilationTasks.keys, (t.env.exitStatus p).isSome) ∧
    t.env.linkExitStatus.isSome

instance (s : Session W) (t : Turn host) : Decidable (s.Ends t) :=
  inferInstanceAs (Decidable ((∀ p ∈ _, _) ∧ _))

def endings (config : LiveConfig) : Session W → List (Turn host) → ℕ
  | _, [] => 0
  | s, t :: turns => (if s.Ends t then 1 else 0) + endings config (s.turn config t) turns

/-- Since the first state, a link of the source `p` was reported to the callback as successful, in
a world with the objects `objOf`, and the callback has done what it does then. -/
def Delivered (host : Host W) (objOf : String → Option String) (callback : LinkFinishCallback)
    (p : String) (s s' : Session W) : Prop :=
  ∃ u c libPath sourceFilePaths err w, s'.trace = u ++ s.trace ∧ p ∈ sourceFilePaths ∧
    (c, Event.linkFinished callback 0 libPath sourceFilePaths err) ∈ u ∧
    Knows objOf (host.context w) ∧
    ∀ e ∈ (host.linkFinished callback 0 libPath sourceFilePaths err w).2,
      ∃ c, (c, Event.host e) ∈ u

/-- The unit is held, and the callback waits for the link. -/
structure Waits (callback : LinkFinishCallback) (p : String) (c : Compiler) : Prop where
  request : c.shouldLink = true
  callback : c.pendingLinkingFinishCallback = callback
  held : c.Holds p
  unbroken : c.failedCompilationUnits = []

structure Linking (callback : LinkFinishCallback) (p : String) (c : Compiler) : Prop where
  request : c.shouldLink = false
  task : ∃ task, c.runningLinkTask = some task ∧ task.linkFinishCallback = callback
  ready : p ∈ c.readyCompilationUnits
  pending : c.pendingCompilationTasks = []
  running : c.runningCompilationTasks = ∅

def LinkEnds (config : LiveConfig) (callback : LinkFinishCallback) (p : String) (s : Session W)
    (turns : List (Turn host)) : Prop :=
  ∃ past t future, turns = past ++ t :: future ∧
    Linking callback p ((past.foldl (turn config) s).decided config t).compiler ∧
    ∃ err, t.env.linkExitStatus = some (0, err)

theorem LinkEnds.cons {config : LiveConfig} {callback : LinkFinishCallback} {p : String}
    {s : Session W} {t : Turn host} {turns : List (Turn host)}
    (h : LinkEnds config callback p (s.turn config t) turns) :
    LinkEnds config callback p s (t :: turns) := by
  obtain ⟨past, t', future, rfl, hend⟩ := h
  exact ⟨t :: past, t', future, rfl, hend⟩

end Session

/-! ## Growing traces -/

theorem Step.suffix {d : Discipline} {c c' : Compiler} {t t' : CompilerTrace}
    (h : Step d (c, t) (c', t')) : t <:+ t' := by
  cases h <;> first | exact List.suffix_refl _ | exact List.suffix_cons _ _

theorem Steps.suffix {d : Discipline} {x x' : Compiler × CompilerTrace} (h : Steps d x x') :
    x.2 <:+ x'.2 := by
  induction h with
  | refl => exact List.suffix_refl _
  | tail _ hstep ih => exact ih.trans (Step.suffix hstep)

theorem Session.Delivered.mono {objOf : String → Option String} {callback : LinkFinishCallback}
    {p : String} {s s₁ s₂ s' : Session W} (h : Delivered host objOf callback p s₁ s₂)
    (hs : s.trace <:+ s₁.trace) (hs' : s₂.trace <:+ s'.trace) :
    Delivered host objOf callback p s s' := by
  obtain ⟨u, c, libPath, sourceFilePaths, err, w, htrace, hp, hmem, hknows, heffect⟩ := h
  obtain ⟨before, hbefore⟩ := hs
  obtain ⟨after, hafter⟩ := hs'
  refine ⟨after ++ u ++ before, c, libPath, sourceFilePaths, err, w, ?_, hp, ?_, hknows, ?_⟩
  · rw [← hafter, htrace, ← hbefore]
    simp
  · simp [hmem]
  · intro e he
    obtain ⟨c', hc'⟩ := heffect e he
    exact ⟨c', by simp [hc']⟩

/-! ## Compilations that end well -/

namespace Compiler

variable {env : Environment} {c : Compiler} {p : String}

theorem foldl_poll_unbroken (hsucceeds : ∀ p status err,
      env.exitStatus p = some (status, err) → status = 0)
    (keys : List String) (h : c.failedCompilationUnits = []) :
    (keys.foldl (poll env) c).failedCompilationUnits = [] := by
  induction keys generalizing c with
  | nil => exact h
  | cons key keys ih =>
      apply ih
      unfold poll
      split
      · rename_i task status err _ hexit
        obtain rfl := hsucceeds key status err hexit
        simp [h, setErase]
      · exact h

/-- A unit is held until its object is ready. -/
theorem Holds.pollAll (hkey : c.WellKeyed) (hsucceeds : ∀ p status err,
      env.exitStatus p = some (status, err) → status = 0) (h : c.Holds p) :
    (c.pollAll env).Holds p := by
  by_cases hrun : p ∈ c.runningCompilationTasks
  · obtain ⟨task, htask⟩ := Finmap.mem_iff.mp hrun
    cases hexit : env.exitStatus p with
    | none =>
        refine .inr (.inl (Finmap.mem_iff.mpr ⟨task, ?_⟩))
        rw [pollAll_running, hexit]
        exact htask
    | some answer =>
        obtain ⟨status, err⟩ := answer
        obtain rfl := hsucceeds p status err hexit
        exact .inr (.inr (Finmap.mem_of_lookup_eq_some (pollAll_ready_of_success hkey htask hexit)))
  · rcases h with hp | hp | hp
    · exact .inl (by rwa [pendingPaths, pollAll_pending])
    · exact absurd hp hrun
    · obtain ⟨cu, hcu⟩ := Finmap.mem_iff.mp hp
      exact .inr (.inr (Finmap.mem_of_lookup_eq_some
        ((pollAll_ready_of_not_running hkey hrun).trans hcu)))

end Compiler

namespace Session

variable {callback : LinkFinishCallback} {p : String} {c : Compiler}

theorem Waits.pollAll {env : Environment} (hkey : c.WellKeyed) (hsucceeds : ∀ p status err,
      env.exitStatus p = some (status, err) → status = 0) (h : Waits callback p c) :
    Waits callback p (c.pollAll env) where
  request := (Compiler.pollAll_shouldLink env c).trans h.request
  callback := by
    obtain ⟨_, _, _, heq⟩ := Compiler.pollAll_eq env c
    rw [heq]
    exact h.callback
  held := h.held.pollAll hkey hsucceeds
  unbroken := Compiler.foldl_poll_unbroken hsucceeds _ h.unbroken

theorem startPending_waits (n : ℕ) (pending : List PendingCompilationTask) (s : Session W)
    (hpending : s.compiler.pendingCompilationTasks = pending)
    (h : Waits callback p s.compiler) :
    Waits callback p (startPending n pending s).compiler := by
  induction pending generalizing s with
  | nil => exact h
  | cons task rest ih =>
      unfold startPending
      split
      · refine ih _ (by simp [doCompile, hpending]) ⟨h.request, h.callback, ?_, h.unbroken⟩
        have hheld := h.held
        simp only [Compiler.Holds, Compiler.pendingPaths, hpending, List.map_cons,
          List.mem_cons] at hheld
        simp only [Compiler.Holds, Compiler.pendingPaths, modify_compiler, doCompile,
          addLog_compiler, emit_compiler, hpending, List.tail_cons, Finmap.mem_insert]
        tauto
      · exact h

theorem length_pending_startPending_le (n : ℕ) (pending : List PendingCompilationTask)
    (s : Session W) (hpending : s.compiler.pendingCompilationTasks = pending) :
    (startPending n pending s).compiler.pendingCompilationTasks.length ≤ pending.length := by
  induction pending generalizing s with
  | nil => exact (congrArg List.length hpending).le
  | cons task rest ih =>
      unfold startPending
      split
      · exact (ih _ (by simp [doCompile, hpending])).trans (Nat.le_succ _)
      · rw [hpending]

/-! ## One call -/

namespace Sound

variable {d : Discipline} {objOf : String → Option String} {s : Session W} {t : Turn host}

theorem suffix_turn (hs : Sound d host objOf s) (t : Turn host) :
    s.trace <:+ (s.turn d.config t).trace :=
  Steps.suffix (update_steps host t.env _ (hs.enter t).coherent.running.key
    (hs.enter t).reached.exclusive)

theorem suffix_foldl_turn (hs : Sound d host objOf s) (hhost : host.KeepsUnits)
    (turns : List (Turn host)) :
    s.trace <:+ (turns.foldl (Session.turn d.config) s).trace := by
  induction turns generalizing s with
  | nil => exact List.suffix_refl _
  | cons t turns ih => exact (hs.suffix_turn t).trans (ih (hs.turn hhost t))

theorem waits_atDecision (hs : Sound d host objOf s) (ht : t.Succeeds)
    (h : Waits callback p s.compiler) :
    Waits callback p (s.atDecision d.config t).compiler := by
  refine startPending_waits _ _ _ rfl ?_
  rw [pollCompilations_compiler]
  exact h.pollAll hs.coherent.running.key ht.compilations

theorem length_pending_atDecision_le (s : Session W) (t : Turn host) (config : LiveConfig) :
    (s.atDecision config t).compiler.pendingCompilationTasks.length ≤
      s.compiler.pendingCompilationTasks.length := by
  refine (length_pending_startPending_le _ _ _ rfl).trans ?_
  rw [pollCompilations_compiler, Compiler.pollAll_pending]

/-- If all compilations have ended, then the next ones begin, or nothing is left to do. -/
theorem length_pending_atDecision_lt (hworkers : 0 < d.config.workerThreadsCount)
    (hends : s.Ends t) (hrequest : s.compiler.shouldLink = true)
    (hnot : ¬ s.Decides d.config t) :
    (s.atDecision d.config t).compiler.pendingCompilationTasks.length <
      s.compiler.pendingCompilationTasks.length := by
  have hrunning : (s.compiler.pollAll t.env).runningCompilationTasks.keys = ∅ := by
    refine Finset.eq_empty_of_forall_notMem fun q hq => ?_
    obtain ⟨task, htask⟩ := Finmap.mem_iff.mp (Finmap.mem_keys.mp hq)
    rw [Compiler.pollAll_running] at htask
    split at htask
    · cases htask
    · rename_i hexit
      exact hexit (hends.1 q (Finmap.mem_keys.mpr (Finmap.mem_of_lookup_eq_some htask)))
  unfold Decides at hnot
  unfold Session.atDecision beforeDecideLink at hnot ⊢
  dsimp only at hnot ⊢
  refine lt_of_lt_of_eq ?_ (congrArg List.length (Compiler.pollAll_pending t.env s.compiler))
  have hpolled := pollCompilations_compiler host t.env { s with world := t.change s.world }
  dsimp only at hpolled
  rw [hpolled] at hnot ⊢
  cases hpending : (s.compiler.pollAll t.env).pendingCompilationTasks with
  | nil =>
      rw [hpending] at hnot
      refine absurd ⟨?_, ?_⟩ hnot
      · rw [startPending, hpolled, hrunning]
      · rw [startPending, hpolled, Compiler.pollAll_shouldLink, hrequest]
  | cons task rest =>
      rw [startPending, if_pos (by rwa [hpolled, hrunning])]
      have hbefore := (Compiler.pollAll_pending t.env s.compiler).symm.trans hpending
      refine Nat.lt_succ_of_le (length_pending_startPending_le _ _ _ ?_)
      simp [doCompile, hpolled, hbefore]

/-- A call that does not decide about the link goes on with the compilations. -/
theorem waits_of_not_decides (hs : Sound d host objOf s) (hhost : host.KeepsUnits)
    (hlink : d.linkGuarded) (ht : t.Succeeds) (h : Waits callback p s.compiler)
    (hnot : ¬ s.Decides d.config t) :
    s.turn d.config t = s.atDecision d.config t ∧
      Waits callback p (s.turn d.config t).compiler := by
  have hwaits := hs.waits_atDecision ht h
  have hsame : s.decided d.config t = s.atDecision d.config t := if_neg hnot
  have hturn := hs.turn_eq_decided hhost hlink (by rw [hsame]; exact hwaits.request)
  rw [hturn, hsame]
  exact ⟨rfl, hwaits⟩

end Sound

/-- The decision about a link of ready units that compiled well. -/
theorem decideLink_of_unbroken (host : Host W) (config : LiveConfig) (env : Environment)
    {s : Session W} (hrunning : s.compiler.runningCompilationTasks.keys = ∅)
    (hready : s.compiler.readyCompilationUnits.keys ≠ ∅) (h : Waits callback p s.compiler) :
    let s₁ := s.modify fun c => { c with shouldLink := false }
    let search := s₁.linkSearch (host.context s.world) env
    s.decideLink host config env =
      if search.pendingCompilation then
        search.session.modify fun c =>
          { c with shouldLink := true, pendingLinkingFinishCallback := callback }
      else (search.session.modify fun c => { c with shouldLink := false }).startLink config env
        callback (env.objectOrder.toList search.uniqueObjectFilePaths) := by
  unfold decideLink
  rw [if_pos ⟨hrunning, h.request⟩]
  dsimp only
  rw [if_pos (by exact h.unbroken), doLink_eq, if_neg (by exact hready)]
  simp only [modify_compiler, h.callback]
  rfl

theorem resolveUndefined_failed (context : LiveContext) (env : Environment) (round : ℕ)
    (names : Finset String) (search : LinkSearch W) :
    (resolveUndefined context env round names search).session.compiler.failedCompilationUnits =
      search.session.compiler.failedCompilationUnits := by
  fun_induction resolveUndefined context env round names search with
  | case1 => rfl
  | case2 _ _ _ _ _ _ ih => exact ih
  | case3 _ _ _ _ _ _ _ _ ih => exact ih
  | case4 _ _ _ _ _ cu hcu hobj ih => exact ih

theorem callback_trace (e : Event) (effect : W → W × List HostEvent) (s : Session W) :
    (s.callback e effect).trace =
      ((effect s.world).2.reverse.map fun e => (s.compiler, Event.host e)) ++ [(s.compiler, e)] ++
        s.trace := by
  have hfold : ∀ (l : List HostEvent) (s : Session W),
      (l.foldl (fun s e => s.emit (.host e)) s).trace =
        (l.reverse.map fun e => (s.compiler, Event.host e)) ++ s.trace := by
    intro l
    induction l with
    | nil => exact fun _ => rfl
    | cons e l ih =>
        intro s
        rw [List.foldl_cons, ih]
        simp
  rw [callback, hfold, List.append_assoc]
  rfl

theorem Delivered.of_callback {s : Session W} {objOf : String → Option String}
    {sourceFilePaths : List String} (libPath err : String) (hp : p ∈ sourceFilePaths)
    (hknows : Knows objOf (host.context s.world)) :
    Delivered host objOf callback p s
      (s.callback (.linkFinished callback 0 libPath sourceFilePaths err)
        (host.linkFinished callback 0 libPath sourceFilePaths err)) := by
  refine ⟨_, s.compiler, libPath, sourceFilePaths, err, s.world, callback_trace _ _ s, hp, ?_,
    hknows, ?_⟩
  · exact List.mem_append_right _ (List.mem_singleton_self _)
  · intro e he
    refine ⟨s.compiler, List.mem_append_left _ ?_⟩
    exact List.mem_map.mpr ⟨e, List.mem_reverse.mpr he, rfl⟩

/-- The unit that is linked is among the sources that are reported. -/
theorem Linking.mem_sources {s : Session W} (h : Linking callback p s.compiler)
    (hkey : ∀ p cu, s.compiler.readyCompilationUnits.lookup p = some cu → cu.sourceFilepath = p)
    (order : Iteration String) :
    p ∈ (s.compiler.readyList order).map fun cu => cu.sourceFilepath := by
  obtain ⟨cu, hcu⟩ := Finmap.mem_iff.mp h.ready
  exact List.mem_map.mpr ⟨cu, (mem_readyList _ _ _).mpr ⟨p, hcu⟩, hkey p cu hcu⟩

/-- The poll of a link that has ended well. -/
theorem Linking.pollLink_delivered {s : Session W} {env : Environment}
    {objOf : String → Option String} (h : Linking callback p s.compiler)
    (hkey : ∀ p cu, s.compiler.readyCompilationUnits.lookup p = some cu → cu.sourceFilepath = p)
    (hknows : Knows objOf (host.context s.world)) {err : String}
    (hexit : env.linkExitStatus = some (0, err)) (hopens : env.dlerror = none) :
    Delivered host objOf callback p s (s.pollLink host env) := by
  obtain ⟨task, htask, rfl⟩ := h.task
  have hsource := h.mem_sources hkey env.readyOrder
  unfold pollLink
  rw [htask, hexit]
  simp only [loadLibrary, hopens, ne_eq, not_true_eq_false, if_false, if_true]
  generalize hopened : addLog LogSeverity.kDebug "Library opened successfully" _ = s₁
  have hcompiler : s₁.compiler = s.compiler := hopened ▸ rfl
  have hworld : s₁.world = s.world := hopened ▸ rfl
  have htrace : s.trace <:+ s₁.trace := hopened ▸ ⟨[_, _, _, _], rfl⟩
  exact (Delivered.of_callback _ err (hcompiler ▸ hsource) (hworld ▸ hknows)).mono htrace
    (List.suffix_cons _ _)

theorem Linking.pollAll {env : Environment} (hkey : c.WellKeyed) (h : Linking callback p c) :
    Linking callback p (c.pollAll env) := by
  have hrunning : ∀ q, q ∉ c.runningCompilationTasks := fun q => by
    rw [h.running]
    exact Finmap.notMem_empty
  obtain ⟨cu, hcu⟩ := Finmap.mem_iff.mp h.ready
  refine ⟨(Compiler.pollAll_shouldLink env c).trans h.request, ?_, ?_, ?_, ?_⟩
  · obtain ⟨_, _, _, heq⟩ := Compiler.pollAll_eq env c
    rw [heq]
    exact h.task
  · exact Finmap.mem_of_lookup_eq_some
      ((Compiler.pollAll_ready_of_not_running hkey (hrunning p)).trans hcu)
  · exact (Compiler.pollAll_pending env c).trans h.pending
  · refine Finmap.ext_lookup fun q => ?_
    rw [Compiler.pollAll_running, h.running]
    split <;> rfl

/-- The poll of the link at the end of the call. -/
theorem Linking.poll {config : LiveConfig} {s : Session W} {t : Turn host}
    (h : Linking callback p (s.decided config t).compiler) (ht : t.Succeeds) :
    (∃ err, t.env.linkExitStatus = some (0, err)) ∨
      ¬ s.Ends t ∧ Linking callback p (s.turn config t).compiler := by
  have hturn : s.turn config t = (s.decided config t).pollLink host t.env := rfl
  rw [hturn]
  cases hexit : t.env.linkExitStatus with
  | none =>
      refine .inr ⟨fun hends => ?_, ?_⟩
      · have hend := hends.2
        simp [hexit] at hend
      · simpa [pollLink, hexit] using h
  | some answer =>
      obtain ⟨status, err⟩ := answer
      obtain rfl := ht.link status err hexit
      exact .inl ⟨err, rfl⟩

namespace Sound

variable {d : Discipline} {objOf : String → Option String} {s : Session W} {t : Turn host}
  (hs : Sound d host objOf s)
include hs

theorem suffix_decided (t : Turn host) : s.trace <:+ (s.decided d.config t).trace :=
  Steps.suffix (beforePollLink_steps host t.env _ (hs.enter t).coherent.running.key
    (hs.enter t).reached.exclusive)

/-- While a link is running, nothing else is done. -/
theorem linking_decided (h : Linking callback p s.compiler) :
    Linking callback p (s.decided d.config t).compiler := by
  have hpolled : Linking callback p (({ s with world := t.change s.world } :
      Session W).pollCompilations host t.env).compiler := by
    rw [pollCompilations_compiler]
    exact h.pollAll hs.coherent.running.key
  have hdecision : Linking callback p (s.atDecision d.config t).compiler := by
    unfold Session.atDecision beforeDecideLink
    dsimp only
    rw [hpolled.pending]
    exact hpolled
  have hnot : ¬ s.Decides d.config t := fun hdecides =>
    Bool.false_ne_true (hdecision.request.symm.trans hdecides.2)
  have hsame : s.decided d.config t = s.atDecision d.config t := if_neg hnot
  rw [hsame]
  exact hdecision

/-- A call that decides about the link finds the unit ready. -/
theorem ready_of_decides (hworkers : 0 < d.config.workerThreadsCount) (ht : t.Succeeds)
    (h : Waits callback p s.compiler) (hdecides : s.Decides d.config t) :
    p ∈ (s.atDecision d.config t).compiler.readyCompilationUnits := by
  have hpending := hdecides.idle.resolve_left hworkers.ne'
  rcases (hs.waits_atDecision ht h).held with hp | hp | hp
  · simp [Compiler.pendingPaths, hpending] at hp
  · rw [← Finmap.mem_keys, hdecides.1] at hp
    exact absurd hp (Finset.notMem_empty p)
  · exact hp

/-- The search for the objects of the link, in a call that decides about it. -/
theorem recompiles_of_decides (hhost : host.KeepsUnits)
    (hworkers : 0 < d.config.workerThreadsCount) (hdecides : s.Decides d.config t) :
    Recompiles objOf (s.atDecision d.config t).compiler
      (((s.atDecision d.config t).modify fun c => { c with shouldLink := false }).linkSearch
        (host.context (s.atDecision d.config t).world) t.env) :=
  Recompiles.linkSearch (hs.atDecision hhost t).knows t.env (eq_empty_of_keys hdecides.1)
    (hdecides.idle.resolve_left hworkers.ne')

/-- What the decision of a call makes of the search for objects. -/
theorem decided_eq (hworkers : 0 < d.config.workerThreadsCount) (ht : t.Succeeds)
    (h : Waits callback p s.compiler) (hdecides : s.Decides d.config t) :
    let s₁ := s.atDecision d.config t
    let search := (s₁.modify fun c => { c with shouldLink := false }).linkSearch
      (host.context s₁.world) t.env
    s.decided d.config t =
      if search.pendingCompilation then
        search.session.modify fun c =>
          { c with shouldLink := true, pendingLinkingFinishCallback := callback }
      else (search.session.modify fun c => { c with shouldLink := false }).startLink d.config t.env
        callback (t.env.objectOrder.toList search.uniqueObjectFilePaths) :=
  decideLink_of_unbroken host d.config t.env hdecides.1
    (Finset.ne_empty_of_mem (Finmap.mem_keys.mpr (hs.ready_of_decides hworkers ht h hdecides)))
    (hs.waits_atDecision ht h)

/-- A decision in favour of the link starts it. -/
theorem linking_of_decides (hhost : host.KeepsUnits)
    (hworkers : 0 < d.config.workerThreadsCount) (ht : t.Succeeds)
    (h : Waits callback p s.compiler) (hdecides : s.Decides d.config t)
    (hnot : ¬ s.Defers d.config t) : Linking callback p (s.decided d.config t).compiler := by
  have hready := hs.ready_of_decides hworkers ht h hdecides
  have hsearch := hs.recompiles_of_decides hhost hworkers hdecides
  have hdecided := hs.decided_eq hworkers ht h hdecides
  dsimp only at hdecided
  generalize hfound : ((s.atDecision d.config t).modify fun c =>
    { c with shouldLink := false }).linkSearch _ t.env = search at hsearch hdecided
  cases hasked : search.pendingCompilation with
  | true =>
      refine absurd ⟨hdecides, ?_⟩ hnot
      rw [hdecided, if_pos hasked]
      rfl
  | false =>
      have hsame := resolveUndefined_eq_self _ _ _ _ _ ((congrArg _ hfound).trans hasked)
      have hpending : search.session.compiler.pendingCompilationTasks = [] := by
        rw [← hfound, linkSearch, hsame]
        exact hdecides.idle.resolve_left hworkers.ne'
      rw [hdecided, if_neg (by simp [hasked])]
      exact ⟨rfl, ⟨_, rfl, rfl⟩, hsearch.ready ▸ hready, hpending, hsearch.running⟩

/-- A deferred link still waits, and only units are pending. -/
theorem waits_of_defers (hhost : host.KeepsUnits) (hlink : d.linkGuarded)
    (hworkers : 0 < d.config.workerThreadsCount) (ht : t.Succeeds)
    (h : Waits callback p s.compiler) (hdefers : s.Defers d.config t) :
    Waits callback p (s.turn d.config t).compiler := by
  have hready := hs.ready_of_decides hworkers ht h hdefers.1
  have hsearch := hs.recompiles_of_decides hhost hworkers hdefers.1
  have hdecided := hs.decided_eq hworkers ht h hdefers.1
  have hunbroken := (hs.waits_atDecision ht h).unbroken
  rw [hs.turn_eq_decided hhost hlink hdefers.2]
  have hrequest := hdefers.2
  dsimp only at hdecided
  rw [hdecided] at hrequest ⊢
  split at hrequest
  · rename_i hasked
    rw [if_pos hasked]
    refine ⟨rfl, rfl, .inr (.inr ?_), ?_⟩
    · exact hsearch.ready ▸ hready
    · exact (resolveUndefined_failed _ _ _ _ _).trans hunbroken
  · simp [startLink] at hrequest

theorem length_pending_of_defers (hhost : host.KeepsUnits) (hlink : d.linkGuarded)
    (hdefers : s.Defers d.config t) :
    (s.turn d.config t).compiler.pendingCompilationTasks.length ≤
      (host.context s.world).compilationUnits.keys.card := by
  have hturn := hs.turn hhost t
  have hawaits := (hs.defers hhost hlink hdefers).1
  have hsub : (s.turn d.config t).compiler.pendingPaths.toFinset ⊆
      (host.context s.world).compilationUnits.keys := by
    intro q hq
    obtain ⟨task, htask, rfl⟩ := List.mem_map.mp (List.mem_toFinset.mp hq)
    exact hs.knows.mem_keys.mpr ⟨_, hawaits.pending task htask⟩
  calc (s.turn d.config t).compiler.pendingCompilationTasks.length
      = (s.turn d.config t).compiler.pendingPaths.length := (List.length_map _).symm
    _ = (s.turn d.config t).compiler.pendingPaths.toFinset.card :=
        (List.toFinset_card_of_nodup hturn.coherent.pending_nodup).symm
    _ ≤ (host.context s.world).compilationUnits.keys.card := Finset.card_le_card hsub

/-! ## Whole runs -/

theorem linkEnds_of_linking (hhost : host.KeepsUnits) {turns : List (Turn host)}
    (ht : ∀ t ∈ turns, t.Succeeds) (h : Linking callback p s.compiler) :
    LinkEnds d.config callback p s turns ∨ s.endings d.config turns = 0 := by
  induction turns generalizing s with
  | nil => exact .inr rfl
  | cons t turns ih =>
      obtain ⟨hfirst, hrest⟩ := List.forall_mem_cons.mp ht
      have hdecided := hs.linking_decided (t := t) h
      rcases hdecided.poll hfirst with hexit | ⟨hends, hlinking⟩
      · exact .inl ⟨[], t, turns, rfl, hdecided, hexit⟩
      · refine (ih (hs.turn hhost t) hrest hlinking).imp LinkEnds.cons fun hzero => ?_
        rw [endings, if_neg hends, hzero]

/-- The potential that every call drops that finds all processes at their end: the pending
compilations, and all units for each deferral that is to come. -/
theorem linkEnds_or_endings_le (hhost : host.KeepsUnits) (hlink : d.linkGuarded)
    (hworkers : 0 < d.config.workerThreadsCount) {turns : List (Turn host)}
    (ht : ∀ t ∈ turns, t.Succeeds) (h : Waits callback p s.compiler) :
    LinkEnds d.config callback p s turns ∨
      s.endings d.config turns ≤ s.compiler.pendingCompilationTasks.length +
        s.deferrals d.config turns * ((host.context s.world).compilationUnits.keys.card + 1) := by
  induction turns generalizing s with
  | nil => exact .inr (Nat.zero_le _)
  | cons t turns ih =>
      obtain ⟨hfirst, hrest⟩ := List.forall_mem_cons.mp ht
      have hturn := hs.turn hhost t
      have hkeys := hturn.knows.keys_eq hs.knows
      by_cases hdecides : s.Decides d.config t
      · by_cases hdefers : s.Defers d.config t
        · have hwaits := hs.waits_of_defers hhost hlink hworkers hfirst h hdefers
          have hpending := hs.length_pending_of_defers hhost hlink hdefers
          refine (ih hturn hrest hwaits).imp LinkEnds.cons fun hle => ?_
          rw [hkeys] at hle
          rw [endings, deferrals, if_pos hdefers, Nat.add_mul]
          split <;> omega
        · have hlinking := hs.linking_of_decides hhost hworkers hfirst h hdecides hdefers
          rcases hlinking.poll hfirst with hexit | ⟨hends, hlinking'⟩
          · exact .inl ⟨[], t, turns, rfl, hlinking, hexit⟩
          · refine (hturn.linkEnds_of_linking hhost hrest hlinking').imp LinkEnds.cons
              fun hzero => ?_
            rw [endings, if_neg hends, hzero]
            exact Nat.zero_le _
      · obtain ⟨hsame, hwaits⟩ := hs.waits_of_not_decides hhost hlink hfirst h hdecides
        refine (ih hturn hrest hwaits).imp LinkEnds.cons fun hle => ?_
        have hnot : ¬ s.Defers d.config t := fun hdefers => hdecides hdefers.1
        rw [hkeys, hsame] at hle
        rw [endings, deferrals, if_neg hnot, Nat.zero_add, hsame]
        split
        · rename_i hends
          have hlt := length_pending_atDecision_lt hworkers hends h.request hdecides
          omega
        · have hle' := length_pending_atDecision_le s t d.config
          omega

/-- What is held when a link is requested is linked, once enough calls have found all processes at
their end. -/
theorem linkEnds (hhost : host.KeepsUnits) (hlink : d.linkGuarded)
    (hworkers : 0 < d.config.workerThreadsCount) {turns : List (Turn host)}
    (ht : ∀ t ∈ turns, t.Succeeds) (h : Waits callback p s.compiler)
    (henough : s.compiler.pendingCompilationTasks.length +
      (host.context s.world).compilationUnits.keys.card *
        ((host.context s.world).compilationUnits.keys.card + 1) < s.endings d.config turns) :
    LinkEnds d.config callback p s turns := by
  refine (hs.linkEnds_or_endings_le hhost hlink hworkers ht h).resolve_right ?_
  have hdeferrals := Nat.mul_le_mul_right ((host.context s.world).compilationUnits.keys.card + 1)
    (hs.deferrals_le_card hhost hlink turns)
  omega

/-- The call that finds the link at its end loads the library and reports it. -/
theorem delivered_of_linkEnds (hhost : host.KeepsUnits) {turns : List (Turn host)}
    (ht : ∀ t ∈ turns, t.Succeeds) (h : LinkEnds d.config callback p s turns) :
    Delivered host objOf callback p s (turns.foldl (Session.turn d.config) s) := by
  obtain ⟨past, t, future, rfl, hlinking, err, hexit⟩ := h
  have hpast := hs.foldl_turn hhost past
  have hdecided := hpast.decided hhost t
  have hdone := hlinking.pollLink_delivered hdecided.coherent.ready_key hdecided.knows hexit
    (ht t (by simp)).opens
  rw [List.foldl_append, List.foldl_cons]
  exact hdone.mono ((hs.suffix_foldl_turn hhost past).trans (hpast.suffix_decided t))
    ((hpast.turn hhost t).suffix_foldl_turn hhost future)

/-- What is held when a link is requested is linked, loaded and reported, once enough calls have
found all processes at their end. -/
theorem delivers (hhost : host.KeepsUnits) (hlink : d.linkGuarded)
    (hworkers : 0 < d.config.workerThreadsCount) {turns : List (Turn host)}
    (ht : ∀ t ∈ turns, t.Succeeds) (h : Waits callback p s.compiler)
    (henough : s.compiler.pendingCompilationTasks.length +
      (host.context s.world).compilationUnits.keys.card *
        ((host.context s.world).compilationUnits.keys.card + 1) < s.endings d.config turns) :
    Delivered host objOf callback p s (turns.foldl (Session.turn d.config) s) :=
  hs.delivered_of_linkEnds hhost ht (hs.linkEnds hhost hlink hworkers ht h henough)

end Sound

end Session

end JetLive

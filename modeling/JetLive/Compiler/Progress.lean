import JetLive.Compiler.Deferral
import JetLive.Compiler.Run

/-!
# Deferred links make progress

A `Turn` is a call of `update` with arbitrary answers of the processes and object files, after
a change of the world that keeps the units. Over a sequence of turns every deferral that is not
followed by a refusal finds more fresh units than the one before it. So a requested link is
deferred at most as many times as there are units, whatever the recompiled objects leave
undefined.
-/

namespace JetLive

open Containers

structure Host.KeepsUnits {W : Type*} (host : Host W) : Prop where
  compileFinished : ∀ objOf callback status path err w, Knows objOf (host.context w) →
    Knows objOf (host.context (host.compileFinished callback status path err w).1)
  linkFinished : ∀ objOf callback status libPath sourceFilePaths err w,
    Knows objOf (host.context w) →
    Knows objOf (host.context (host.linkFinished callback status libPath sourceFilePaths err w).1)

theorem Host.KeepsUnits.stable {W : Type*} {host : Host W} (hhost : host.KeepsUnits)
    (objOf : String → Option String) :
    Session.Stable host fun s : Session W => Knows objOf (host.context s.world) where
  emit _ _ _ h := h
  modify _ _ h := h
  unit _ _ _ _ h := h
  compileFinished s callback status path err h := by
    rw [Session.callback_world]
    exact hhost.compileFinished objOf callback status path err s.world h
  linkRefused s callback h := by
    rw [Session.callback_world]
    exact hhost.linkFinished objOf callback 125 "" [] "" s.world h

/-- A call of `update`. Before it the world may change, but not the units. -/
structure Turn {W : Type*} (host : Host W) where
  change : W → W
  keeps : ∀ objOf w, Knows objOf (host.context w) → Knows objOf (host.context (change w))
  env : Environment

namespace Session

variable {W : Type*} {host : Host W}

section Turns

variable (config : LiveConfig)

/-- The state in which the call looks at the link request. -/
def atDecision (s : Session W) (t : Turn host) : Session W :=
  ({ s with world := t.change s.world } : Session W).beforeDecideLink host config t.env

/-- The state in which the call has dealt with the link request. -/
def decided (s : Session W) (t : Turn host) : Session W :=
  (s.atDecision config t).decideLink host config t.env

def turn (s : Session W) (t : Turn host) : Session W :=
  ({ s with world := t.change s.world } : Session W).update host config t.env

def Decides (s : Session W) (t : Turn host) : Prop :=
  (s.atDecision config t).compiler.runningCompilationTasks.keys = ∅ ∧
    (s.atDecision config t).compiler.shouldLink = true

def Refuses (s : Session W) (t : Turn host) : Prop :=
  s.Decides config t ∧ (s.atDecision config t).compiler.failedCompilationUnits ≠ []

/-- The call defers the link: after the decision the request stands again. -/
def Defers (s : Session W) (t : Turn host) : Prop :=
  s.Decides config t ∧ (s.decided config t).compiler.shouldLink = true

instance (s : Session W) (t : Turn host) : Decidable (s.Defers config t) :=
  inferInstanceAs (Decidable ((_ ∧ _) ∧ _))

def deferrals : Session W → List (Turn host) → ℕ
  | _, [] => 0
  | s, t :: turns => (if s.Defers config t then 1 else 0) + deferrals (s.turn config t) turns

def Undecided : Session W → List (Turn host) → Prop
  | _, [] => True
  | s, t :: turns => ¬ s.Decides config t ∧ Undecided (s.turn config t) turns

def freshAt (s : Session W) (t : Turn host) : Finset String :=
  freshUnits (host.context (s.atDecision config t).world) (s.atDecision config t).compiler

/-- Whenever a link is deferred and not refused at the next decision, more units are fresh
there. -/
def Progresses (s : Session W) (turns : List (Turn host)) : Prop :=
  ∀ past t between t' future, turns = past ++ t :: (between ++ t' :: future) →
    let s₁ := past.foldl (turn config) s
    let s₂ := between.foldl (turn config) (s₁.turn config t)
    s₁.Defers config t → (s₁.turn config t).Undecided config between →
    s₂.Decides config t' → ¬ s₂.Refuses config t' →
    (s₁.freshAt config t).card < (s₂.freshAt config t').card

end Turns

/-- The state is reached, and the world knows the units. -/
structure Sound (d : Discipline) (host : Host W) (objOf : String → Option String)
    (s : Session W) : Prop where
  reached : Reached d s.compiler s.trace
  knows : Knows objOf (host.context s.world)

theorem pollLink_of_none (env : Environment) {s : Session W}
    (h : s.compiler.runningLinkTask = none) : s.pollLink host env = s := by
  simp [pollLink, h]

theorem pollLink_shouldLink (env : Environment) (s : Session W) :
    (s.pollLink host env).compiler.shouldLink = s.compiler.shouldLink := by
  rcases s.pollLink_cases host env with heq | ⟨_, _, _, _, s₁, _, _, hsame, _, _, heq⟩
  · rw [heq]
  · rw [heq]
    simp [hsame]

variable {d : Discipline} {objOf : String → Option String} {before : Finset String}
  {s : Session W} {t : Turn host}

theorem Decides.idle (h : s.Decides d.config t) :
    d.config.workerThreadsCount = 0 ∨
      (s.atDecision d.config t).compiler.pendingCompilationTasks = [] :=
  startPending_idle d.config.workerThreadsCount _ _ rfl h.1

theorem Defers.not_refuses {config : LiveConfig} (h : s.Defers config t) :
    ¬ s.Refuses config t := by
  rintro ⟨hdecides, hfailed⟩
  have hrequest := h.2
  rw [decided, decideLink, if_pos ⟨hdecides.1, hdecides.2⟩] at hrequest
  simp [hfailed] at hrequest

theorem startPending_shouldLink (n : ℕ) (pending : List PendingCompilationTask) (s : Session W) :
    (startPending n pending s).compiler.shouldLink = s.compiler.shouldLink := by
  induction pending generalizing s with
  | nil => rfl
  | cons task rest ih =>
      unfold startPending
      split
      · exact ih _
      · rfl

/-- The request is not looked at before the decision. -/
theorem atDecision_shouldLink (config : LiveConfig) (s : Session W) (t : Turn host) :
    (s.atDecision config t).compiler.shouldLink = s.compiler.shouldLink := by
  rw [atDecision, beforeDecideLink, startPending_shouldLink, pollCompilations_compiler,
    Compiler.pollAll_shouldLink]

/-- Without a request nothing is decided and nothing deferred any more. -/
theorem deferrals_of_lost {config : LiveConfig} (turns : List (Turn host))
    (h : s.compiler.shouldLink = false) : s.deferrals config turns = 0 := by
  induction turns generalizing s with
  | nil => rfl
  | cons t turns ih =>
      have hrequest : (s.atDecision config t).compiler.shouldLink = false :=
        (atDecision_shouldLink config s t).trans h
      have hdecides : ¬ s.Decides config t := fun hdecides => by simp [hdecides.2] at hrequest
      have hsame : s.decided config t = s.atDecision config t := if_neg hdecides
      have hlost : (s.turn config t).compiler.shouldLink = false :=
        (pollLink_shouldLink t.env (s.decided config t)).trans (hsame ▸ hrequest)
      rw [deferrals, if_neg fun hdefers => hdecides hdefers.1, ih hlost]

theorem deferrals_cons_of_not_defers {config : LiveConfig} {turns : List (Turn host)}
    (hdecides : s.Decides config t) (hdefers : ¬ s.Defers config t) :
    s.deferrals config (t :: turns) = 0 := by
  have hlost : (s.decided config t).compiler.shouldLink = false := by
    simpa using fun h => hdefers ⟨hdecides, h⟩
  rw [deferrals, if_neg hdefers, deferrals_of_lost]
  exact (pollLink_shouldLink t.env (s.decided config t)).trans hlost

namespace Sound

variable (hs : Sound d host objOf s)
include hs

theorem coherent : Coherent d s.compiler (history s.trace) := hs.reached.coherent

theorem enter (t : Turn host) :
    Sound d host objOf ({ s with world := t.change s.world } : Session W) :=
  ⟨hs.reached, t.keeps objOf s.world hs.knows⟩

theorem atDecision (hhost : host.KeepsUnits) (t : Turn host) :
    Sound d host objOf (s.atDecision d.config t) where
  reached := hs.reached.trans
    (beforeDecideLink_steps host t.env _ (hs.enter t).coherent.running.key)
  knows := (hhost.stable objOf).beforeDecideLink d.config t.env _ (hs.enter t).knows

theorem decided (hhost : host.KeepsUnits) (t : Turn host) :
    Sound d host objOf (s.decided d.config t) where
  reached := hs.reached.trans (beforePollLink_steps host t.env _
    (hs.enter t).coherent.running.key (hs.enter t).reached.exclusive)
  knows := (hhost.stable objOf).beforePollLink d.config t.env _ (hs.enter t).knows

theorem turn (hhost : host.KeepsUnits) (t : Turn host) :
    Sound d host objOf (s.turn d.config t) where
  reached := hs.reached.trans (update_steps host t.env _
    (hs.enter t).coherent.running.key (hs.enter t).reached.exclusive)
  knows := by
    have hdecided := (hs.decided hhost t).knows
    rcases (s.decided d.config t).pollLink_cases host t.env with
      heq | ⟨task, _, status, err, s₁, _, _, _, _, ⟨_, hworld⟩, heq⟩
    · exact (congrArg (fun s => Knows objOf (host.context s.world)) heq).mpr hdecided
    · refine (congrArg (fun s => Knows objOf (host.context s.world)) heq).mpr ?_
      simp only [emit_world, modify_world, callback_world]
      exact hhost.linkFinished objOf _ _ _ _ _ _ (hworld ▸ hdecided)

theorem foldl_turn (hhost : host.KeepsUnits) (turns : List (Turn host)) :
    Sound d host objOf (turns.foldl (Session.turn d.config) s) := by
  refine List.foldlRecOn turns _ hs ?_
  intro s hs t _
  exact hs.turn hhost t

/-- While the link is requested, no link is running that could be polled. -/
theorem turn_eq_decided (hhost : host.KeepsUnits) (hlink : d.linkGuarded)
    (hrequest : (s.decided d.config t).compiler.shouldLink = true) :
    s.turn d.config t = s.decided d.config t :=
  pollLink_of_none t.env ((hs.decided hhost t).reached.exclusive hlink hrequest)

/-- After a deferral the compiler compiles units that were not fresh. -/
theorem defers (hhost : host.KeepsUnits) (hlink : d.linkGuarded) (h : s.Defers d.config t) :
    Awaits d objOf (s.freshAt d.config t) (s.turn d.config t).compiler ∧
      s.freshAt d.config t ⊂ (host.context s.world).compilationUnits.keys := by
  obtain ⟨hdecides, hrequest⟩ := h
  have hdecision := hs.atDecision hhost t
  rw [hs.turn_eq_decided hhost hlink hrequest, hs.knows.keys_eq hdecision.knows]
  exact decideLink_awaits host t.env hdecision.coherent hdecision.knows hdecides.1
    hdecides.idle hdecides.2 hrequest

/-- The compiler goes on waiting until the next decision. -/
theorem awaits_turn (hhost : host.KeepsUnits) (hlink : d.linkGuarded)
    (ha : Awaits d objOf before s.compiler) (h : ¬ s.Decides d.config t) :
    Awaits d objOf before (s.turn d.config t).compiler := by
  have hdecision : Awaits d objOf before (s.atDecision d.config t).compiler :=
    beforeDecideLink_awaits host d.config t.env (hs.enter t).coherent ha
  have hsame : s.decided d.config t = s.atDecision d.config t := if_neg h
  rw [hs.turn_eq_decided hhost hlink (by rw [hsame]; exact hdecision.request), hsame]
  exact hdecision

theorem awaits_foldl (hhost : host.KeepsUnits) (hlink : d.linkGuarded)
    {turns : List (Turn host)} (ha : Awaits d objOf before s.compiler)
    (h : s.Undecided d.config turns) :
    Awaits d objOf before (turns.foldl (Session.turn d.config) s).compiler := by
  induction turns generalizing s with
  | nil => exact ha
  | cons t turns ih =>
      obtain ⟨hnot, hrest⟩ := h
      exact ih (hs.turn hhost t) (hs.awaits_turn hhost hlink ha hnot) hrest

/-- At the next decision more units are fresh, unless the link is refused there. -/
theorem decides (hhost : host.KeepsUnits) (ha : Awaits d objOf before s.compiler)
    (h : s.Decides d.config t) (hnot : ¬ s.Refuses d.config t) :
    before ⊂ s.freshAt d.config t := by
  have hknows := (hs.atDecision hhost t).knows
  have hdecision : Awaits d objOf before (s.atDecision d.config t).compiler :=
    beforeDecideLink_awaits host d.config t.env (hs.enter t).coherent ha
  have hfailed : (s.atDecision d.config t).compiler.failedCompilationUnits = [] := by
    by_contra hfailed
    exact hnot ⟨h, hfailed⟩
  obtain ⟨p, hp, hfresh⟩ := hdecision.exists_fresh h.1 (h.idle.resolve_left ha.workers) hfailed
  refine ⟨fun q hq => hknows.mem_freshUnits.mpr (hdecision.fresh q hq).1, ?_⟩
  exact fun hsub => hp (hsub (hknows.mem_freshUnits.mpr hfresh))

theorem progresses (hhost : host.KeepsUnits) (hlink : d.linkGuarded)
    (turns : List (Turn host)) : s.Progresses d.config turns := by
  rintro past t between t' future - s₁ s₂ hdefers hundecided hdecides hnot
  have hs₁ : Sound d host objOf s₁ := hs.foldl_turn hhost past
  have hs₂ : Sound d host objOf s₂ := (hs₁.turn hhost t).foldl_turn hhost between
  obtain ⟨hafter, _⟩ := hs₁.defers hhost hlink hdefers
  have hawaits := (hs₁.turn hhost t).awaits_foldl hhost hlink hafter hundecided
  exact Finset.card_lt_card (hs₂.decides hhost hawaits hdecides hnot)

/-- Each deferral after the first finds more fresh units than the one before it. -/
theorem deferrals_add_card_lt (hhost : host.KeepsUnits) (hlink : d.linkGuarded)
    (turns : List (Turn host)) (ha : Awaits d objOf before s.compiler)
    (hcard : before.card < (host.context s.world).compilationUnits.keys.card) :
    s.deferrals d.config turns + before.card <
      (host.context s.world).compilationUnits.keys.card := by
  induction turns generalizing s before with
  | nil => simpa [deferrals] using hcard
  | cons t turns ih =>
      have hturn := hs.turn hhost t
      have hkeys := hturn.knows.keys_eq hs.knows
      by_cases hdecides : s.Decides d.config t
      · by_cases hdefers : s.Defers d.config t
        · have hmore := Finset.card_lt_card (hs.decides hhost ha hdecides hdefers.not_refuses)
          obtain ⟨hafter, hsub⟩ := hs.defers hhost hlink hdefers
          have hrest := ih hturn hafter (hkeys ▸ Finset.card_lt_card hsub)
          rw [hkeys] at hrest
          rw [deferrals, if_pos hdefers]
          omega
        · rw [deferrals_cons_of_not_defers hdecides hdefers]
          omega
      · have hdefers : ¬ s.Defers d.config t := fun h => hdecides h.1
        have hrest := ih hturn (hs.awaits_turn hhost hlink ha hdecides) (hkeys ▸ hcard)
        rw [hkeys] at hrest
        rw [deferrals, if_neg hdefers]
        omega

theorem deferrals_le_card (hhost : host.KeepsUnits) (hlink : d.linkGuarded)
    (turns : List (Turn host)) :
    s.deferrals d.config turns ≤ (host.context s.world).compilationUnits.keys.card := by
  induction turns generalizing s with
  | nil => exact Nat.zero_le _
  | cons t turns ih =>
      have hturn := hs.turn hhost t
      have hkeys := hturn.knows.keys_eq hs.knows
      by_cases hdefers : s.Defers d.config t
      · obtain ⟨hafter, hsub⟩ := hs.defers hhost hlink hdefers
        have hrest := hturn.deferrals_add_card_lt hhost hlink turns hafter
          (hkeys ▸ Finset.card_lt_card hsub)
        rw [hkeys] at hrest
        rw [deferrals, if_pos hdefers]
        omega
      · have hrest := ih hturn
        rw [hkeys] at hrest
        rw [deferrals, if_neg hdefers]
        omega

end Sound

end Session

end JetLive

import JetLive.Compiler.Refinement

/-!
# What the operations record

`Extends P J s s'` says that `s'` comes from `s` by recording events that satisfy `P`,
and that the world of `s'` satisfies `J`. The parts of `update` before the poll of the
running link are followed here: besides its own events the compiler records the units
that `doLink` compiles, which come from the context, and the events of the host. The
rule `Stable` says it for any property of sessions that does not look at the compiler.
-/

namespace JetLive

open Containers

/-- The events that the compiler records on its own account. -/
def Event.Own : Event → Prop
  | .compile _ | .host _ => False
  | _ => True

/-- The events that the compiler records without a callback, before it polls the running
link. -/
def Event.Routine : Event → Prop
  | .log .. | .compileStarted .. | .linkStarted _ => True
  | _ => False

/-- The events recorded at the end of a link process before its callback: only after a
successful one the library is loaded. -/
def Event.Loading (exitStatus : ℤ) : Event → Prop
  | .log .. => True
  | .dlopen .. => exitStatus = 0
  | _ => False

namespace Session

variable {W : Type*}

/-- The trace is extended by events that satisfy `P`, to a world that satisfies `J`. -/
def Extends (P : Compiler → Event → Prop) (J : W → Prop) (s s' : Session W) : Prop :=
  (∃ u, s'.trace = u ++ s.trace ∧ ∀ x ∈ u, P x.1 x.2) ∧ J s'.world

variable {P : Compiler → Event → Prop} {J : W → Prop} {s s' s'' : Session W}

namespace Extends

theorem refl (hs : J s.world) : Extends P J s s := ⟨⟨[], rfl, by simp⟩, hs⟩

theorem trans (h : Extends P J s s') (h' : Extends P J s' s'') : Extends P J s s'' := by
  obtain ⟨⟨u, hu, hPu⟩, _⟩ := h
  obtain ⟨⟨v, hv, hPv⟩, hJ⟩ := h'
  refine ⟨⟨v ++ u, by rw [hv, hu, List.append_assoc], ?_⟩, hJ⟩
  intro x hx
  exact (List.mem_append.mp hx).elim (hPv x) (hPu x)

theorem emit {e : Event} (h : Extends P J s s') (he : P s'.compiler e) :
    Extends P J s (s'.emit e) := by
  refine h.trans ⟨⟨[(s'.compiler, e)], rfl, ?_⟩, h.2⟩
  intro x hx
  rw [List.mem_singleton.mp hx]
  exact he

theorem modify (h : Extends P J s s') (f : Compiler → Compiler) :
    Extends P J s (s'.modify f) :=
  ⟨h.1, h.2⟩

theorem emitHost (h : Extends P J s s') {l : List HostEvent}
    (hl : ∀ e ∈ l, P s'.compiler (.host e)) :
    Extends P J s (l.foldl (fun s e => s.emit (.host e)) s') := by
  induction l generalizing s' with
  | nil => exact h
  | cons e l ih =>
      obtain ⟨he, hl⟩ := List.forall_mem_cons.mp hl
      exact ih (h.emit he) hl

theorem callback {e : Event} {effect : W → W × List HostEvent} (h : Extends P J s s')
    (he : P s'.compiler e) (hJ : J (effect s'.world).1)
    (hhost : ∀ e ∈ (effect s'.world).2, P s'.compiler (.host e)) :
    Extends P J s (s'.callback e effect) := by
  obtain ⟨hadds, _⟩ := h.emit he
  have hworld : Extends P J s { s'.emit e with world := (effect s'.world).1 } := ⟨hadds, hJ⟩
  exact hworld.emitHost hhost

end Extends

/-- `P` accepts what the compiler records on its own account, the units of the context
and what the host does when a compilation ends or a link is refused; the host keeps `J`
then. -/
structure Accepts (P : Compiler → Event → Prop) (J : W → Prop) (host : Host W) : Prop where
  own : ∀ c e, e.Own → P c e
  unit : ∀ w, J w → ∀ name cu, ownerUnit (host.context w) name = some cu → ∀ c, P c (.compile cu)
  compileFinished : ∀ callback status path err w, J w →
    J (host.compileFinished callback status path err w).1 ∧
      ∀ e ∈ (host.compileFinished callback status path err w).2, ∀ c, P c (.host e)
  linkRefused : ∀ callback w, J w →
    J (host.linkFinished callback 125 "" [] "" w).1 ∧
      ∀ e ∈ (host.linkFinished callback 125 "" [] "" w).2, ∀ c, P c (.host e)

variable {host : Host W}

/-- `I` is kept by whatever the parts of `update` before the poll of the running link do:
they record events, compile units of the context, run the callbacks of compilations and
refuse a link. -/
structure Stable (host : Host W) (I : Session W → Prop) : Prop where
  emit : ∀ s e, e.Routine → I s → I (s.emit e)
  modify : ∀ s f, I s → I (s.modify f)
  unit : ∀ s name cu, ownerUnit (host.context s.world) name = some cu → I s →
    I (s.emit (.compile cu))
  compileFinished : ∀ s callback status path err, I s →
    I (s.callback (.compileFinished callback status path err)
      (host.compileFinished callback status path err))
  linkRefused : ∀ s callback, I s →
    I (s.callback (.linkRefused callback) (host.linkFinished callback 125 "" [] ""))

namespace Stable

variable {I : Session W → Prop}

theorem addLog (hI : Stable host I) (severity : LogSeverity) (message : String) (hs : I s) :
    I (s.addLog severity message) :=
  hI.emit s _ trivial hs

theorem pollTask (hI : Stable host I) (env : Environment) (s : Session W) (key : String)
    (hs : I s) : I (s.pollTask host env key) := by
  unfold Session.pollTask
  split
  · rename_i task status err _ _
    by_cases hstatus : status = 0
    · simp only [hstatus, if_true]
      refine hI.compileFinished _ _ _ _ _ (hI.modify _ _ ?_)
      exact hI.addLog _ _ (hI.modify _ _ hs)
    · simp only [hstatus, if_false]
      refine hI.compileFinished _ _ _ _ _ (hI.modify _ _ (hI.modify _ _ ?_))
      exact hI.addLog _ _ hs
  · exact hs

theorem pollCompilations (hI : Stable host I) (env : Environment) (s : Session W) (hs : I s) :
    I (s.pollCompilations host env) := by
  unfold Session.pollCompilations
  refine hI.modify _ _ (List.foldlRecOn _ _ hs ?_)
  intro s hs key _
  exact hI.pollTask env s key hs

theorem doCompile (hI : Stable host I) (cu : CompilationUnit) (callback : FinishCallback)
    (hs : I s) : I (s.doCompile cu callback) := by
  unfold Session.doCompile
  exact hI.modify _ _ (hI.emit _ _ trivial (hI.addLog _ _ hs))

theorem startPending (hI : Stable host I) (n : ℕ) (pending : List PendingCompilationTask)
    (s : Session W) (hs : I s) : I (startPending n pending s) := by
  induction pending generalizing s with
  | nil => exact hs
  | cons task rest ih =>
      unfold Session.startPending
      split
      · exact ih _ (hI.modify _ _ (hI.doCompile _ _ hs))
      · exact hs

theorem resolveUndefined (hI : Stable host I) {w : W} (env : Environment) (round : ℕ)
    (names : Finset String) (search : LinkSearch W) (hw : search.session.world = w)
    (hs : I search.session) :
    I (resolveUndefined (host.context w) env round names search).session := by
  fun_induction Session.resolveUndefined (host.context w) env round names search with
  | case1 => exact hs
  | case2 _ _ _ _ _ _ ih => exact ih hw hs
  | case3 _ _ _ _ _ _ _ _ ih => exact ih hw hs
  | case4 _ _ search name _ cu hcu _ ih =>
      refine ih hw (hI.modify _ _ (hI.unit _ name cu ?_ hs))
      rw [hw]
      exact hcu

theorem startLink (hI : Stable host I) (config : LiveConfig) (env : Environment)
    (callback : LinkFinishCallback) (objectFilePaths : List String) (hs : I s) :
    I (s.startLink config env callback objectFilePaths) := by
  unfold Session.startLink
  exact hI.modify _ _ (hI.emit _ _ trivial (hI.addLog _ _ (hI.addLog _ _ hs)))

theorem doLink (hI : Stable host I) (config : LiveConfig) (env : Environment)
    (callback : LinkFinishCallback) (s : Session W) (hs : I s) :
    I (s.doLink config (host.context s.world) env callback) := by
  unfold Session.doLink
  split
  · exact hI.addLog _ _ hs
  · have htaken := hI.modify s (fun c => { c with shouldLink := false }) hs
    have hsearch := hI.resolveUndefined (w := s.world) env 0
      ((s.compiler.readyList env.readyOrder).foldl
        (fun names cu => names ∪ env.undefinedSymbolNames cu.objFilepath) ∅)
      ⟨s.modify fun c => { c with shouldLink := false },
        ((s.compiler.readyList env.readyOrder).map fun cu => cu.objFilepath).toFinset, false⟩
      rfl htaken
    dsimp only
    split
    · exact hI.modify _ _ hsearch
    · exact hI.startLink config env callback _ (hI.modify _ _ hsearch)

theorem logFailed (hI : Stable host I) (s : Session W) (hs : I s) : I s.logFailed := by
  refine hI.addLog _ _ (List.foldlRecOn _ _ (hI.addLog _ _ hs) ?_)
  intro s hs el _
  exact hI.addLog _ _ hs

theorem decideLink (hI : Stable host I) (config : LiveConfig) (env : Environment)
    (s : Session W) (hs : I s) : I (s.decideLink host config env) := by
  unfold Session.decideLink
  split
  · have htaken : I (s.modify fun c => { c with shouldLink := false }) := hI.modify _ _ hs
    dsimp only
    split
    · exact hI.doLink config env _ _ htaken
    · exact hI.linkRefused _ _ (hI.logFailed _ htaken)
  · exact hs

theorem beforeDecideLink (hI : Stable host I) (config : LiveConfig) (env : Environment)
    (s : Session W) (hs : I s) : I (s.beforeDecideLink host config env) :=
  hI.startPending _ _ _ (hI.pollCompilations env s hs)

theorem beforePollLink (hI : Stable host I) (config : LiveConfig) (env : Environment)
    (s : Session W) (hs : I s) : I (s.beforePollLink host config env) :=
  hI.decideLink config env _ (hI.beforeDecideLink config env s hs)

end Stable

/-- What the records of a session are extended by is stable. -/
theorem Accepts.stable (hP : Accepts P J host) (s : Session W) :
    Stable host (Extends P J s) where
  emit s' e he hs := by
    refine hs.emit (hP.own _ _ ?_)
    cases e with
    | compile => exact he.elim
    | host => exact he.elim
    | _ => trivial
  modify _ f hs := hs.modify f
  unit s' name cu hcu hs := hs.emit (hP.unit _ hs.2 name cu hcu _)
  compileFinished s' callback status path err hs := by
    obtain ⟨hJ, hhost⟩ := hP.compileFinished callback status path err s'.world hs.2
    exact hs.callback (hP.own _ _ trivial) hJ fun e he => hhost e he _
  linkRefused s' callback hs := by
    obtain ⟨hJ, hhost⟩ := hP.linkRefused callback s'.world hs.2
    exact hs.callback (hP.own _ _ trivial) hJ fun e he => hhost e he _

theorem beforePollLink_extends (hP : Accepts P J host) (config : LiveConfig) (env : Environment)
    (s : Session W) (hs : J s.world) :
    Extends P J s (s.beforePollLink host config env) :=
  (hP.stable s).beforePollLink config env s (.refl hs)

/-! ## The poll of the running link -/

theorem loadLibrary_extends (env : Environment) (libPath : String) (status : ℤ)
    (s : Session W) :
    Extends (fun _ e => e.Loading status) (· = s.world) s (s.loadLibrary env libPath status).1 := by
  unfold loadLibrary
  split
  · rename_i hstatus
    have hlogged : Extends (fun _ e => e.Loading status) (· = s.world) s
        (s.addLog .kDebug ("Opening " ++ libPath ++ "...")) :=
      Extends.emit (.refl rfl) trivial
    have hopened (opened : Bool) := hlogged.emit (e := .dlopen libPath opened) hstatus
    dsimp only
    split
    · exact (hopened true).emit trivial
    · exact (hopened false).emit trivial
  · exact .refl rfl

/-- What the poll of the running link does: nothing, or it reports the end of the link
process. -/
theorem pollLink_cases (host : Host W) (env : Environment) (s : Session W) :
    s.pollLink host env = s ∨
    ∃ (task : Task) (exitStatus status : ℤ) (err : String) (s₁ : Session W),
      s.compiler.runningLinkTask = some task ∧ env.linkExitStatus = some (exitStatus, err) ∧
      s₁.compiler = s.compiler ∧ (∀ d, Steps d s.core s₁.core) ∧
      Extends (fun _ e => e.Loading exitStatus) (· = s.world) s s₁ ∧
      s.pollLink host env =
        let sources := (s₁.compiler.readyList env.readyOrder).map fun cu => cu.sourceFilepath
        ((s₁.callback
          (.linkFinished task.linkFinishCallback status task.cuOrLibFilepath sources err)
          (host.linkFinished task.linkFinishCallback status task.cuOrLibFilepath sources
            err)).modify fun c =>
            { c with
              runningLinkTask := none
              readyCompilationUnits := if status = 0 then ∅ else c.readyCompilationUnits }).emit
          (.linkTaskReset status) := by
  unfold pollLink
  split
  · rename_i task exitStatus err htask hexit
    set logged := if exitStatus ≠ 0 then
        s.addLog .kWarning ("Link failed: " ++ task.cuOrLibFilepath ++ "\n" ++ err)
      else s.addLog .kInfo "Linked successfully" with hlogged
    have hlog : Extends (fun _ e => e.Loading exitStatus) (· = s.world) s logged ∧
        logged.compiler = s.compiler ∧ ∀ d, Steps d s.core logged.core := by
      rw [hlogged]
      split
      · exact ⟨Extends.emit (.refl rfl) trivial, rfl, fun _ => steps_addLog _ _ .refl⟩
      · exact ⟨Extends.emit (.refl rfl) trivial, rfl, fun _ => steps_addLog _ _ .refl⟩
    obtain ⟨hextends, hcompiler, hsteps⟩ := hlog
    have hloaded := loadLibrary_extends env task.cuOrLibFilepath exitStatus logged
    rw [hextends.2] at hloaded
    refine Or.inr ⟨task, exitStatus, (logged.loadLibrary env task.cuOrLibFilepath exitStatus).2,
      err, (logged.loadLibrary env task.cuOrLibFilepath exitStatus).1, htask, hexit, ?_, ?_,
      hextends.trans hloaded, rfl⟩
    · rw [loadLibrary_compiler, hcompiler]
    · exact fun d => (hsteps d).trans (loadLibrary_steps env _ _ logged)
  · exact Or.inl rfl

end Session

end JetLive

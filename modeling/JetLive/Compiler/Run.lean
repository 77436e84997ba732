import JetLive.Compiler.Refinement

/-!
# Runs of the compiler

A `Run` is any sequence of calls of `compile`, `remove`, `link` and `update`, with
arbitrary answers of the processes, and with arbitrary changes of the world in
between. Its state and its trace are reached by small steps from the initial
ones, so every invariant of the small steps holds after every run.

For a property of the events of a run there is the rule `Reached.always`: it is
enough to prove it for an event that is emitted in a reached state, and `Emits`
says what is known there.
-/

namespace JetLive

open Containers EventTrace

def Reached (d : Discipline) (c : Compiler) (t : CompilerTrace) : Prop :=
  Steps d ({}, []) (c, t)

variable {d : Discipline} {c : Compiler} {t : CompilerTrace}

namespace Reached

theorem invariant {I : Compiler → CompilerTrace → Prop} (hinitial : I {} [])
    (hstep : ∀ c t c' t', Step d (c, t) (c', t') → I c t → I c' t') (h : Reached d c t) :
    I c t :=
  Steps.invariant hstep h hinitial

theorem coherent (h : Reached d c t) : Coherent d c (history t) :=
  h.invariant (I := fun c t => Coherent d c (history t)) (Coherent.initial d)
    fun _ _ _ _ hstep hc => hc.step hstep

theorem exclusive (h : Reached d c t) (hlink : d.linkGuarded) : c.Exclusive :=
  h.invariant (I := fun c _ => c.Exclusive) (by simp [Compiler.Exclusive])
    fun _ _ _ _ hstep hc => hc.step hstep hlink

end Reached

/-- What is known when a small step from the state `c` records the event `e` with
the state `c₀`. -/
def Emits (d : Discipline) (c c₀ : Compiler) : Event → Prop
  | .compile _ => c₀ = c ∧ (d.editGuarded → c.runningLinkTask = none) ∧
      (d.compileGuarded → c.shouldLink = false)
  | .linkStarted process =>
      c₀ = c ∧ (d.linkGuarded → c.runningLinkTask = none) ∧ c.runningCompilationTasks = ∅ ∧
        (d.config.workerThreadsCount = 0 ∨ c.pendingCompilationTasks = []) ∧
        c.failedCompilationUnits = [] ∧ c.readyCompilationUnits ≠ ∅ ∧
        LinksReady d.config c process
  | .linkRefused _ => c₀ = c ∧ c.failedCompilationUnits ≠ []
  | .linkFinished _ _ _ sourceFilePaths _ =>
      c₀ = c ∧ c.runningLinkTask ≠ none ∧ ListsReady c sourceFilePaths
  | .linkTaskReset status =>
      c.runningLinkTask ≠ none ∧
        (status ≠ 0 → c₀.readyCompilationUnits = c.readyCompilationUnits)
  | _ => True

/-- A small step records at most one event. -/
theorem Step.emits {c c' : Compiler} {t t' : CompilerTrace} (hstep : Step d (c, t) (c', t')) :
    t' = t ∨ ∃ c₀ e, t' = (c₀, e) :: t ∧ Emits d c c₀ e := by
  cases hstep with
  | note _ _ e he => exact Or.inr ⟨c, e, rfl, by cases e <;> trivial⟩
  | compile _ _ cu callback hguard hassert =>
      exact Or.inr ⟨c, _, rfl, rfl, hguard, hassert⟩
  | remove => exact Or.inr ⟨c, _, rfl, trivial⟩
  | link => exact Or.inr ⟨c, _, rfl, trivial⟩
  | addReady => exact Or.inl rfl
  | dropReady => exact Or.inl rfl
  | succeed => exact Or.inr ⟨c', _, rfl, trivial⟩
  | fail => exact Or.inr ⟨c', _, rfl, trivial⟩
  | reap => exact Or.inl rfl
  | start => exact Or.inl rfl
  | takeRequest => exact Or.inl rfl
  | defer => exact Or.inl rfl
  | linkStart _ _ process task hidle _ hrunning hpending hfailed hready hprocess =>
      exact Or.inr ⟨c, _, rfl, rfl, hidle, hrunning, hpending, hfailed, hready, hprocess⟩
  | refuse _ _ callback hfailed => exact Or.inr ⟨c, _, rfl, rfl, hfailed⟩
  | report _ _ task status sourceFilePaths err htask hsources =>
      exact Or.inr ⟨c, _, rfl, rfl, by simp [htask], hsources⟩
  | reset _ _ _ task status htask _ hc' =>
      refine Or.inr ⟨c', _, rfl, by simp [htask], ?_⟩
      intro hstatus
      simp [hc', hstatus]

/-- A property of events holds along every run if it holds whenever an event is
recorded in a reached state. -/
theorem Reached.always {P : Compiler → Event → CompilerTrace → Prop}
    (hP : ∀ c t c₀ e, Reached d c t → Emits d c c₀ e → P c₀ e t) (h : Reached d c t) :
    Always P t := by
  have hboth : Reached d c t ∧ Always P t := by
    refine h.invariant (I := fun c t => Reached d c t ∧ Always P t) ⟨.refl, always_nil P⟩ ?_
    rintro c t c' t' hstep ⟨hreached, halways⟩
    refine ⟨hreached.tail hstep, ?_⟩
    rcases hstep.emits with rfl | ⟨c₀, e, rfl, hemits⟩
    · exact halways
    · exact (always_cons P c₀ e t).mpr ⟨hP c t c₀ e hreached hemits, halways⟩
  exact hboth.2

inductive Call
  | compile (cu : CompilationUnit) (callback : FinishCallback)
  | remove (order : Iteration String) (compilationUnitPath : String)
  | link (callback : LinkFinishCallback)
  | update (env : Environment)

def Call.Allowed (d : Discipline) (c : Compiler) : Call → Prop
  | .compile .. => (d.editGuarded → c.runningLinkTask = none) ∧
      (d.compileGuarded → c.shouldLink = false)
  | .remove .. => d.editGuarded → c.runningLinkTask = none
  | .link _ => d.linkGuarded → c.runningLinkTask = none
  | .update _ => True

namespace Session

variable {W : Type*}

def perform (host : Host W) (config : LiveConfig) (s : Session W) : Call → Session W
  | .compile cu callback => s.compile cu callback
  | .remove order p => s.remove order p
  | .link callback => s.link callback
  | .update env => s.update host config env

theorem perform_steps (host : Host W) {s : Session W} {call : Call}
    (hallowed : call.Allowed d s.compiler) (hkey : s.compiler.WellKeyed)
    (hexclusive : d.linkGuarded → s.compiler.Exclusive) :
    Steps d s.core (s.perform host d.config call).core := by
  cases call with
  | compile cu callback => exact .single (s.compile_step cu callback hallowed.1 hallowed.2)
  | remove order p => exact .single (s.remove_step order p hallowed)
  | link callback => exact .single (s.link_step callback hallowed)
  | update env => exact s.update_steps host env hkey hexclusive

end Session

/-- The runs of a compiler under the promises of `d`. Between two calls the world may
change in any way. -/
inductive Run {W : Type*} (host : Host W) (d : Discipline) : Session W → Prop
  | start (w : W) : Run host d { world := w }
  | call {s : Session W} (h : Run host d s) (call : Call) (hallowed : call.Allowed d s.compiler) :
      Run host d (s.perform host d.config call)
  | outside {s : Session W} (h : Run host d s) (w : W) : Run host d { s with world := w }

/-- Every run is made of small steps. -/
theorem Run.reached {W : Type*} {host : Host W} {s : Session W} (h : Run host d s) :
    Reached d s.compiler s.trace := by
  induction h with
  | start w => exact .refl
  | call _ call hallowed ih =>
      exact ih.trans (Session.perform_steps host hallowed ih.coherent.running.key ih.exclusive)
  | outside _ w ih => exact ih

def Session.Allows {W : Type*} (host : Host W) (d : Discipline) : Session W → List Call → Prop
  | _, [] => True
  | s, call :: calls =>
      call.Allowed d s.compiler ∧ Allows host d (s.perform host d.config call) calls

theorem Run.calls {W : Type*} {host : Host W} {s : Session W} (h : Run host d s)
    (calls : List Call) (hallowed : s.Allows host d calls) :
    Run host d (calls.foldl (Session.perform host d.config) s) := by
  induction calls generalizing s with
  | nil => exact h
  | cons call calls ih =>
      obtain ⟨hcall, hallowed⟩ := hallowed
      exact ih (h.call call hcall) hallowed

/-- An owner without promises may make any calls. -/
theorem Session.allows_free {W : Type*} (host : Host W) (config : LiveConfig) (s : Session W)
    (calls : List Call) : s.Allows host (.free config) calls := by
  induction calls generalizing s with
  | nil => trivial
  | cons call calls ih =>
      refine ⟨?_, ih _⟩
      cases call <;> simp [Call.Allowed, Discipline.free]

/-! ## Small runs

A host without effects and the answers of processes without undefined symbols,
for runs on concrete inputs. -/

def Host.idle : Host Unit where
  context _ := {}
  compileFinished _ _ _ _ w := (w, [])
  linkFinished _ _ _ _ _ w := (w, [])

/-- The answers during one call of `update`: the compilation of `p` ends with the
given status, the others go on. -/
def Environment.finished (p : String) (status : ℤ) : Environment where
  exitStatus q := if q = p then some (status, "") else none
  linkExitStatus := none
  dlerror := none
  undefinedSymbolNames _ := ∅
  tellg _ := 0
  memoryRegions := []
  runningOrder := .increasing
  readyOrder := .increasing
  symbolOrder _ := .increasing
  objectOrder := .increasing

def Environment.linked : Environment :=
  { Environment.finished "" 0 with linkExitStatus := some (0, "") }

/-- The calls that compile one unit to the end, with the given status. -/
def Call.compileOne (cu : CompilationUnit) (status : ℤ) : List Call :=
  [.compile cu .nothing, .update (.finished "" 0), .update (.finished cu.sourceFilePath status)]

/-- The state after the given calls, with four workers and a host without effects. -/
def Session.after (calls : List Call) : Session Unit :=
  calls.foldl (Session.perform Host.idle {}) { world := () }

theorem Run.after (calls : List Call) : Run Host.idle (.free {}) (Session.after calls) :=
  (Run.start ()).calls calls (Session.allows_free _ _ _ _)

end JetLive

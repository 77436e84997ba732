import JetLive.Compiler.History
import Mathlib.Logic.Relation

/-!
# The steps of the compiler

Every operation of the compiler is a sequence of small steps on its state and
the trace, and `Step` says once what a small step can do. The invariants of the
compiler are proved for `Step`; that the operations consist of such steps is the
other half, in `Compiler/Refinement.lean`.

A `Discipline` fixes the configuration and which calls the owner of the compiler
promises not to make while a link process is running.
-/

namespace JetLive

open Containers

/-- The configuration of the compiler and the promises of its owner: `linkGuarded`
that `link` is not called while a link process is running, `editGuarded` that
neither `compile` nor `remove` is, `compileGuarded` that `compile` is not called
while a link is requested. The second promise is only made with the first. -/
structure Discipline where
  config : LiveConfig
  linkGuarded : Prop
  editGuarded : Prop
  compileGuarded : Prop
  linkGuarded_of_edit : editGuarded → linkGuarded

namespace Discipline

/-- An owner that makes no promise. -/
def free (config : LiveConfig) : Discipline := ⟨config, False, False, False, id⟩

/-- An owner that only promises not to call `link` while a link process is running. -/
def linkGated (config : LiveConfig) : Discipline :=
  ⟨config, True, False, False, fun _ => trivial⟩

/-- An owner that calls nothing but `update` while a link process is running. -/
def gated (config : LiveConfig) : Discipline := ⟨config, True, True, False, id⟩

/-- An owner that moreover never calls `compile` while a link is requested, as the
assertion at the top of `compile` asks for. -/
def strict (config : LiveConfig) : Discipline := ⟨config, True, True, True, id⟩

end Discipline

/-- The process links the objects of the ready units and nothing else, each of
them once. -/
def LinksReady (config : LiveConfig) (c : Compiler) (process : Process) : Prop :=
  ∃ libName baseAddress objectFilePaths,
    process.command = createLinkCommand libName c.compilerPath baseAddress config.linkerType
      objectFilePaths ∧
    objectFilePaths.Nodup ∧
    ∀ o, o ∈ objectFilePaths ↔
      ∃ p cu, c.readyCompilationUnits.lookup p = some cu ∧ cu.objFilepath = o

/-- The list holds the sources of the ready units, each of them once. -/
def ListsReady (c : Compiler) (sourceFilePaths : List String) : Prop :=
  ∃ order : Iteration String,
    sourceFilePaths = (c.readyList order).map fun cu => cu.sourceFilepath

inductive Step (d : Discipline) : Compiler × CompilerTrace → Compiler × CompilerTrace → Prop
  | note (c : Compiler) (t : CompilerTrace) (e : Event) (he : e.Neutral) :
      Step d (c, t) (c, (c, e) :: t)
  | compile (c : Compiler) (t : CompilerTrace) (cu : CompilationUnit) (callback : FinishCallback)
      (hguard : d.editGuarded → c.runningLinkTask = none)
      (hassert : d.compileGuarded → c.shouldLink = false) :
      Step d (c, t) (c.enqueue cu callback, (c, .compile cu) :: t)
  | remove (c : Compiler) (t : CompilerTrace) (order : Iteration String) (p : String)
      (hguard : d.editGuarded → c.runningLinkTask = none) :
      Step d (c, t) (c.dequeue order p, (c, .remove p) :: t)
  | link (c : Compiler) (t : CompilerTrace) (callback : LinkFinishCallback)
      (hguard : d.linkGuarded → c.runningLinkTask = none) :
      Step d (c, t)
        ({ c with shouldLink := true, pendingLinkingFinishCallback := callback }, (c, .link) :: t)
  | addReady (c : Compiler) (t : CompilerTrace) (p : String) (task : Task)
      (hrun : c.runningCompilationTasks.lookup p = some task) :
      Step d (c, t)
        ({ c with
           readyCompilationUnits := c.readyCompilationUnits.insert task.cuOrLibFilepath
             ⟨task.cuOrLibFilepath, task.objFilepath⟩ }, t)
  | dropReady (c : Compiler) (t : CompilerTrace) (p : String) (task : Task)
      (hrun : c.runningCompilationTasks.lookup p = some task) :
      Step d (c, t)
        ({ c with
           readyCompilationUnits := c.readyCompilationUnits.erase task.cuOrLibFilepath }, t)
  | succeed (c c' : Compiler) (t : CompilerTrace) (p : String) (task : Task) (err : String)
      (hrun : c.runningCompilationTasks.lookup p = some task)
      (hready : task.cuOrLibFilepath ∈ c.readyCompilationUnits)
      (hc' : c' = { c with
        failedCompilationUnits := setErase task.filename c.failedCompilationUnits }) :
      Step d (c, t)
        (c', (c', .compileFinished task.finishCallback 0 task.cuOrLibFilepath err) :: t)
  | fail (c c' : Compiler) (t : CompilerTrace) (p : String) (task : Task) (status : ℤ)
      (err : String) (hrun : c.runningCompilationTasks.lookup p = some task)
      (hstatus : status ≠ 0)
      (hc' : c' = { c with
        failedCompilationUnits := setInsert task.filename c.failedCompilationUnits }) :
      Step d (c, t)
        (c', (c', .compileFinished task.finishCallback status task.cuOrLibFilepath err) :: t)
  | reap (c : Compiler) (t : CompilerTrace) (p : String) (task : Task) (status : ℤ)
      (hrun : c.runningCompilationTasks.lookup p = some task)
      (hlatest : (history t).latest p = some status)
      (hready : c.readyCompilationUnits.lookup p =
        if status = 0 then some ⟨p, task.objFilepath⟩ else none) :
      Step d (c, t)
        ({ c with runningCompilationTasks := c.runningCompilationTasks.erase p }, t)
  | start (c : Compiler) (t : CompilerTrace) (pending : PendingCompilationTask)
      (rest : List PendingCompilationTask)
      (hpending : c.pendingCompilationTasks = pending :: rest)
      (hcard : c.runningCompilationTasks.keys.card < d.config.workerThreadsCount) :
      Step d (c, t)
        ({ c with
           runningCompilationTasks := c.runningCompilationTasks.insert pending.cu.sourceFilePath
             (compilationTask pending.cu pending.finishCallback)
           pendingCompilationTasks := rest }, t)
  | takeRequest (c : Compiler) (t : CompilerTrace) :
      Step d (c, t) ({ c with shouldLink := false }, t)
  | defer (c : Compiler) (t : CompilerTrace) (callback : LinkFinishCallback)
      (hidle : d.linkGuarded → c.runningLinkTask = none) :
      Step d (c, t)
        ({ c with shouldLink := true, pendingLinkingFinishCallback := callback }, t)
  | linkStart (c : Compiler) (t : CompilerTrace) (process : Process) (task : Task)
      (hidle : d.linkGuarded → c.runningLinkTask = none)
      (hshould : c.shouldLink = false)
      (hrunning : c.runningCompilationTasks = ∅)
      (hpending : d.config.workerThreadsCount = 0 ∨ c.pendingCompilationTasks = [])
      (hfailed : c.failedCompilationUnits = [])
      (hready : c.readyCompilationUnits ≠ ∅)
      (hprocess : LinksReady d.config c process) :
      Step d (c, t)
        ({ c with
           currentLibIndex := c.currentLibIndex + 1
           pendingLinkingFinishCallback := none
           runningLinkTask := some task }, (c, .linkStarted process) :: t)
  | refuse (c : Compiler) (t : CompilerTrace) (callback : LinkFinishCallback)
      (hfailed : c.failedCompilationUnits ≠ []) :
      Step d (c, t) (c, (c, .linkRefused callback) :: t)
  | report (c : Compiler) (t : CompilerTrace) (task : Task) (status : ℤ)
      (sourceFilePaths : List String) (err : String)
      (htask : c.runningLinkTask = some task)
      (hsources : ListsReady c sourceFilePaths) :
      Step d (c, t) (c, (c, .linkFinished task.linkFinishCallback status task.cuOrLibFilepath
        sourceFilePaths err) :: t)
  | reset (c c' : Compiler) (t : CompilerTrace) (task : Task) (status : ℤ)
      (htask : c.runningLinkTask = some task)
      (hdirty : status = 0 → (history t).dirty = ∅)
      (hc' : c' = { c with
        runningLinkTask := none
        readyCompilationUnits := if status = 0 then ∅ else c.readyCompilationUnits }) :
      Step d (c, t) (c', (c', .linkTaskReset status) :: t)

abbrev Steps (d : Discipline) := Relation.ReflTransGen (Step d)

/-- An invariant of the small steps holds after any number of them. -/
theorem Steps.invariant {d : Discipline} {I : Compiler → CompilerTrace → Prop}
    (hstep : ∀ c t c' t', Step d (c, t) (c', t') → I c t → I c' t')
    {c c' : Compiler} {t t' : CompilerTrace} (h : Steps d (c, t) (c', t')) (hI : I c t) :
    I c' t' := by
  have key : ∀ x y : Compiler × CompilerTrace, Steps d x y → I x.1 x.2 → I y.1 y.2 := by
    intro x y hxy hx
    induction hxy with
    | refl => exact hx
    | @tail b e _ hbe ih => exact hstep b.1 b.2 e.1 e.2 hbe ih
  exact key (c, t) (c', t') h hI

end JetLive

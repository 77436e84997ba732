import JetLive.Compiler.Run

/-!
# Failed compilations

The compiler refuses to link while its set of failed files is not empty. The set
holds bare file names, is only changed by finished compilations and is not
touched by `remove`. So it agrees with the broken units of the history under two
conditions on a run: no compilation succeeds while another unit with the same
file name is broken (`NoMasking`), and no broken unit is removed
(`NoBrokenRemoval`). Under the first the set covers every broken unit, under the
second every name in it comes from one.
-/

namespace JetLive

open Containers EventTrace

/-- A compilation that succeeds does not do so while another unit with the same file
name is broken. -/
def Unmasking (_ : Compiler) : Event → CompilerTrace → Prop
  | .compileFinished _ status p _, t =>
      status = 0 →
        ∀ q ∈ (history t).broken, TeenyPath.filenameOf q = TeenyPath.filenameOf p → q = p
  | _, _ => True

def RemovesSound (_ : Compiler) : Event → CompilerTrace → Prop
  | .remove p, t => p ∉ (history t).broken
  | _, _ => True

instance (c : Compiler) (e : Event) (t : CompilerTrace) : Decidable (Unmasking c e t) := by
  unfold Unmasking
  split <;> infer_instance

instance (c : Compiler) (e : Event) (t : CompilerTrace) : Decidable (RemovesSound c e t) := by
  unfold RemovesSound
  split <;> infer_instance

abbrev NoMasking (t : CompilerTrace) : Prop := Always Unmasking t

abbrev NoBrokenRemoval (t : CompilerTrace) : Prop := Always RemovesSound t

/-- Every broken unit has its file name in the set of failed files. -/
def FailedCovers (c : Compiler) (h : History) : Prop :=
  ∀ p ∈ h.broken, TeenyPath.filenameOf p ∈ c.failedCompilationUnits

/-- Every name in the set of failed files is that of a broken unit. -/
def FailedJustified (c : Compiler) (h : History) : Prop :=
  ∀ f ∈ c.failedCompilationUnits, ∃ p ∈ h.broken, TeenyPath.filenameOf p = f

/-- The steps on the set of failed files and the broken units: nothing happens to
either, a unit is removed, or a compilation finishes. -/
inductive FailureStep (c c' : Compiler) (t : CompilerTrace) : CompilerTrace → Prop
  | keep (t' : CompilerTrace) (hfailed : c'.failedCompilationUnits = c.failedCompilationUnits)
      (hbroken : (history t').broken = (history t).broken) (hsuffix : t <:+ t') :
      FailureStep c c' t t'
  | remove (p : String) (hfailed : c'.failedCompilationUnits = c.failedCompilationUnits) :
      FailureStep c c' t ((c, .remove p) :: t)
  | succeed (callback : FinishCallback) (p err : String)
      (hfailed : c'.failedCompilationUnits =
        setErase (TeenyPath.filenameOf p) c.failedCompilationUnits) :
      FailureStep c c' t ((c', .compileFinished callback 0 p err) :: t)
  | fail (callback : FinishCallback) (status : ℤ) (p err : String) (hstatus : status ≠ 0)
      (hfailed : c'.failedCompilationUnits =
        setInsert (TeenyPath.filenameOf p) c.failedCompilationUnits) :
      FailureStep c c' t ((c', .compileFinished callback status p err) :: t)

variable {d : Discipline} {c c' : Compiler} {t t' : CompilerTrace}

theorem Step.failureStep (hstep : Step d (c, t) (c', t')) (hc : Coherent d c (history t)) :
    FailureStep c c' t t' := by
  cases hstep with
  | note _ _ e he =>
      refine .keep _ rfl ?_ (List.suffix_cons _ _)
      rw [history_cons, History.next_of_neutral _ _ he]
  | remove _ _ order p _ => exact .remove p rfl
  | succeed _ _ _ p task err hrun _ hc' =>
      refine .succeed _ _ _ ?_
      rw [hc', hc.running.key p task hrun, ← hc.running.filename p task hrun]
  | fail _ _ _ p task status err hrun hstatus hc' =>
      refine .fail _ _ _ _ hstatus ?_
      rw [hc', hc.running.key p task hrun, ← hc.running.filename p task hrun]
  | report _ _ task status sourceFilePaths err _ _ =>
      refine .keep _ rfl ?_ (List.suffix_cons _ _)
      simp only [history_cons, History.next]
      split <;> rfl
  | reset _ _ _ task status _ _ hc' => exact .keep _ (by rw [hc']) rfl (List.suffix_cons _ _)
  | compile => exact .keep _ rfl rfl (List.suffix_cons _ _)
  | link => exact .keep _ rfl rfl (List.suffix_cons _ _)
  | linkStart => exact .keep _ rfl rfl (List.suffix_cons _ _)
  | refuse => exact .keep _ rfl rfl (List.suffix_cons _ _)
  | _ => exact .keep _ rfl rfl (List.suffix_refl _)

theorem FailedCovers.step (hstep : FailureStep c c' t t')
    (hcovers : NoMasking t → FailedCovers c (history t)) (hmask : NoMasking t') :
    FailedCovers c' (history t') := by
  intro q hq
  cases hstep with
  | keep _ hfailed hbroken hsuffix =>
      rw [hfailed]
      exact hcovers (hmask.of_suffix hsuffix) q (hbroken ▸ hq)
  | remove p hfailed =>
      rw [hfailed]
      exact hcovers hmask.tail q (Finset.mem_of_mem_erase hq)
  | succeed callback p err hfailed =>
      obtain ⟨hne, hq⟩ := Finset.mem_erase.mp hq
      have hsame := ((always_cons _ _ _ _).mp hmask).1 rfl q hq
      rw [hfailed, mem_setErase]
      exact ⟨hcovers hmask.tail q hq, fun heq => hne (hsame heq)⟩
  | fail callback status p err hstatus hfailed =>
      rw [hfailed, mem_setInsert]
      simp only [history_cons, History.next, if_neg hstatus, Finset.mem_insert] at hq
      rcases hq with rfl | hq
      · exact Or.inl rfl
      · exact Or.inr (hcovers hmask.tail q hq)

theorem FailedJustified.step (hstep : FailureStep c c' t t')
    (hjust : NoBrokenRemoval t → FailedJustified c (history t)) (hremove : NoBrokenRemoval t') :
    FailedJustified c' (history t') := by
  intro f hf
  cases hstep with
  | keep _ hfailed hbroken hsuffix =>
      rw [hbroken]
      exact hjust (hremove.of_suffix hsuffix) f (hfailed ▸ hf)
  | remove p hfailed =>
      obtain ⟨q, hq, hname⟩ := hjust hremove.tail f (hfailed ▸ hf)
      have hp : p ∉ (history t).broken := ((always_cons _ _ _ _).mp hremove).1
      refine ⟨q, Finset.mem_erase.mpr ⟨?_, hq⟩, hname⟩
      exact fun heq => hp (heq ▸ hq)
  | succeed callback p err hfailed =>
      obtain ⟨hf, hne⟩ := (mem_setErase _ _ _).mp (hfailed ▸ hf)
      obtain ⟨q, hq, hname⟩ := hjust hremove.tail f hf
      refine ⟨q, Finset.mem_erase.mpr ⟨?_, hq⟩, hname⟩
      rintro rfl
      exact hne hname.symm
  | fail callback status p err hstatus hfailed =>
      simp only [history_cons, History.next, if_neg hstatus, Finset.mem_insert]
      rcases (mem_setInsert _ _ _).mp (hfailed ▸ hf) with rfl | hf
      · exact ⟨p, Or.inl rfl, rfl⟩
      · obtain ⟨q, hq, hname⟩ := hjust hremove.tail f hf
        exact ⟨q, Or.inr hq, hname⟩

namespace Reached

theorem failedCovers (h : Reached d c t) (hmask : NoMasking t) : FailedCovers c (history t) := by
  have hboth : Coherent d c (history t) ∧ (NoMasking t → FailedCovers c (history t)) := by
    refine h.invariant (I := fun c t => Coherent d c (history t) ∧
      (NoMasking t → FailedCovers c (history t))) ⟨Coherent.initial d, by simp [FailedCovers]⟩ ?_
    rintro c t c' t' hstep ⟨hc, hcovers⟩
    exact ⟨hc.step hstep, FailedCovers.step (hstep.failureStep hc) hcovers⟩
  exact hboth.2 hmask

theorem failedJustified (h : Reached d c t) (hremove : NoBrokenRemoval t) :
    FailedJustified c (history t) := by
  have hboth : Coherent d c (history t) ∧
      (NoBrokenRemoval t → FailedJustified c (history t)) := by
    refine h.invariant (I := fun c t => Coherent d c (history t) ∧
      (NoBrokenRemoval t → FailedJustified c (history t)))
      ⟨Coherent.initial d, by simp [FailedJustified]⟩ ?_
    rintro c t c' t' hstep ⟨hc, hjust⟩
    exact ⟨hc.step hstep, FailedJustified.step (hstep.failureStep hc) hjust⟩
  exact hboth.2 hremove

end Reached

/-- A link process is only started while no unit is broken. -/
def LinksUnbroken (_ : Compiler) : Event → CompilerTrace → Prop
  | .linkStarted _, t => (history t).broken = ∅
  | _, _ => True

def RefusesBroken (_ : Compiler) : Event → CompilerTrace → Prop
  | .linkRefused _, t => (history t).broken ≠ ∅
  | _, _ => True

instance (c : Compiler) (e : Event) (t : CompilerTrace) : Decidable (LinksUnbroken c e t) := by
  unfold LinksUnbroken
  split <;> infer_instance

instance (c : Compiler) (e : Event) (t : CompilerTrace) : Decidable (RefusesBroken c e t) := by
  unfold RefusesBroken
  split <;> infer_instance

namespace Reached

theorem linksUnbroken (h : Reached d c t) (hmask : NoMasking t) : Always LinksUnbroken t := by
  have halways : Always (fun c e t => NoMasking t → LinksUnbroken c e t) t := by
    refine h.always ?_
    intro c t c₀ e hreached hemits hmask
    cases e with
    | linkStarted process =>
        obtain ⟨rfl, _, _, _, hfailed, _⟩ := hemits
        refine Finset.eq_empty_of_forall_notMem ?_
        intro p hp
        have hmem := hreached.failedCovers hmask p hp
        simp [hfailed] at hmem
    | _ => trivial
  intro c e u hu
  exact halways c e u hu (hmask.of_suffix ((List.suffix_cons _ _).trans hu))

theorem refusesBroken (h : Reached d c t) (hremove : NoBrokenRemoval t) :
    Always RefusesBroken t := by
  have halways : Always (fun c e t => NoBrokenRemoval t → RefusesBroken c e t) t := by
    refine h.always ?_
    intro c t c₀ e hreached hemits hremove
    cases e with
    | linkRefused callback =>
        obtain ⟨rfl, hfailed⟩ := hemits
        obtain ⟨f, hf⟩ := List.exists_mem_of_ne_nil _ hfailed
        obtain ⟨p, hp, _⟩ := hreached.failedJustified hremove f hf
        exact Finset.ne_empty_of_mem hp
    | _ => trivial
  intro c e u hu
  exact halways c e u hu (hremove.of_suffix ((List.suffix_cons _ _).trans hu))

end Reached

def unitX (dir : String) : CompilationUnit where
  sourceFilePath := dir ++ "/x.cpp"
  objFilePath := dir ++ "/x.o"

/-- `a/x.cpp` fails to compile, a link is requested and refused, and after
`a/x.cpp` has compiled the next link goes ahead. -/
def repairedRun : Session Unit :=
  .after (Call.compileOne (unitX "/p/a") 1 ++ [.link none, .update (.finished "" 0),
    .compile (unitX "/p/a") .nothing, .link none, .update (.finished "" 0),
    .update (.finished "/p/a/x.cpp" 0)])

/-- As long as no success masks a failure, no link goes ahead over a broken file. -/
theorem Run.links_unbroken {W : Type*} {host : Host W} {s : Session W} {config : LiveConfig}
    (h : Run host (.free config) s) (hmask : NoMasking s.trace) : Always LinksUnbroken s.trace :=
  h.reached.linksUnbroken hmask

theorem repairedRun_links_unbroken :
    NoMasking repairedRun.trace ∧ Always LinksUnbroken repairedRun.trace := by
  have hmask : NoMasking repairedRun.trace := by decide +kernel
  exact ⟨hmask, Run.links_unbroken (Run.after _) hmask⟩

/-- `a/x.cpp` fails to compile, then a link is requested while `b/x.cpp` compiles. -/
def maskedRun : Session Unit :=
  .after (Call.compileOne (unitX "/p/a") 1 ++ [.compile (unitX "/p/b") .nothing, .link none,
    .update (.finished "" 0), .update (.finished "/p/b/x.cpp" 0)])

/-- The link goes ahead although `a/x.cpp` is broken. -/
theorem maskedRun_links_broken :
    Run Host.idle (.free {}) maskedRun ∧ ¬ Always LinksUnbroken maskedRun.trace :=
  ⟨Run.after _, by decide +kernel⟩

/-- A removed unit is gone until it is compiled again, and as long as no broken unit
is removed, a link is only refused because of a broken unit. -/
theorem Run.removal_complete {W : Type*} {host : Host W} {s : Session W} {config : LiveConfig}
    (h : Run host (.free config) s) :
    (∀ p ∈ (history s.trace).removed, ¬ s.compiler.Holds p) ∧
      (NoBrokenRemoval s.trace → Always RefusesBroken s.trace) :=
  ⟨h.reached.coherent.removed_gone, h.reached.refusesBroken⟩

/-- `a/x.cpp` fails to compile, `y.cpp` compiles and is removed, and then a link is requested. -/
def prunedRun : Session Unit :=
  .after (Call.compileOne (unitX "/p/a") 1 ++ Call.compileOne { sourceFilePath := "/p/y.cpp" } 0 ++
    [.remove .increasing "/p/y.cpp", .link none, .update (.finished "" 0)])

theorem prunedRun_removal_complete :
    ("/p/y.cpp" ∈ (history prunedRun.trace).removed ∧ ¬ prunedRun.compiler.Holds "/p/y.cpp") ∧
      NoBrokenRemoval prunedRun.trace ∧
      prunedRun.trace.any (fun x => x.2 matches .linkRefused _) = true ∧
      Always RefusesBroken prunedRun.trace := by
  have hremoved : "/p/y.cpp" ∈ (history prunedRun.trace).removed := by decide +kernel
  have hremove : NoBrokenRemoval prunedRun.trace := by decide +kernel
  obtain ⟨hgone, hrefuses⟩ := Run.removal_complete (Run.after _ : Run _ _ prunedRun)
  exact ⟨⟨hremoved, hgone _ hremoved⟩, hremove, by decide +kernel, hrefuses hremove⟩

/-- `a/x.cpp` fails to compile and is removed, and then a link is requested. -/
def removedRun : Session Unit :=
  .after (Call.compileOne (unitX "/p/a") 1 ++
    [.remove .increasing "/p/a/x.cpp", .link none, .update (.finished "" 0)])

/-- The link is refused although no unit is broken. -/
theorem removedRun_refuses :
    Run Host.idle (.free {}) removedRun ∧
      ¬ ((∀ p ∈ (history removedRun.trace).removed, ¬ removedRun.compiler.Holds p) ∧
        Always RefusesBroken removedRun.trace) := by
  have hrefuses : ¬ Always RefusesBroken removedRun.trace := by decide +kernel
  exact ⟨Run.after _, fun h => hrefuses h.2⟩

end JetLive

import JetLive.Reload.Copies

/-!
# Hooks that fail

`DobbyHook` may fail for a function. The step then logs an error and goes on, and the new program
joins the loaded ones all the same. The next reload hooks the version of that program, not the
version before it, so a hook that has failed is never made up for. A call of any version of a
function ends at the first version whose hook failed, or else at the newest one.
-/

namespace JetLive

open Redirect Relation

/-- The calls of `DobbyHook` that the loop over the functions makes, with their results. -/
def dobbyCalls (programs : List Program) (status : ℕ → ℤ) : ℕ → List Symbol → List (Hook × ℤ)
  | _, [] => []
  | i, sym :: functions =>
      match oldFunction programs sym.name sym.hash with
      | none => dobbyCalls programs status i functions
      | some old =>
          if old.runtimeAddress = 0 then dobbyCalls programs status i functions
          else ((old.runtimeAddress, sym.runtimeAddress), status i) ::
            dobbyCalls programs status (i + 1) functions

/-- The hooks of the calls that succeed, the most recent one first. -/
def madeHooks (calls : List (Hook × ℤ)) : List Hook :=
  ((calls.filter fun call => call.2 = 0).map Prod.fst).reverse

def lostHooks (calls : List (Hook × ℤ)) : List Hook :=
  (calls.filter fun call => call.2 ≠ 0).map Prod.fst

variable {programs : List Program} {status : ℕ → ℤ}

theorem foldl_hookFunction_eq (functions : List Symbol) (s : HookState) :
    (functions.foldl (hookFunction programs status) s).hooks =
      madeHooks (dobbyCalls programs status s.index functions) ++ s.hooks := by
  induction functions generalizing s with
  | nil => rfl
  | cons f functions ih =>
      rw [List.foldl_cons, ih, dobbyCalls, hookFunction]
      cases oldFunction programs f.name f.hash with
      | none => rfl
      | some old =>
          by_cases hnull : old.runtimeAddress = 0#64
          · simp [hnull]
          · by_cases hstatus : status s.index = 0
            · simp [hnull, hstatus, madeHooks]
            · simp [hnull, hstatus, madeHooks]

theorem map_fst_dobbyCalls {functions : List Symbol} (hold : ∀ f ∈ functions,
      oldFunction programs f.name f.hash = newestVersion programs f.key ∧
        ∀ old, newestVersion programs f.key = some old → old.runtimeAddress ≠ 0) (i : ℕ) :
    (dobbyCalls programs status i functions).map Prod.fst =
      (newHooks programs functions).reverse := by
  induction functions generalizing i with
  | nil => rfl
  | cons f functions ih =>
      obtain ⟨⟨hf, hnull⟩, hrest⟩ := List.forall_mem_cons.mp hold
      rw [dobbyCalls, hf]
      cases hnewest : newestVersion programs f.key with
      | none => simp [newHooks, hnewest, ih hrest]
      | some old =>
          have hne : ¬ old.runtimeAddress = 0#64 := hnull old hnewest
          simp [newHooks, hnewest, hne, ih hrest]

section Calls

variable {calls : List (Hook × ℤ)} {e : Hook}

theorem mem_madeHooks : e ∈ madeHooks calls ↔ (e, 0) ∈ calls := by
  simp [madeHooks]

theorem mem_lostHooks : e ∈ lostHooks calls ↔ ∃ status ≠ 0, (e, status) ∈ calls := by
  simp [lostHooks, and_comm]

theorem made_or_lost (h : e ∈ calls.map Prod.fst) : e ∈ madeHooks calls ∨ e ∈ lostHooks calls := by
  obtain ⟨call, hcall, rfl⟩ := List.mem_map.mp h
  by_cases hstatus : call.2 = 0
  · exact Or.inl (mem_madeHooks.mpr (hstatus ▸ hcall))
  · exact Or.inr (mem_lostHooks.mpr ⟨call.2, hstatus, hcall⟩)

theorem mem_of_made (h : e ∈ madeHooks calls) : e ∈ calls.map Prod.fst :=
  List.mem_map.mpr ⟨_, mem_madeHooks.mp h, rfl⟩

theorem mem_of_lost (h : e ∈ lostHooks calls) : e ∈ calls.map Prod.fst := by
  obtain ⟨status, _, hmem⟩ := mem_lostHooks.mp h
  exact List.mem_map.mpr ⟨_, hmem, rfl⟩

theorem madeHooks_nodup (h : ((calls.map Prod.fst).map Prod.fst).Nodup) :
    ((madeHooks calls).map Prod.fst).Nodup := by
  rw [madeHooks, List.map_reverse, List.nodup_reverse]
  exact h.sublist ((List.filter_sublist.map Prod.fst).map Prod.fst)

/-- No function is both hooked and not. -/
theorem made_ne_lost (h : ((calls.map Prod.fst).map Prod.fst).Nodup) {e' : Hook}
    (he : e ∈ madeHooks calls) (he' : e' ∈ lostHooks calls) : e.1 ≠ e'.1 := by
  intro heq
  obtain ⟨status, hstatus, hmem⟩ := mem_lostHooks.mp he'
  rw [List.map_map] at h
  have hsame := List.inj_on_of_nodup_map h (mem_madeHooks.mp he) hmem heq
  exact hstatus (Prod.mk.inj hsame).2.symm

end Calls

namespace Image

def hookCalls (p : Image) (r : PipelineInput) : List (Hook × ℤ) :=
  dobbyCalls p.programs r.hookStatus 0 r.newProgram.symbols.functions

end Image

/-- The images reached from the given programs by reloads, with arbitrary writes of the live code
in between, and the hooks that have failed on the way. -/
inductive Image.ReloadedFrom (programs : List Program) : Image → List Hook → Prop
  | start (memory : ProcessMemory) : ReloadedFrom programs { programs, memory } []
  | write {p : Image} {lost : List Hook} (h : ReloadedFrom programs p lost)
      (memory : ProcessMemory) : ReloadedFrom programs { p with memory } lost
  | reload {p : Image} {lost : List Hook} (h : ReloadedFrom programs p lost) (r : PipelineInput) :
      ReloadedFrom programs (p.reload r) (lostHooks (p.hookCalls r) ++ lost)

namespace Image

variable {p : Image} {r : PipelineInput} {lost : List Hook} {k : Key}

theorem hooks_reload_eq (p : Image) (r : PipelineInput) :
    (p.reload r).hooks = madeHooks (p.hookCalls r) ++ p.hooks :=
  foldl_hookFunction_eq _ { hooks := p.hooks }

theorem map_fst_hookCalls (hp : Hookable (p.reload r).programs) :
    (p.hookCalls r).map Prod.fst =
      (newHooks p.programs r.newProgram.symbols.functions).reverse := by
  refine map_fst_dobbyCalls ?_ 0
  intro f hf
  refine ⟨Hookable.oldFunction_eq hp hf, ?_⟩
  intro old hold
  exact (Hookable.of_append hp).address_ne_null old (mem_of_newestVersion hold).1

theorem mem_hookCalls (hp : Hookable (p.reload r).programs) {e : Hook} :
    e ∈ (p.hookCalls r).map Prod.fst ↔ ∃ f ∈ r.newProgram.symbols.functions, ∃ old,
      newestVersion p.programs f.key = some old ∧ (old.runtimeAddress, f.runtimeAddress) = e := by
  rw [map_fst_hookCalls hp, List.mem_reverse, mem_newHooks]

theorem hookCalls_nodup (hp : Hookable (p.reload r).programs) :
    (((p.hookCalls r).map Prod.fst).map Prod.fst).Nodup := by
  rw [map_fst_hookCalls hp, List.map_reverse, List.nodup_reverse]
  exact newHooks_reload_nodup hp

/-- Only loaded functions were to be hooked, and not the newest version of any. -/
structure LostOk (p : Image) (lost : List Hook) : Prop where
  source_mem : ∀ e ∈ p.hooks ++ lost, ∃ f ∈ functionsOf p.programs, f.runtimeAddress = e.1
  newest_free : ∀ k g, newestVersion p.programs k = some g →
    ∀ e ∈ p.hooks ++ lost, e.1 ≠ g.runtimeAddress

theorem LostOk.start (programs : List Program) (memory : ProcessMemory) :
    LostOk { programs, memory } [] :=
  ⟨by simp, by simp⟩

/-- A hook that a reload is to make leads from the newest version of a function so far. -/
theorem newest_of_mem_reload (hp : Hookable (p.reload r).programs) {e : Hook}
    (he : e ∈ madeHooks (p.hookCalls r) ∨ e ∈ lostHooks (p.hookCalls r)) :
    ∃ f ∈ r.newProgram.symbols.functions, ∃ old, newestVersion p.programs f.key = some old ∧
      (old.runtimeAddress, f.runtimeAddress) = e :=
  (mem_hookCalls hp).mp (he.elim mem_of_made mem_of_lost)

theorem mem_hooks_reload {e : Hook} :
    e ∈ (p.reload r).hooks ++ (lostHooks (p.hookCalls r) ++ lost) ↔
      (e ∈ madeHooks (p.hookCalls r) ∨ e ∈ lostHooks (p.hookCalls r)) ∨ e ∈ p.hooks ++ lost := by
  simp only [hooks_reload_eq, List.mem_append]
  tauto

theorem LostOk.reload (h : p.LostOk lost) (hp : Hookable (p.reload r).programs) :
    (p.reload r).LostOk (lostHooks (p.hookCalls r) ++ lost) := by
  have hp' : Hookable p.programs := Hookable.of_append hp
  have hsource : ∀ e ∈ (p.reload r).hooks ++ (lostHooks (p.hookCalls r) ++ lost),
      ∃ f ∈ functionsOf p.programs, f.runtimeAddress = e.1 := by
    intro e he
    rcases mem_hooks_reload.mp he with he | he
    · obtain ⟨f, _, old, hold, rfl⟩ := newest_of_mem_reload hp he
      exact ⟨old, (mem_of_newestVersion hold).1, rfl⟩
    · exact h.source_mem e he
  refine ⟨?_, ?_⟩
  · intro e he
    obtain ⟨f, hf, heq⟩ := hsource e he
    exact ⟨f, mem_functionsOf_append.mpr (.inl hf), heq⟩
  · intro k g hg e he heq
    by_cases hk : ∃ f ∈ r.newProgram.symbols.functions, f.key = k
    · -- the newest version is a new function
      obtain ⟨f, hf, rfl⟩ := hk
      obtain rfl := Option.some.inj ((Hookable.newestVersion_new hp hf).symm.trans hg)
      obtain ⟨g', hg', heq'⟩ := hsource e he
      exact Hookable.address_ne hp hg' hf (heq'.trans heq)
    · have hne : ∀ f ∈ r.newProgram.symbols.functions, f.key ≠ k :=
        fun f hf heq => hk ⟨f, hf, heq⟩
      rw [newestVersion_reload_of_forall_ne hne] at hg
      rcases mem_hooks_reload.mp he with he | he
      · obtain ⟨f, hf, old, hold, rfl⟩ := newest_of_mem_reload hp he
        obtain ⟨hmem, hkey⟩ := mem_of_newestVersion hg
        obtain ⟨hmem', hkey'⟩ := mem_of_newestVersion hold
        refine hne f hf ?_
        rw [← hkey', hp'.eq_of_address hmem' hmem heq, hkey]
      · exact h.newest_free k g hg e he heq

/-! ## Where a call ends -/

/-- A call of the version `f` in the first of the programs `later` ends at its newest version, and
no hook of a version since then has failed; or it ends at a version whose hook has failed. -/
def Settled (p : Image) (lost : List Hook) (later : List Program) (f : Symbol) : Prop :=
  (∃ g, newestVersion p.programs f.key = some g ∧ Ends p.hooks f.runtimeAddress g.runtimeAddress ∧
    ∀ v ∈ functionsOf later, v.key = f.key → v.runtimeAddress ∉ lost.map Prod.fst) ∨
  ∃ v ∈ functionsOf later, v.key = f.key ∧ Ends p.hooks f.runtimeAddress v.runtimeAddress ∧
    v.runtimeAddress ∈ lost.map Prod.fst

/-- A chain goes on only where a hook was made. -/
theorem LostOk.ends_reload (h : p.LostOk lost) (hp : Hookable (p.reload r).programs)
    {a b : Address} (hends : Ends p.hooks a b) :
    Ends (p.reload r).hooks a ((target (madeHooks (p.hookCalls r)) b).getD b) := by
  have hok := h.reload hp
  rw [hooks_reload_eq]
  refine hends.append _ ?_ ?_
  · intro e he
    obtain ⟨f, _, old, hold, rfl⟩ := newest_of_mem_reload hp (Or.inl he)
    rw [target_eq_none_iff]
    intro hmem
    obtain ⟨e', he', heq⟩ := List.mem_map.mp hmem
    exact h.newest_free _ old hold e' (List.mem_append_left _ he') heq
  · intro e he
    obtain ⟨f, hf, old, _, rfl⟩ := newest_of_mem_reload hp (Or.inl he)
    rw [← hooks_reload_eq, target_eq_none_iff]
    intro hmem
    obtain ⟨e', he', heq⟩ := List.mem_map.mp hmem
    exact hok.newest_free _ f (Hookable.newestVersion_new hp hf) e'
      (List.mem_append_left _ he') heq

/-- Nothing is to be hooked at the address of a function that is not the newest version, or that
the new program does not have. -/
theorem not_mem_hookCalls (hp : Hookable (p.reload r).programs) {v : Symbol}
    (hv : v ∈ functionsOf p.programs)
    (hnot : newestVersion p.programs v.key ≠ some v ∨
      ∀ f ∈ r.newProgram.symbols.functions, f.key ≠ v.key) :
    v.runtimeAddress ∉ ((p.hookCalls r).map Prod.fst).map Prod.fst := by
  intro hmem
  obtain ⟨e, he, heq⟩ := List.mem_map.mp hmem
  obtain ⟨f, hf, old, hold, rfl⟩ := (mem_hookCalls hp).mp he
  obtain ⟨hold', hkey⟩ := mem_of_newestVersion hold
  obtain rfl := (Hookable.of_append hp).eq_of_address hold' hv heq
  rcases hnot with hnot | hnot
  · exact hnot (hkey ▸ hold)
  · exact hnot f hf hkey.symm

/-- A chain stays where it ended if nothing is to be hooked there. -/
theorem LostOk.ends_reload_of_not_mem (h : p.LostOk lost) (hp : Hookable (p.reload r).programs)
    {a b : Address} (hends : Ends p.hooks a b)
    (hnot : b ∉ ((p.hookCalls r).map Prod.fst).map Prod.fst) : Ends (p.reload r).hooks a b := by
  have htarget : target (madeHooks (p.hookCalls r)) b = none := by
    rw [target_eq_none_iff]
    intro hmem
    obtain ⟨e, he, rfl⟩ := List.mem_map.mp hmem
    exact hnot (List.mem_map_of_mem (mem_of_made he))
  simpa [htarget] using h.ends_reload hp hends

/-- A version whose hook has failed is never hooked again. -/
theorem LostOk.ends_reload_of_lost (h : p.LostOk lost) (hp : Hookable (p.reload r).programs)
    {a : Address} {v : Symbol} (hv : v ∈ functionsOf p.programs)
    (hlost : v.runtimeAddress ∈ lost.map Prod.fst) (hends : Ends p.hooks a v.runtimeAddress) :
    Ends (p.reload r).hooks a v.runtimeAddress := by
  refine h.ends_reload_of_not_mem hp hends (not_mem_hookCalls hp hv (Or.inl ?_))
  intro hnewest
  obtain ⟨e, he, heq⟩ := List.mem_map.mp hlost
  exact h.newest_free _ v hnewest e (List.mem_append_right _ he) heq

/-- The newest version is in the part of the programs that has a version at all. -/
theorem newestVersion_mem_later {programs later : List Program} {f g : Symbol}
    (hf : f ∈ functionsOf later) (hg : newestVersion (programs ++ later) f.key = some g) :
    g ∈ functionsOf later := by
  obtain ⟨g', hg'⟩ := exists_newestVersion hf
  rw [newestVersion_append_programs, hg'] at hg
  obtain rfl : g' = g := by simpa using hg
  exact (mem_of_newestVersion hg').1

/-- No hook of a version has failed in the reload, if the one to the new version was made or if
there is no new version. -/
theorem not_mem_lostHooks (hp : Hookable (p.reload r).programs) {g v : Symbol}
    (hv : v ∈ functionsOf p.programs) (hg : newestVersion p.programs v.key = some g)
    (hmade : g.runtimeAddress ∈ (madeHooks (p.hookCalls r)).map Prod.fst ∨
      ∀ f ∈ r.newProgram.symbols.functions, f.key ≠ v.key) :
    v.runtimeAddress ∉ (lostHooks (p.hookCalls r)).map Prod.fst := by
  intro hmem
  obtain ⟨e, he, heq⟩ := List.mem_map.mp hmem
  have hcall : v.runtimeAddress ∈ ((p.hookCalls r).map Prod.fst).map Prod.fst :=
    heq ▸ List.mem_map_of_mem (mem_of_lost he)
  have hnewest : v = g := by
    by_contra hne
    refine not_mem_hookCalls hp hv (Or.inl fun hnewest => hne ?_) hcall
    exact Option.some.inj (hnewest.symm.trans hg)
  rcases hmade with hmade | hnone
  · obtain ⟨e', he', heq'⟩ := List.mem_map.mp hmade
    exact made_ne_lost (hookCalls_nodup hp) he' he (heq'.trans (hnewest ▸ heq.symm))
  · exact not_mem_hookCalls hp hv (Or.inr hnone) hcall

theorem Settled.reload (hok : p.LostOk lost) (hp : Hookable (p.reload r).programs)
    {earlier later : List Program} (hprograms : p.programs = earlier ++ later) {f : Symbol}
    (hf : f ∈ functionsOf later) (h : p.Settled lost later f) :
    (p.reload r).Settled (lostHooks (p.hookCalls r) ++ lost) (later ++ [p.loaded r]) f := by
  have hloaded : ∀ v ∈ functionsOf later, v ∈ functionsOf p.programs := by
    intro v hv
    rw [hprograms, functionsOf, List.flatMap_append]
    exact List.mem_append_right _ hv
  rcases h with ⟨g, hg, hends, hfree⟩ | ⟨v, hv, hkey, hends, hlost⟩
  · have hends' := hok.ends_reload hp hends
    have hg' : g ∈ functionsOf later := newestVersion_mem_later hf (hprograms ▸ hg)
    by_cases hnew : ∃ f' ∈ r.newProgram.symbols.functions, f'.key = f.key
    · obtain ⟨f', hf', hkey⟩ := hnew
      have hcall : (g.runtimeAddress, f'.runtimeAddress) ∈ (p.hookCalls r).map Prod.fst :=
        (mem_hookCalls hp).mpr ⟨f', hf', g, hkey ▸ hg, rfl⟩
      rcases made_or_lost hcall with hmade | hfailed
      · -- the chain goes on to the new version
        rw [target_eq_some_of_mem (madeHooks_nodup (hookCalls_nodup hp)) hmade] at hends'
        refine Or.inl ⟨f', hkey ▸ Hookable.newestVersion_new hp hf', hends', ?_⟩
        intro v hv hvkey
        rcases mem_functionsOf_append.mp hv with hv | hv
        · rw [List.map_append, List.mem_append, not_or]
          refine ⟨not_mem_lostHooks hp (hloaded v hv) (hvkey ▸ hg) (Or.inl ?_), hfree v hv hvkey⟩
          exact List.mem_map_of_mem hmade
        · intro hmem
          obtain ⟨e, he, heq⟩ := List.mem_map.mp hmem
          exact (hok.reload hp).newest_free _ v (Hookable.newestVersion_new hp hv) e
            (List.mem_append_right _ he) heq
      · -- the chain stays where it ended
        have htarget : target (madeHooks (p.hookCalls r)) g.runtimeAddress = none := by
          rw [target_eq_none_iff]
          intro hmem
          obtain ⟨e, he, heq⟩ := List.mem_map.mp hmem
          exact made_ne_lost (hookCalls_nodup hp) he hfailed heq
        rw [htarget] at hends'
        refine Or.inr ⟨g, mem_functionsOf_append.mpr (.inl hg'), (mem_of_newestVersion hg).2,
          hends', ?_⟩
        exact List.mem_map_of_mem (List.mem_append_left _ hfailed)
    · have hne : ∀ f' ∈ r.newProgram.symbols.functions, f'.key ≠ f.key :=
        fun f' hf' heq => hnew ⟨f', hf', heq⟩
      refine Or.inl ⟨g, (newestVersion_reload_of_forall_ne hne).trans hg, ?_, ?_⟩
      · refine hok.ends_reload_of_not_mem hp hends (not_mem_hookCalls hp (hloaded g hg') ?_)
        exact Or.inr ((mem_of_newestVersion hg).2 ▸ hne)
      · intro v hv hvkey
        rcases mem_functionsOf_append.mp hv with hv | hv
        · rw [List.map_append, List.mem_append, not_or]
          exact ⟨not_mem_lostHooks hp (hloaded v hv) (hvkey ▸ hg) (Or.inr (hvkey ▸ hne)),
            hfree v hv hvkey⟩
        · exact absurd hvkey (hne v hv)
  · refine Or.inr ⟨v, mem_functionsOf_append.mpr (.inl hv), hkey,
      hok.ends_reload_of_lost hp (hloaded v hv) hlost hends, ?_⟩
    rw [List.map_append]
    exact List.mem_append_right _ hlost

namespace ReloadedFrom

variable {programs : List Program}

theorem lostOk (h : ReloadedFrom programs p lost) (hp : Hookable p.programs) : p.LostOk lost := by
  induction h with
  | start memory => exact .start programs memory
  | write _ memory ih => exact ⟨(ih hp).source_mem, (ih hp).newest_free⟩
  | reload _ r ih => exact (ih (Hookable.of_append hp)).reload hp

theorem settled (h : ReloadedFrom programs p lost) (hp : Hookable p.programs)
    (hk : SingleVersion programs k) {earlier later : List Program} {prog : Program}
    (hprograms : p.programs = earlier ++ prog :: later) {f : Symbol}
    (hf : f ∈ prog.symbols.functions) (hkey : f.key = k) : p.Settled lost (prog :: later) f := by
  induction h generalizing later with
  | start memory =>
      have hmem : f ∈ functionsOf programs := by
        rw [mem_functionsOf, show programs = earlier ++ prog :: later from hprograms]
        exact ⟨prog, by simp, hf⟩
      have hchained : Chained { programs, memory } k := chained_start hp hk
      obtain ⟨g, hg, hends⟩ := hchained f hmem hkey
      exact Or.inl ⟨g, hkey ▸ hg, hends, by simp⟩
  | write _ memory ih => exact ih hp hprograms
  | @reload p lost h r ih =>
      have hp' : Hookable p.programs := Hookable.of_append hp
      rw [programs_reload] at hprograms
      rcases List.eq_nil_or_concat later with rfl | ⟨later, last, rfl⟩
      · -- the function is a new one
        obtain ⟨-, hlast⟩ := List.append_inj' hprograms rfl
        obtain rfl : p.loaded r = prog := List.singleton_inj.mp hlast
        have hnewest := Hookable.newestVersion_new hp hf
        have hok := (h.lostOk hp').reload hp
        refine Or.inl ⟨f, hnewest, ⟨.refl, ?_⟩, ?_⟩
        · rw [target_eq_none_iff]
          intro hmem
          obtain ⟨e, he, heq⟩ := List.mem_map.mp hmem
          exact hok.newest_free _ f hnewest e (List.mem_append_left _ he) heq
        · intro v hv _ hmem
          obtain ⟨e, he, heq⟩ := List.mem_map.mp hmem
          have hv' : v ∈ (p.loaded r).symbols.functions := by simpa [functionsOf] using hv
          exact hok.newest_free _ v (Hookable.newestVersion_new hp hv') e
            (List.mem_append_right _ he) heq
      · have hconcat : p.programs ++ [p.loaded r] = (earlier ++ prog :: later) ++ [last] := by
          simpa using hprograms
        obtain ⟨hbefore, hlast⟩ := List.append_inj' hconcat rfl
        obtain rfl : p.loaded r = last := List.singleton_inj.mp hlast
        have hmem : f ∈ functionsOf (prog :: later) := mem_functionsOf.mpr ⟨prog, by simp, hf⟩
        simpa using (ih hp' hbefore).reload (h.lostOk hp') hp hbefore hmem

/-- **Where calls end**: after any reloads, with any results of `DobbyHook`, a call of a version of
a function ends at its newest version if and only if the hook of no version since then has failed.
Otherwise it ends at one of those whose hook has failed, and it does so after every later reload
too. -/
theorem reaches_newest_iff (h : ReloadedFrom programs p lost) (hp : Hookable p.programs)
    (hk : SingleVersion programs k) {earlier later : List Program} {prog : Program}
    (hprograms : p.programs = earlier ++ prog :: later) {f g : Symbol}
    (hf : f ∈ prog.symbols.functions) (hkey : f.key = k)
    (hg : newestVersion p.programs k = some g) :
    (Ends p.hooks f.runtimeAddress g.runtimeAddress ↔
      ∀ v ∈ functionsOf (prog :: later), v.key = k → v.runtimeAddress ∉ lost.map Prod.fst) ∧
    (¬ Ends p.hooks f.runtimeAddress g.runtimeAddress →
      ∃ v ∈ functionsOf (prog :: later), v.key = k ∧ v.runtimeAddress ∈ lost.map Prod.fst ∧
        Ends p.hooks f.runtimeAddress v.runtimeAddress ∧
        ∀ r, Hookable (p.reload r).programs →
          Ends (p.reload r).hooks f.runtimeAddress v.runtimeAddress) := by
  have hok := h.lostOk hp
  subst hkey
  rcases h.settled hp hk hprograms hf rfl with
    ⟨g', hg', hends, hfree⟩ | ⟨v, hv, hvkey, hends, hlost⟩
  · obtain rfl := Option.some.inj (hg.symm.trans hg')
    exact ⟨⟨fun _ => hfree, fun _ => hends⟩, fun hnot => absurd hends hnot⟩
  · -- the newest version was never to be hooked, so the chain ends elsewhere
    have hnot : ¬ Ends p.hooks f.runtimeAddress g.runtimeAddress := by
      intro hnewest
      obtain ⟨e, he, heq⟩ := List.mem_map.mp hlost
      exact hok.newest_free _ g hg e (List.mem_append_right _ he)
        (heq.trans (hends.unique hnewest))
    have hv' : v ∈ functionsOf p.programs := by
      rw [hprograms, functionsOf, List.flatMap_append]
      exact List.mem_append_right _ hv
    refine ⟨⟨fun hnewest => absurd hnewest hnot, fun hfree => absurd hlost (hfree v hv hvkey)⟩, ?_⟩
    intro _
    exact ⟨v, hv, hvkey, hlost, hends, fun r hr => hok.ends_reload_of_lost hr hv' hlost hends⟩

end ReloadedFrom

end Image

end JetLive

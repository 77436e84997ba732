import JetLive.Reload.Hooks
import JetLive.Reload.StaticState

/-!
# The reload pipeline

A reload runs its three steps one after the other on the new program, and the new
program then joins the loaded ones. `Image` is what the steps work on. Over a whole
run of reloads the hooks form chains: following them from any version of a function
ends at its newest version.
-/

namespace JetLive

open Redirect Relation

/-- What the steps of a reload read and change of the live process. -/
structure Image where
  programs : List Program := []
  memory : ProcessMemory
  hooks : List Hook := []

/-- What one reload brings, with the results of `DobbyHook`. -/
structure PipelineInput extends ReloadInput where
  hookStatus : ℕ → ℤ

namespace Image

variable (p : Image) (r : PipelineInput)

/-- `CodeReloadPipeline::reload` with its three steps: the image, the new program
and the log entries. -/
def pipeline : Image × Program × List LogEntry :=
  let relocationContext : RelocationContext :=
    { arch := r.arch, programs := p.programs, newProgram := r.newProgram, status := r.status }
  let relocated := linkTimeRelocations relocationContext r.relocs p.memory
  let hooked := functionsHooking p.programs relocated.2.1 r.hookStatus p.hooks
  let copied := staticsCopy p.programs relocated.2.1 relocated.1
  ({ p with memory := copied.1, hooks := hooked.1 }, relocated.2.1,
   relocated.2.2 ++ hooked.2 ++ copied.2)

/-- A reload: the pipeline, and the new program joins the loaded ones. -/
def reload : Image :=
  let result := p.pipeline r
  { result.1 with programs := p.programs ++ [result.2.1] }

/-- Programs and memory change as they do without the hooks. -/
theorem reload_eq_staticState {s : StaticState} (hprograms : p.programs = s.programs)
    (hmemory : p.memory = s.memory) :
    (p.reload r).programs = (s.reload r.toReloadInput).programs ∧
      (p.reload r).memory = (s.reload r.toReloadInput).memory := by
  obtain ⟨programs, memory, hooks⟩ := p
  obtain rfl : programs = s.programs := hprograms
  obtain rfl : memory = s.memory := hmemory
  exact ⟨rfl, rfl⟩

def loaded : Program := (p.pipeline r).2.1

theorem programs_reload : (p.reload r).programs = p.programs ++ [p.loaded r] := rfl

end Image

/-- The images reached from the given programs by reloads whose hooks all succeed,
with arbitrary writes of the live code in between. -/
inductive Image.HookedFrom (programs : List Program) : Image → Prop
  | start (memory : ProcessMemory) : HookedFrom programs { programs, memory }
  | write {p : Image} (h : HookedFrom programs p) (memory : ProcessMemory) :
      HookedFrom programs { p with memory }
  | reload {p : Image} (h : HookedFrom programs p) (r : PipelineInput)
      (hr : ∀ i, r.hookStatus i = 0) : HookedFrom programs (p.reload r)

namespace Image

/-- Only loaded functions are hooked, none of them twice, and never the newest version
of a function. -/
structure HooksOk (p : Image) : Prop where
  source_mem : ∀ e ∈ p.hooks, ∃ f ∈ functionsOf p.programs, f.runtimeAddress = e.1
  source_nodup : (p.hooks.map Prod.fst).Nodup
  newest_free : ∀ k g, newestVersion p.programs k = some g →
    target p.hooks g.runtimeAddress = none

/-- From every version of a function the hooks lead to its newest version. -/
def Chained (p : Image) (k : Key) : Prop :=
  ∀ f ∈ functionsOf p.programs, f.key = k → ∃ g, newestVersion p.programs k = some g ∧
    Ends p.hooks f.runtimeAddress g.runtimeAddress

variable {p : Image} {r : PipelineInput} {k : Key}

theorem hooks_reload (hp : Hookable (p.reload r).programs) (hr : ∀ i, r.hookStatus i = 0) :
    (p.reload r).hooks = newHooks p.programs r.newProgram.symbols.functions ++ p.hooks :=
  Hookable.functionsHooking_hooks hp hr p.hooks

theorem newHooks_reload_nodup (hp : Hookable (p.reload r).programs) :
    ((newHooks p.programs r.newProgram.symbols.functions).map Prod.fst).Nodup := by
  refine (Hookable.of_append hp).newHooks_nodup ?_
  exact hp.key_nodup (p.loaded r) (List.mem_append_right _ List.mem_cons_self)

theorem newestVersion_reload_of_forall_ne (h : ∀ f ∈ r.newProgram.symbols.functions, f.key ≠ k) :
    newestVersion (p.reload r).programs k = newestVersion p.programs k := by
  rw [programs_reload]
  exact newestVersion_append_of_forall_ne h

/-- The functions hooked by a reload are loaded ones. -/
theorem source_mem_newHooks {functions : List Symbol} {e : Hook}
    (he : e ∈ newHooks p.programs functions) :
    ∃ f ∈ functionsOf p.programs, f.runtimeAddress = e.1 := by
  obtain ⟨_, _, old, hold, rfl⟩ := mem_newHooks.mp he
  exact ⟨old, (mem_of_newestVersion hold).1, rfl⟩

/-- A new function is not hooked. -/
theorem HooksOk.target_new (h : p.HooksOk) (hp : Hookable (p.reload r).programs) {f : Symbol}
    (hf : f ∈ r.newProgram.symbols.functions) :
    target (newHooks p.programs r.newProgram.symbols.functions ++ p.hooks) f.runtimeAddress =
      none := by
  rw [target_eq_none_iff, List.map_append, List.mem_append]
  have hne : ∀ e : Hook, (∃ g ∈ functionsOf p.programs, g.runtimeAddress = e.1) →
      e.1 ≠ f.runtimeAddress := by
    rintro e ⟨g, hg, heq⟩ heq'
    exact Hookable.address_ne hp hg hf (heq.trans heq')
  rintro (hmem | hmem)
  · obtain ⟨e, he, heq⟩ := List.mem_map.mp hmem
    exact hne e (source_mem_newHooks he) heq
  · obtain ⟨e, he, heq⟩ := List.mem_map.mp hmem
    exact hne e (h.source_mem e he) heq

/-- A function that the new program does not have is not hooked by the reload. -/
theorem target_newHooks_of_forall_ne (hp : Hookable p.programs) {g : Symbol}
    (hg : newestVersion p.programs k = some g) {functions : List Symbol}
    (hk : ∀ f ∈ functions, f.key ≠ k) :
    target (newHooks p.programs functions) g.runtimeAddress = none := by
  rw [target_eq_none_iff]
  intro hmem
  obtain ⟨e, he, heq⟩ := List.mem_map.mp hmem
  obtain ⟨f, hf, old, hold, rfl⟩ := mem_newHooks.mp he
  obtain ⟨hmem, hkey⟩ := mem_of_newestVersion hg
  obtain ⟨hmem', hkey'⟩ := mem_of_newestVersion hold
  refine hk f hf ?_
  rw [← hkey', hp.eq_of_address hmem' hmem heq, hkey]

theorem HooksOk.reload (h : p.HooksOk) (hp : Hookable (p.reload r).programs)
    (hr : ∀ i, r.hookStatus i = 0) : (p.reload r).HooksOk := by
  have hhooks := hooks_reload hp hr
  have hp' : Hookable p.programs := Hookable.of_append hp
  refine ⟨?_, ?_, ?_⟩
  · intro e he
    rw [hhooks, List.mem_append] at he
    obtain ⟨f, hf, heq⟩ := he.elim source_mem_newHooks (h.source_mem e)
    exact ⟨f, mem_functionsOf_append.mpr (.inl hf), heq⟩
  · rw [hhooks, List.map_append, List.nodup_append']
    refine ⟨newHooks_reload_nodup hp, h.source_nodup, ?_⟩
    intro a hnew hold
    obtain ⟨e, he, rfl⟩ := List.mem_map.mp hnew
    obtain ⟨f, _, old, hold', rfl⟩ := mem_newHooks.mp he
    exact target_eq_none_iff.mp (h.newest_free _ old hold') hold
  · intro k g hg
    rw [hhooks]
    by_cases hk : ∃ f ∈ r.newProgram.symbols.functions, f.key = k
    · obtain ⟨f, hf, rfl⟩ := hk
      obtain rfl := Option.some.inj ((Hookable.newestVersion_new hp hf).symm.trans hg)
      exact h.target_new hp hf
    · have hne : ∀ f ∈ r.newProgram.symbols.functions, f.key ≠ k :=
        fun f hf heq => hk ⟨f, hf, heq⟩
      rw [newestVersion_reload_of_forall_ne hne] at hg
      rw [target_append, target_newHooks_of_forall_ne hp' hg hne, Option.none_or]
      exact h.newest_free k g hg

theorem Chained.reload (hk : p.Chained k) (h : p.HooksOk) (hp : Hookable (p.reload r).programs)
    (hr : ∀ i, r.hookStatus i = 0) : (p.reload r).Chained k := by
  have hhooks := hooks_reload hp hr
  have hp' : Hookable p.programs := Hookable.of_append hp
  intro f hf hkey
  rw [hhooks]
  rcases mem_functionsOf_append.mp hf with hf | hf
  · obtain ⟨g, hg, hends⟩ := hk f hf hkey
    have hends' := hends.append (newHooks p.programs r.newProgram.symbols.functions)
      (fun e he => by
        obtain ⟨_, _, old, hold, rfl⟩ := mem_newHooks.mp he
        exact h.newest_free _ old hold)
      (fun e he => by
        obtain ⟨f', hf', _, _, rfl⟩ := mem_newHooks.mp he
        exact h.target_new hp hf')
    by_cases hnew : ∃ f' ∈ r.newProgram.symbols.functions, f'.key = k
    · obtain ⟨f', hf', rfl⟩ := hnew
      refine ⟨f', Hookable.newestVersion_new hp hf', ?_⟩
      have htarget : target (newHooks p.programs r.newProgram.symbols.functions)
          g.runtimeAddress = some f'.runtimeAddress :=
        target_eq_some_of_mem (newHooks_reload_nodup hp) (mem_newHooks.mpr ⟨f', hf', g, hg, rfl⟩)
      rw [htarget] at hends'
      exact hends'
    · have hne : ∀ f' ∈ r.newProgram.symbols.functions, f'.key ≠ k :=
        fun f' hf' heq => hnew ⟨f', hf', heq⟩
      refine ⟨g, (newestVersion_reload_of_forall_ne hne).trans hg, ?_⟩
      rw [target_newHooks_of_forall_ne hp' hg hne] at hends'
      exact hends'
  · subst hkey
    exact ⟨f, Hookable.newestVersion_new hp hf, .refl, h.target_new hp hf⟩

/-- The given programs have at most one version of a function. -/
def SingleVersion (programs : List Program) (k : Key) : Prop :=
  (programs.filter fun prog => k ∈ prog.symbols.functions.map Symbol.key).length ≤ 1

instance (programs : List Program) (k : Key) : Decidable (SingleVersion programs k) :=
  inferInstanceAs (Decidable (_ ≤ _))

theorem chained_start {programs : List Program} {memory : ProcessMemory}
    (hp : Hookable programs) (hk : SingleVersion programs k) :
    Chained { programs, memory } k := by
  intro f hf hkey
  subst hkey
  obtain ⟨g, hg⟩ := exists_newestVersion hf
  obtain ⟨hg', hkey⟩ := mem_of_newestVersion hg
  obtain ⟨prog, hprog, hf⟩ := mem_functionsOf.mp hf
  obtain ⟨prog', hprog', hg'⟩ := mem_functionsOf.mp hg'
  have hmem : ∀ {q : Program} {f' : Symbol}, q ∈ programs → f' ∈ q.symbols.functions →
      f'.key = f.key →
      q ∈ programs.filter fun prog => f.key ∈ prog.symbols.functions.map Symbol.key := by
    intro q f' hq hf' hkey'
    rw [List.mem_filter, decide_eq_true_iff]
    exact ⟨hq, List.mem_map.mpr ⟨f', hf', hkey'⟩⟩
  obtain rfl : prog = prog' := by
    obtain ⟨q, hq⟩ := List.length_eq_one_iff.mp
      (le_antisymm hk (List.length_pos_of_mem (hmem hprog hf rfl)))
    have h := hmem hprog hf rfl
    have h' := hmem hprog' hg' hkey
    rw [hq, List.mem_singleton] at h h'
    rw [h, h']
  obtain rfl := hp.eq_of_key hprog hf hg' hkey.symm
  exact ⟨f, hg, ends_nil _⟩

theorem HookedFrom.hooksOk {programs : List Program} (h : HookedFrom programs p)
    (hp : Hookable p.programs) : p.HooksOk := by
  induction h with
  | start memory => exact ⟨by simp, List.nodup_nil, fun _ _ _ => rfl⟩
  | write _ memory ih =>
      obtain ⟨hmem, hnodup, hfree⟩ := ih hp
      exact ⟨hmem, hnodup, hfree⟩
  | reload _ r hr ih => exact (ih (Hookable.of_append hp)).reload hp hr

theorem HookedFrom.chained {programs : List Program} (h : HookedFrom programs p)
    (hp : Hookable p.programs) (hk : SingleVersion programs k) : p.Chained k := by
  induction h with
  | start memory => exact chained_start hp hk
  | write _ memory ih => exact ih hp
  | reload h r hr ih =>
      have hp' := Hookable.of_append hp
      exact (ih hp').reload (h.hooksOk hp') hp hr

/-- No function is hooked twice, and from any version of a function the hooks lead,
without a cycle, to its version in the most recently loaded program that has one. -/
theorem HookedFrom.hook_chains {programs : List Program} (h : HookedFrom programs p)
    (hp : Hookable p.programs) :
    (p.hooks.map Prod.fst).Nodup ∧
      ∀ k, SingleVersion programs k → ∀ f ∈ functionsOf p.programs, f.key = k →
        ∃ g, newestVersion p.programs k = some g ∧
          Ends p.hooks f.runtimeAddress g.runtimeAddress ∧
          ∀ a, ReflTransGen (Link p.hooks) f.runtimeAddress a →
            ¬ TransGen (Link p.hooks) a a := by
  refine ⟨(h.hooksOk hp).source_nodup, ?_⟩
  intro k hk f hf hkey
  obtain ⟨g, hg, hends⟩ := h.chained hp hk f hf hkey
  exact ⟨g, hg, hends, fun a ha => hends.acyclic ha⟩

end Image

def globalFunction (name : String) (address : Address) : Symbol :=
  { name, runtimeAddress := address }

def functionsInput (functions : List Symbol) : PipelineInput where
  arch := .x86_64
  newProgram := { symbols := { functions } }
  relocs := []
  status _ := 0
  hookStatus _ := 0

/-- Three reloads; the second one has only one of the two functions. -/
def hookedImage : Image :=
  let executable := functionsInput [globalFunction "f" 0x1000, globalFunction "g" 0x1100]
  ((({ programs := [executable.newProgram], memory := fun _ => 0 } : Image).reload
    (functionsInput [globalFunction "f" 0x2000, globalFunction "g" 0x2100])).reload
    (functionsInput [globalFunction "f" 0x3000])).reload
    (functionsInput [globalFunction "g" 0x4000])

theorem hookedImage_chains : (hookedImage.hooks.map Prod.fst).Nodup ∧
    Ends hookedImage.hooks 0x1100 0x4000 := by
  have hrun : Image.HookedFrom _ hookedImage :=
    .reload (.reload (.reload (.start _) _ fun _ => rfl) _ fun _ => rfl) _ fun _ => rfl
  have hp : Hookable hookedImage.programs := by
    constructor <;> decide +kernel
  obtain ⟨hnodup, hchains⟩ := hrun.hook_chains hp
  obtain ⟨g, hg, hends, _⟩ := hchains ("g", 0) (by decide +kernel)
    (globalFunction "g" 0x1100) (by decide +kernel) rfl
  have hnewest : newestVersion hookedImage.programs ("g", 0) =
      some (globalFunction "g" 0x4000) := by
    decide +kernel
  obtain rfl := Option.some.inj (hnewest.symm.trans hg)
  exact ⟨hnodup, hends⟩

end JetLive

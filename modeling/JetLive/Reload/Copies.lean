import JetLive.Reload.Pipeline

/-!
# Copies of a function

The executable and the libraries it was started with may each have a copy of one function, an
inline function for example. A reload hooks the copy of the program that was loaded last, and the
later reloads go on from there, so the other copies are never hooked.

`KeyApart` is what this takes of the functions with one name and hash. The other functions of the
programs may share their names and hashes or their addresses, as the symbols of a constructor do.
-/

namespace JetLive

open Redirect Relation

/-- The functions with the key `k` can be told from the other ones: a program has at most one of
them, they alone are found by their name and hash, and only by each other's, and their addresses are
not null and shared with no other function. -/
structure KeyApart (programs : List Program) (k : Key) : Prop where
  unique : ∀ prog ∈ programs, (prog.symbols.functions.filter fun f => f.key = k).length ≤ 1
  answers_iff : ∀ f ∈ functionsOf programs, ∀ g ∈ functionsOf programs, f.key = k ∨ g.key = k →
    (g.answers f.name f.hash ↔ g.key = f.key)
  address_nodup :
    (((functionsOf programs).filter fun f => f.key = k).map Symbol.runtimeAddress).Nodup
  key_of_address : ∀ f ∈ functionsOf programs, f.key = k → ∀ g ∈ functionsOf programs,
    g.runtimeAddress = f.runtimeAddress → g.key = k
  address_ne_null : ∀ f ∈ functionsOf programs, f.key = k → f.runtimeAddress ≠ 0

/-! ## What the loop hooks -/

section Hooking

variable {programs : List Program} {status : ℕ → ℤ} {functions : List Symbol} {a b : Address}

theorem mem_of_oldFunction {name : String} {hash : UInt64} {old : Symbol}
    (h : oldFunction programs name hash = some old) :
    old ∈ functionsOf programs ∧ old.answers name hash := by
  obtain ⟨prog, hprog, hfind⟩ := List.exists_of_findSome?_eq_some h
  refine ⟨mem_functionsOf.mpr ⟨prog, List.mem_reverse.mp hprog, ?_⟩, ?_⟩
  · exact List.mem_of_find?_eq_some hfind
  · exact List.find?_some (p := fun sym : Symbol => sym.answers name hash) hfind

/-- One function leaves the hooks alone, or redirects the old function that it has found. -/
theorem hookFunction_cases (hstatus : ∀ i, status i = 0) (s : HookState) (f : Symbol) :
    (hookFunction programs status s f).hooks = s.hooks ∧
        (∀ old, oldFunction programs f.name f.hash = some old → old.runtimeAddress = 0) ∨
      ∃ old, oldFunction programs f.name f.hash = some old ∧
        (hookFunction programs status s f).hooks =
          (old.runtimeAddress, f.runtimeAddress) :: s.hooks := by
  unfold hookFunction
  cases oldFunction programs f.name f.hash with
  | none => exact .inl ⟨rfl, by simp⟩
  | some old =>
      by_cases hnull : old.runtimeAddress = 0#64
      · exact .inl ⟨by simp [hnull], by simpa using hnull⟩
      · exact .inr ⟨old, rfl, by simp [hnull, hstatus]⟩

theorem target_foldl_of_forall_ne (hstatus : ∀ i, status i = 0) (h : ∀ f ∈ functions, ∀ old,
      oldFunction programs f.name f.hash = some old → old.runtimeAddress ≠ a) (s : HookState) :
    target (functions.foldl (hookFunction programs status) s).hooks a = target s.hooks a := by
  induction functions generalizing s with
  | nil => rfl
  | cons f functions ih =>
      obtain ⟨hf, hrest⟩ := List.forall_mem_cons.mp h
      rw [List.foldl_cons, ih hrest]
      rcases hookFunction_cases hstatus s f with ⟨heq, _⟩ | ⟨old, hold, heq⟩
      · rw [heq]
      · rw [heq, target, target, List.find?_cons_of_neg (by simpa using hf old hold)]

/-- If all functions that redirect `a` send it to `b`, and there is one, then `a` leads to `b`. -/
theorem target_foldl_of_mem (hstatus : ∀ i, status i = 0) (ha : a ≠ 0) (h : ∀ f ∈ functions, ∀ old,
      oldFunction programs f.name f.hash = some old → old.runtimeAddress = a →
        f.runtimeAddress = b) {s : HookState}
    (hmem : target s.hooks a = some b ∨ ∃ f ∈ functions, ∃ old,
      oldFunction programs f.name f.hash = some old ∧ old.runtimeAddress = a) :
    target (functions.foldl (hookFunction programs status) s).hooks a = some b := by
  induction functions generalizing s with
  | nil => simpa using hmem
  | cons f functions ih =>
      obtain ⟨hf, hrest⟩ := List.forall_mem_cons.mp h
      rw [List.foldl_cons]
      refine ih hrest ?_
      by_cases hfound : ∃ old, oldFunction programs f.name f.hash = some old ∧
          old.runtimeAddress = a
      · obtain ⟨old, hold, rfl⟩ := hfound
        left
        rcases hookFunction_cases hstatus s f with ⟨_, hnull⟩ | ⟨old', hold', heq⟩
        · exact absurd (hnull old hold) ha
        · obtain rfl := Option.some.inj (hold.symm.trans hold')
          rw [heq, target, List.find?_cons_of_pos (by simp), Option.map_some, hf old hold rfl]
      · rcases hmem with hmem | ⟨f', hf', hfound'⟩
        · left
          rcases hookFunction_cases hstatus s f with ⟨heq, _⟩ | ⟨old, hold, heq⟩
          · rw [heq, hmem]
          · have hne : ¬ old.runtimeAddress = a := fun heq' => hfound ⟨old, hold, heq'⟩
            rw [heq, target, List.find?_cons_of_neg (by simpa using hne)]
            exact hmem
        · rcases List.mem_cons.mp hf' with rfl | hf'
          · exact absurd hfound' hfound
          · exact .inr ⟨f', hf', hfound'⟩

end Hooking

/-! ## One reload -/

namespace KeyApart

variable {programs : List Program} {newProgram : Program} {k : Key} {f g : Symbol}

theorem of_append (h : KeyApart (programs ++ [newProgram]) k) : KeyApart programs k where
  unique prog hprog := h.unique prog (List.mem_append_left _ hprog)
  answers_iff f hf g hg :=
    h.answers_iff f (mem_functionsOf_append.mpr (.inl hf)) g (mem_functionsOf_append.mpr (.inl hg))
  address_nodup := by
    have hnodup := h.address_nodup
    rw [functionsOf, List.flatMap_append, List.filter_append, List.map_append] at hnodup
    exact hnodup.of_append_left
  key_of_address f hf hk g hg :=
    h.key_of_address f (mem_functionsOf_append.mpr (.inl hf)) hk g
      (mem_functionsOf_append.mpr (.inl hg))
  address_ne_null f hf := h.address_ne_null f (mem_functionsOf_append.mpr (.inl hf))

theorem eq_of_address (h : KeyApart programs k) (hf : f ∈ functionsOf programs) (hk : f.key = k)
    (hg : g ∈ functionsOf programs) (heq : g.runtimeAddress = f.runtimeAddress) : g = f := by
  have hg' := h.key_of_address f hf hk g hg heq
  exact List.inj_on_of_nodup_map h.address_nodup (List.mem_filter.mpr ⟨hg, by simpa using hg'⟩)
    (List.mem_filter.mpr ⟨hf, by simpa using hk⟩) heq

/-- A function of the new program lies elsewhere than those of the loaded ones. -/
theorem address_ne (h : KeyApart (programs ++ [newProgram]) k) (hg : g ∈ functionsOf programs)
    (hf : f ∈ newProgram.symbols.functions) (hk : f.key = k) :
    g.runtimeAddress ≠ f.runtimeAddress := by
  intro heq
  have hg' := h.key_of_address f (mem_functionsOf_append.mpr (.inr hf)) hk g
    (mem_functionsOf_append.mpr (.inl hg)) heq
  have hnodup := h.address_nodup
  rw [functionsOf, List.flatMap_append, List.filter_append, List.map_append] at hnodup
  have hgmem : g ∈ (programs.flatMap fun prog => prog.symbols.functions).filter
      fun f => f.key = k := List.mem_filter.mpr ⟨hg, by simpa using hg'⟩
  have hfmem : f ∈ ([newProgram].flatMap fun prog => prog.symbols.functions).filter
      fun f => f.key = k := List.mem_filter.mpr ⟨by simpa using hf, by simpa using hk⟩
  exact List.disjoint_of_nodup_append hnodup (List.mem_map_of_mem hgmem)
    (heq ▸ List.mem_map_of_mem hfmem)

theorem eq_of_mem (h : KeyApart programs k) {prog : Program} (hprog : prog ∈ programs)
    (hf : f ∈ prog.symbols.functions) (hg : g ∈ prog.symbols.functions) (hfk : f.key = k)
    (hgk : g.key = k) : f = g := by
  have hmem : ∀ {u}, u ∈ prog.symbols.functions → u.key = k →
      u ∈ prog.symbols.functions.filter fun f => f.key = k :=
    fun hu huk => List.mem_filter.mpr ⟨hu, by simpa using huk⟩
  obtain ⟨u, hu⟩ := List.length_eq_one_iff.mp
    (le_antisymm (h.unique prog hprog) (List.length_pos_of_mem (hmem hf hfk)))
  have hfu := hmem hf hfk
  have hgu := hmem hg hgk
  rw [hu, List.mem_singleton] at hfu hgu
  rw [hfu, hgu]

theorem newestVersion_new (h : KeyApart (programs ++ [newProgram]) k)
    (hf : f ∈ newProgram.symbols.functions) (hk : f.key = k) :
    newestVersion (programs ++ [newProgram]) k = some f := by
  rw [newestVersion_append]
  cases hfind : newProgram.symbols.functions.find? fun g => g.key = k with
  | none => exact absurd (List.find?_eq_none.mp hfind f hf) (by simpa using hk)
  | some g =>
      have hkey : g.key = k := by simpa using List.find?_some hfind
      rw [Option.some_or, h.eq_of_mem (List.mem_append_right _ List.mem_cons_self)
        (List.mem_of_find?_eq_some hfind) hf hkey hk]

/-- The search of the source finds the newest version. -/
theorem oldFunction_eq (h : KeyApart (programs ++ [newProgram]) k)
    (hf : f ∈ newProgram.symbols.functions) (hk : f.key = k) :
    oldFunction programs f.name f.hash = newestVersion programs k := by
  subst hk
  unfold oldFunction newestVersion findFunction
  rw [← List.find?_flatMap, ← List.find?_flatMap, ← List.head?_filter, ← List.head?_filter]
  refine congrArg List.head? (List.filter_congr ?_)
  intro g hg
  have hg' : g ∈ functionsOf programs := by
    obtain ⟨prog, hprog, hg⟩ := List.mem_flatMap.mp hg
    exact mem_functionsOf.mpr ⟨prog, List.mem_reverse.mp hprog, hg⟩
  rw [Bool.eq_iff_iff, decide_eq_true_iff]
  exact h.answers_iff f (mem_functionsOf_append.mpr (.inr hf)) g
    (mem_functionsOf_append.mpr (.inl hg')) (.inl rfl)

/-- What redirects a version of the function is its new version, and the version is the newest. -/
theorem found_by_new (h : KeyApart (programs ++ [newProgram]) k)
    (hf : f ∈ newProgram.symbols.functions) {old : Symbol}
    (hold : oldFunction programs f.name f.hash = some old) (hg : g ∈ functionsOf programs)
    (hk : g.key = k) (heq : old.runtimeAddress = g.runtimeAddress) :
    f.key = k ∧ newestVersion programs k = some g := by
  obtain ⟨hmem, hanswers⟩ := mem_of_oldFunction hold
  obtain rfl := h.of_append.eq_of_address hg hk hmem heq
  have hkey := (h.answers_iff f (mem_functionsOf_append.mpr (.inr hf)) old
    (mem_functionsOf_append.mpr (.inl hmem)) (.inr hk)).mp hanswers
  have hfk : f.key = k := hkey.symm.trans hk
  exact ⟨hfk, (h.oldFunction_eq hf hfk).symm.trans hold⟩

end KeyApart

namespace Image

variable {p : Image} {r : PipelineInput} {programs : List Program} {k : Key} {f g : Symbol}

/-- Only loaded functions are hooked. -/
theorem HookedFrom.source_mem (h : HookedFrom programs p) :
    ∀ a b, target p.hooks a = some b → ∃ f ∈ functionsOf p.programs, f.runtimeAddress = a := by
  induction h with
  | start memory =>
      intro a b h
      cases h
  | write _ _ ih => exact ih
  | @reload p _ r hr ih =>
      intro a b h
      by_contra hnone
      have hne : ∀ f ∈ functionsOf p.programs, f.runtimeAddress ≠ a :=
        fun f hf heq => hnone ⟨f, mem_functionsOf_append.mpr (.inl hf), heq⟩
      have htarget : target (p.reload r).hooks a = target p.hooks a :=
        target_foldl_of_forall_ne hr (fun _ _ old hold => hne old (mem_of_oldFunction hold).1)
          { hooks := p.hooks }
      obtain ⟨f, hf, heq⟩ := ih a b (htarget ▸ h)
      exact hne f hf heq

/-- A version of a function is hooked by a reload if it is the newest one and the new program has
another. -/
theorem target_reload_of_newest (hp : KeyApart (p.reload r).programs k)
    (hr : ∀ i, r.hookStatus i = 0) (hg : newestVersion p.programs k = some g)
    (hf : f ∈ r.newProgram.symbols.functions) (hk : f.key = k) :
    target (p.reload r).hooks g.runtimeAddress = some f.runtimeAddress := by
  obtain ⟨hmem, hgk⟩ := mem_of_newestVersion hg
  refine target_foldl_of_mem hr ((KeyApart.of_append hp).address_ne_null g hmem hgk) ?_
    (.inr ⟨f, hf, g, (KeyApart.oldFunction_eq hp hf hk).trans hg, rfl⟩)
  intro f' hf' old hold heq
  obtain ⟨hk', _⟩ := KeyApart.found_by_new hp hf' hold hmem hgk heq
  rw [hp.eq_of_mem (List.mem_append_right _ List.mem_cons_self) hf' hf hk' hk]

theorem target_reload_of_not_newest (hp : KeyApart (p.reload r).programs k)
    (hr : ∀ i, r.hookStatus i = 0) (hg : g ∈ functionsOf p.programs) (hk : g.key = k)
    (hne : ∀ f ∈ r.newProgram.symbols.functions, f.key = k → newestVersion p.programs k ≠ some g) :
    target (p.reload r).hooks g.runtimeAddress = target p.hooks g.runtimeAddress := by
  refine target_foldl_of_forall_ne hr ?_ { hooks := p.hooks }
  intro f hf old hold heq
  obtain ⟨hfk, hnewest⟩ := KeyApart.found_by_new hp hf hold hg hk heq
  exact hne f hf hfk hnewest

theorem HookedFrom.target_new (h : HookedFrom programs p) (hp : KeyApart (p.reload r).programs k)
    (hr : ∀ i, r.hookStatus i = 0) (hf : f ∈ r.newProgram.symbols.functions) (hk : f.key = k) :
    target (p.reload r).hooks f.runtimeAddress = none := by
  have hold : target p.hooks f.runtimeAddress = none := by
    rw [Option.eq_none_iff_forall_ne_some]
    intro b hb
    obtain ⟨g, hg, heq⟩ := h.source_mem _ b hb
    exact KeyApart.address_ne hp hg hf hk heq
  rw [← hold]
  refine target_foldl_of_forall_ne hr ?_ { hooks := p.hooks }
  exact fun f' _ old hold => KeyApart.address_ne hp (mem_of_oldFunction hold).1 hf hk

/-! ## All reloads -/

theorem newestVersion_append_programs (programs programs' : List Program) (k : Key) :
    newestVersion (programs ++ programs') k =
      (newestVersion programs' k).or (newestVersion programs k) := by
  rw [newestVersion, List.reverse_append, List.findSome?_append]
  rfl

/-- The newest version of a function is not hooked, and the hooks of its versions lead from every
version to it. -/
structure Linked (p : Image) (k : Key) : Prop where
  newest_free : ∀ g, newestVersion p.programs k = some g → target p.hooks g.runtimeAddress = none
  leads : ∀ f ∈ functionsOf p.programs, f.key = k → ∃ g, newestVersion p.programs k = some g ∧
    ReflTransGen (fun a b => target p.hooks a = some b ∧
      ∃ v ∈ functionsOf p.programs, v.key = k ∧ v.runtimeAddress = a)
      f.runtimeAddress g.runtimeAddress

theorem linked_start {memory : ProcessMemory} (hp : KeyApart programs k)
    (hk : SingleVersion programs k) : Linked { programs, memory } k := by
  refine ⟨fun _ _ => rfl, fun f hf hfk => ?_⟩
  obtain ⟨g, hg⟩ := exists_newestVersion hf
  rw [hfk] at hg
  obtain ⟨hgmem, hgk⟩ := mem_of_newestVersion hg
  obtain ⟨prog, hprog, hf⟩ := mem_functionsOf.mp hf
  obtain ⟨prog', hprog', hgmem⟩ := mem_functionsOf.mp hgmem
  have hmem : ∀ {q : Program} {u : Symbol}, q ∈ programs → u ∈ q.symbols.functions → u.key = k →
      q ∈ programs.filter fun prog => k ∈ prog.symbols.functions.map Symbol.key := by
    intro q u hq hu huk
    rw [List.mem_filter, decide_eq_true_iff]
    exact ⟨hq, List.mem_map.mpr ⟨u, hu, huk⟩⟩
  obtain rfl : prog = prog' := by
    obtain ⟨q, hq⟩ := List.length_eq_one_iff.mp
      (le_antisymm hk (List.length_pos_of_mem (hmem hprog hf hfk)))
    have h := hmem hprog hf hfk
    have h' := hmem hprog' hgmem hgk
    rw [hq, List.mem_singleton] at h h'
    rw [h, h']
  obtain rfl := hp.eq_of_mem hprog hf hgmem hfk hgk
  exact ⟨f, hg, .refl⟩

/-- The links so far start at versions that are hooked, so not at the newest one, and are kept. -/
theorem Linked.leads_reload (hlinked : p.Linked k) (hp : KeyApart (p.reload r).programs k)
    (hr : ∀ i, r.hookStatus i = 0) {a b : Address}
    (h : ReflTransGen (fun a b => target p.hooks a = some b ∧
      ∃ v ∈ functionsOf p.programs, v.key = k ∧ v.runtimeAddress = a) a b) :
    ReflTransGen (fun a b => target (p.reload r).hooks a = some b ∧
      ∃ v ∈ functionsOf (p.reload r).programs, v.key = k ∧ v.runtimeAddress = a) a b := by
  refine ReflTransGen.mono ?_ a b h
  rintro x y ⟨hxy, v, hv, hvk, rfl⟩
  refine ⟨?_, v, mem_functionsOf_append.mpr (.inl hv), hvk, rfl⟩
  rw [target_reload_of_not_newest hp hr hv hvk, hxy]
  intro _ _ _ hnewest
  exact absurd ((hlinked.newest_free v hnewest).symm.trans hxy) (by simp)

theorem Linked.reload_of_mem (hlinked : p.Linked k) (h : HookedFrom programs p)
    (hp : KeyApart (p.reload r).programs k) (hr : ∀ i, r.hookStatus i = 0)
    (hf : f ∈ r.newProgram.symbols.functions) (hfk : f.key = k) : (p.reload r).Linked k := by
  have hnewest := KeyApart.newestVersion_new hp hf hfk
  refine ⟨fun g hg => ?_, fun u hu huk => ⟨f, hnewest, ?_⟩⟩
  · obtain rfl := Option.some.inj (hnewest.symm.trans hg)
    exact h.target_new hp hr hf hfk
  · rcases mem_functionsOf_append.mp hu with hu | hu
    · obtain ⟨g, hg, hleads⟩ := hlinked.leads u hu huk
      obtain ⟨hgmem, hgk⟩ := mem_of_newestVersion hg
      exact (hlinked.leads_reload hp hr hleads).tail
        ⟨target_reload_of_newest hp hr hg hf hfk, g, mem_functionsOf_append.mpr (.inl hgmem), hgk,
          rfl⟩
    · rw [hp.eq_of_mem (List.mem_append_right _ List.mem_cons_self) hu hf huk hfk]

theorem Linked.reload_of_forall_ne (hlinked : p.Linked k) (hp : KeyApart (p.reload r).programs k)
    (hr : ∀ i, r.hookStatus i = 0) (hne : ∀ f ∈ r.newProgram.symbols.functions, f.key ≠ k) :
    (p.reload r).Linked k := by
  have hsame : newestVersion (p.reload r).programs k = newestVersion p.programs k :=
    newestVersion_reload_of_forall_ne hne
  refine ⟨fun g hg => ?_, fun u hu huk => ?_⟩
  · rw [hsame] at hg
    obtain ⟨hgmem, hgk⟩ := mem_of_newestVersion hg
    rw [target_reload_of_not_newest hp hr hgmem hgk fun f hf hfk => absurd hfk (hne f hf)]
    exact hlinked.newest_free g hg
  · rcases mem_functionsOf_append.mp hu with hu | hu
    · obtain ⟨g, hg, hleads⟩ := hlinked.leads u hu huk
      exact ⟨g, hsame.trans hg, hlinked.leads_reload hp hr hleads⟩
    · exact absurd huk (hne u hu)

theorem Linked.reload (hlinked : p.Linked k) (h : HookedFrom programs p)
    (hp : KeyApart (p.reload r).programs k) (hr : ∀ i, r.hookStatus i = 0) :
    (p.reload r).Linked k := by
  by_cases hnew : ∃ f ∈ r.newProgram.symbols.functions, f.key = k
  · obtain ⟨f, hf, hfk⟩ := hnew
    exact hlinked.reload_of_mem h hp hr hf hfk
  · exact hlinked.reload_of_forall_ne hp hr fun f hf hfk => hnew ⟨f, hf, hfk⟩

theorem HookedFrom.linked (h : HookedFrom programs p) (hp : KeyApart p.programs k)
    (hk : SingleVersion programs k) : p.Linked k := by
  induction h with
  | start memory => exact linked_start hp hk
  | write _ memory ih => exact ⟨(ih hp).newest_free, (ih hp).leads⟩
  | reload h r hr ih => exact (ih (KeyApart.of_append hp)).reload h hp hr

end Image

end JetLive

import JetLive.Library.Redirect
import JetLive.Utility

/-!
# Hooking functions

The second step of a reload redirects, for every function of the new program, the
function of the newest loaded program that answers to its name and hash to the new
one. `newestVersion` says which function this is if names and hashes are used as the
loaders promise (`Hookable`), and `newHooks` what the step then adds.
-/

namespace JetLive

open Redirect

/-- A redirection from the address of a function to another one. -/
abbrev Hook := Address × Address

/-- The function of the newest loaded program that answers to a name and a hash. -/
def oldFunction (programs : List Program) (name : String) (hash : UInt64) : Option Symbol :=
  programs.reverse.findSome? fun prog => findFunction prog.symbols name hash

/-- The state of the loop over the functions of the new program: the calls of
`DobbyHook` so far, the hooks, the most recent one first, and the log entries. -/
structure HookState where
  index : ℕ := 0
  hooks : List Hook
  hookedFunctions : ℕ := 0
  logs : List LogEntry := []

/-- One function of the new program; `status` has the results of `DobbyHook`, which
redirects the function if the result is `0`. -/
def hookFunction (programs : List Program) (status : ℕ → ℤ) (s : HookState) (sym : Symbol) :
    HookState :=
  match oldFunction programs sym.name sym.hash with
  | none => s
  | some old =>
      if old.runtimeAddress = 0 then s
      else
        let s' := { s with index := s.index + 1 }
        if status s.index = 0 then
          { s' with
            hooks := (old.runtimeAddress, sym.runtimeAddress) :: s.hooks
            hookedFunctions := s.hookedFunctions + 1 }
        else
          { s' with
            logs := s.logs ++ [.log .kError ("Cannot hook function: " ++ sym.name ++ ", status "
              ++ toString (status s.index))] }

/-- `FunctionsHookingStep::reload`: the hooks and the log entries. -/
def functionsHooking (programs : List Program) (newProgram : Program) (status : ℕ → ℤ)
    (hooks : List Hook) : List Hook × List LogEntry :=
  let final := newProgram.symbols.functions.foldl (hookFunction programs status) { hooks }
  (final.hooks,
   [.log .kDebug "Hooking functions..."] ++ final.logs ++
     [.log .kDebug ("Done, hooked: " ++ toString final.hookedFunctions ++ "/"
       ++ toString newProgram.symbols.functions.length)])

/-! ## Versions of a function -/

def functionsOf (programs : List Program) : List Symbol :=
  programs.flatMap fun prog => prog.symbols.functions

/-- The version of a function in the most recently loaded program that has one. -/
def newestVersion (programs : List Program) (k : Key) : Option Symbol :=
  programs.reverse.findSome? fun prog => prog.symbols.functions.find? fun f => f.key = k

/-- What the loaders promise about functions: a program has at most one function of a
name and a hash, a name is local everywhere or nowhere, the hash of a function that is
not local is `0`, and different functions have different addresses, none of them null. -/
structure Hookable (programs : List Program) : Prop where
  key_nodup : ∀ prog ∈ programs, (prog.symbols.functions.map Symbol.key).Nodup
  checkHash_eq : ∀ f ∈ functionsOf programs, ∀ g ∈ functionsOf programs, f.name = g.name →
    f.checkHash = g.checkHash
  hash_eq_zero : ∀ f ∈ functionsOf programs, f.checkHash = false → f.hash = 0
  address_nodup : ((functionsOf programs).map Symbol.runtimeAddress).Nodup
  address_ne_null : ∀ f ∈ functionsOf programs, f.runtimeAddress ≠ 0

/-- What the step adds to the hooks if every call of `DobbyHook` succeeds. -/
def newHooks (programs : List Program) (functions : List Symbol) : List Hook :=
  (functions.filterMap fun f => (newestVersion programs f.key).map fun old =>
    (old.runtimeAddress, f.runtimeAddress)).reverse

variable {programs : List Program} {newProgram : Program} {k : Key} {f g : Symbol}

theorem mem_functionsOf : f ∈ functionsOf programs ↔ ∃ prog ∈ programs,
    f ∈ prog.symbols.functions :=
  List.mem_flatMap

theorem mem_functionsOf_append : f ∈ functionsOf (programs ++ [newProgram]) ↔
    f ∈ functionsOf programs ∨ f ∈ newProgram.symbols.functions := by
  simp [functionsOf]

theorem Hookable.of_append (h : Hookable (programs ++ [newProgram])) : Hookable programs where
  key_nodup prog hprog := h.key_nodup prog (List.mem_append_left _ hprog)
  checkHash_eq f hf g hg :=
    h.checkHash_eq f (mem_functionsOf_append.mpr (.inl hf)) g (mem_functionsOf_append.mpr (.inl hg))
  hash_eq_zero f hf := h.hash_eq_zero f (mem_functionsOf_append.mpr (.inl hf))
  address_nodup := by
    have hnodup := h.address_nodup
    rw [functionsOf, List.flatMap_append, List.map_append] at hnodup
    exact hnodup.of_append_left
  address_ne_null f hf := h.address_ne_null f (mem_functionsOf_append.mpr (.inl hf))

theorem Hookable.eq_of_address (h : Hookable programs) (hf : f ∈ functionsOf programs)
    (hg : g ∈ functionsOf programs) (heq : f.runtimeAddress = g.runtimeAddress) : f = g :=
  List.inj_on_of_nodup_map h.address_nodup hf hg heq

/-- A function of the new program lies elsewhere than those of the loaded ones. -/
theorem Hookable.address_ne (h : Hookable (programs ++ [newProgram]))
    (hf : f ∈ functionsOf programs) (hg : g ∈ newProgram.symbols.functions) :
    f.runtimeAddress ≠ g.runtimeAddress := by
  have hnodup := h.address_nodup
  rw [functionsOf, List.flatMap_append, List.map_append] at hnodup
  have hg' : g ∈ [newProgram].flatMap fun prog => prog.symbols.functions := by
    simpa using hg
  intro heq
  exact List.disjoint_of_nodup_append hnodup (List.mem_map_of_mem hf)
    (heq ▸ List.mem_map_of_mem hg')

theorem Hookable.eq_of_key (h : Hookable programs) {prog : Program} (hprog : prog ∈ programs)
    (hf : f ∈ prog.symbols.functions) (hg : g ∈ prog.symbols.functions) (heq : f.key = g.key) :
    f = g :=
  List.inj_on_of_nodup_map (h.key_nodup prog hprog) hf hg heq

/-- The comparison of the lookup is the equality of name and hash. -/
theorem Hookable.answers_iff (h : Hookable programs) (hf : f ∈ functionsOf programs)
    (hg : g ∈ functionsOf programs) : g.answers f.name f.hash ↔ g.key = f.key := by
  rw [Symbol.answers_iff, Symbol.key, Symbol.key, Prod.mk.injEq, and_congr_right_iff]
  intro hname
  constructor
  · intro hhash
    cases hlocal : g.checkHash with
    | true => exact hhash hlocal
    | false =>
        have hlocal' : f.checkHash = false := by
          rw [← hlocal, h.checkHash_eq f hf g hg hname.symm]
        rw [h.hash_eq_zero g hg hlocal, h.hash_eq_zero f hf hlocal']
  · exact fun hhash _ => hhash

theorem mem_of_newestVersion (h : newestVersion programs k = some g) :
    g ∈ functionsOf programs ∧ g.key = k := by
  obtain ⟨prog, hprog, hfind⟩ := List.exists_of_findSome?_eq_some h
  refine ⟨mem_functionsOf.mpr ⟨prog, List.mem_reverse.mp hprog, ?_⟩, ?_⟩
  · exact List.mem_of_find?_eq_some hfind
  · simpa using List.find?_some hfind

theorem exists_newestVersion (hf : f ∈ functionsOf programs) :
    ∃ g, newestVersion programs f.key = some g := by
  obtain ⟨prog, hprog, hf⟩ := mem_functionsOf.mp hf
  rw [← Option.isSome_iff_exists, newestVersion, List.findSome?_isSome_iff]
  refine ⟨prog, List.mem_reverse.mpr hprog, ?_⟩
  rw [List.find?_isSome]
  exact ⟨f, hf, by simp⟩

theorem newestVersion_append : newestVersion (programs ++ [newProgram]) k =
    (newProgram.symbols.functions.find? fun f => f.key = k).or (newestVersion programs k) := by
  rw [newestVersion, newestVersion, List.reverse_append, List.reverse_singleton,
    List.singleton_append, List.findSome?_cons]
  cases newProgram.symbols.functions.find? fun f => f.key = k <;> rfl

/-- The newest version of a function of the new program is this function. -/
theorem Hookable.newestVersion_new (h : Hookable (programs ++ [newProgram]))
    (hf : f ∈ newProgram.symbols.functions) :
    newestVersion (programs ++ [newProgram]) f.key = some f := by
  rw [newestVersion_append]
  cases hfind : newProgram.symbols.functions.find? fun g => g.key = f.key with
  | none => exact absurd (List.find?_eq_none.mp hfind f hf) (by simp)
  | some g =>
      have hkey : g.key = f.key := by simpa using List.find?_some hfind
      rw [Option.some_or, h.eq_of_key (List.mem_append_right _ List.mem_cons_self)
        (List.mem_of_find?_eq_some hfind) hf hkey]

theorem newestVersion_append_of_forall_ne (h : ∀ f ∈ newProgram.symbols.functions, f.key ≠ k) :
    newestVersion (programs ++ [newProgram]) k = newestVersion programs k := by
  have hnone : newProgram.symbols.functions.find? (fun f => f.key = k) = none := by
    simpa using h
  rw [newestVersion_append, hnone, Option.none_or]

/-- The search of the source finds the newest version. -/
theorem Hookable.oldFunction_eq (h : Hookable (programs ++ [newProgram]))
    (hf : f ∈ newProgram.symbols.functions) :
    oldFunction programs f.name f.hash = newestVersion programs f.key := by
  unfold oldFunction newestVersion findFunction
  rw [← List.find?_flatMap, ← List.find?_flatMap, ← List.head?_filter, ← List.head?_filter]
  refine congrArg List.head? (List.filter_congr ?_)
  intro g hg
  have hg' : g ∈ functionsOf programs := by
    obtain ⟨prog, hprog, hg⟩ := List.mem_flatMap.mp hg
    exact mem_functionsOf.mpr ⟨prog, List.mem_reverse.mp hprog, hg⟩
  rw [Bool.eq_iff_iff, decide_eq_true_iff]
  exact h.answers_iff (mem_functionsOf_append.mpr (.inr hf)) (mem_functionsOf_append.mpr (.inl hg'))

/-- What the loop over the functions does if every call of `DobbyHook` succeeds. -/
theorem foldl_hookFunction_hooks {status : ℕ → ℤ} (hstatus : ∀ i, status i = 0)
    {functions : List Symbol} (hold : ∀ f ∈ functions,
      oldFunction programs f.name f.hash = newestVersion programs f.key ∧
        ∀ old, newestVersion programs f.key = some old → old.runtimeAddress ≠ 0)
    (s : HookState) :
    (functions.foldl (hookFunction programs status) s).hooks =
      newHooks programs functions ++ s.hooks := by
  induction functions generalizing s with
  | nil => rfl
  | cons f functions ih =>
      obtain ⟨⟨hold, hnull⟩, hrest⟩ := List.forall_mem_cons.mp hold
      rw [List.foldl_cons, ih hrest]
      cases hnewest : newestVersion programs f.key with
      | none => simp [hookFunction, newHooks, hold, hnewest]
      | some old =>
          have hne : ¬ old.runtimeAddress = 0#64 := hnull old hnewest
          simp [hookFunction, newHooks, hold, hnewest, hne, hstatus]

theorem Hookable.functionsHooking_hooks (h : Hookable (programs ++ [newProgram]))
    {status : ℕ → ℤ} (hstatus : ∀ i, status i = 0) (hooks : List Hook) :
    (functionsHooking programs newProgram status hooks).1 =
      newHooks programs newProgram.symbols.functions ++ hooks := by
  refine foldl_hookFunction_hooks hstatus ?_ { hooks }
  intro f hf
  refine ⟨h.oldFunction_eq hf, ?_⟩
  intro old hold
  exact h.of_append.address_ne_null old (mem_of_newestVersion hold).1

theorem mem_newHooks {functions : List Symbol} {e : Hook} :
    e ∈ newHooks programs functions ↔ ∃ f ∈ functions, ∃ old,
      newestVersion programs f.key = some old ∧ (old.runtimeAddress, f.runtimeAddress) = e := by
  simp [newHooks]

/-- One reload hooks no function twice. -/
theorem Hookable.newHooks_nodup (h : Hookable programs) {functions : List Symbol}
    (hkeys : (functions.map Symbol.key).Nodup) :
    ((newHooks programs functions).map Prod.fst).Nodup := by
  rw [newHooks, List.map_reverse, List.nodup_reverse, List.map_filterMap]
  refine (List.pairwise_map.mp hkeys).filterMap _ ?_
  intro f f' hne a ha a' ha' heq
  simp only [Option.map_map, Option.map_eq_some_iff] at ha ha'
  obtain ⟨old, hold, rfl⟩ := ha
  obtain ⟨old', hold', rfl⟩ := ha'
  obtain ⟨hmem, hkey⟩ := mem_of_newestVersion hold
  obtain ⟨hmem', hkey'⟩ := mem_of_newestVersion hold'
  refine hne ?_
  rw [← hkey, ← hkey', h.eq_of_address hmem hmem' heq]

end JetLive

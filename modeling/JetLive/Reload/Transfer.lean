import JetLive.Reload.Relocations

/-!
# Which variables the relocations take out of the new program

A variable is removed from the new program, and so excluded from copying, as soon
as one relocation to it is applied. `TransfersWhole` says that this is safe: every
relocation that names a removed variable was applied, and nothing else is removed.

The loop over the relocated variables works by name and hash only. For one name
and hash it removes as many variables as there are applied relocations, from the
front (`withKey_removeRelocated`). So the relocations to one variable have to pass
or fail together, and where two of them pass, no other variable may have the same
name and hash (`transfersWhole_iff_passesWhole`).
-/

namespace JetLive

open ByteMemory Loop

/-- A table of variables as the loaders make it: no variable is listed twice, and the
hash of two variables with the same name and hash counts for both or for none. -/
structure TableOk (vars : List Symbol) : Prop where
  nodup : vars.Nodup
  checkHash_eq : ∀ v ∈ vars, ∀ w ∈ vars, v.key = w.key → v.checkHash = w.checkHash

def withKey (k : Key) (vars : List Symbol) : List Symbol := vars.filter fun v => v.key = k

theorem mem_withKey {k : Key} {vars : List Symbol} {v : Symbol} :
    v ∈ withKey k vars ↔ v ∈ vars ∧ v.key = k := by
  simp [withKey]

theorem withKey_eraseP (k k' : Key) (vars : List Symbol) :
    withKey k (vars.eraseP fun v => v.key = k') =
      if k' = k then (withKey k vars).drop 1 else withKey k vars := by
  induction vars with
  | nil => simp [withKey]
  | cons v vars ih =>
      by_cases hv : v.key = k'
      · subst hv
        by_cases hk : v.key = k <;> simp [withKey, hk]
      · rw [List.eraseP_cons_of_neg (by simpa using hv)]
        by_cases hk : v.key = k
        · have hne : ¬ k' = k := fun heq => hv (hk.trans heq.symm)
          rw [if_neg hne] at ih ⊢
          simp only [withKey] at ih ⊢
          simp [hk, ih]
        · simpa [withKey, hk] using ih

/-- For each name and hash the variables in front are removed, one for every relocated
variable with this name and hash. -/
theorem withKey_removeRelocated (k : Key) (vars relocated : List Symbol) :
    withKey k (removeRelocated vars relocated) =
      (withKey k vars).drop (relocated.countP fun s => s.key = k) := by
  induction relocated generalizing vars with
  | nil => rfl
  | cons s relocated ih =>
      have hkey : (fun v : Symbol => decide (v.name = s.name ∧ v.hash = s.hash)) =
          fun v => decide (v.key = s.key) := by
        funext v
        simp [Symbol.key]
      have hcons : removeRelocated vars (s :: relocated) =
          removeRelocated (vars.eraseP fun v => v.key = s.key) relocated := by
        rw [removeRelocated, List.foldl_cons, hkey]
        rfl
      rw [hcons, ih, withKey_eraseP, List.countP_cons]
      by_cases hs : s.key = k
      · simp [hs, Nat.add_comm]
      · simp [hs]

namespace RelocationContext

variable (x : RelocationContext)

/-- The relocation refers to this variable of the new program. -/
def Names (reloc : Relocation) (v : Symbol) : Prop :=
  findVariable x.newProgram.symbols reloc.relocationSymbolName reloc.relocationSymbolHash = some v

instance (reloc : Relocation) (v : Symbol) : Decidable (x.Names reloc v) :=
  inferInstanceAs (Decidable (_ = _))

/-- The relocation passes the checks in the given state, and its code can be patched. -/
def Passes (s : RelocationState) (reloc : Relocation) : Prop :=
  ∃ patch, checkRelocation x.arch x.programs x.newProgram.symbols s.memory reloc = .ok patch ∧
    (patch.field = none ∨ x.status s.index = 0)

/-- Every relocation that names a removed variable was applied, and every removed
variable is named by an applied relocation. -/
def TransfersWhole (mem : ProcessMemory) (relocs : List Relocation) : Prop :=
  ∀ v ∈ x.newProgram.symbols.vars, v ∉ (linkTimeRelocations x relocs mem).2.1.symbols.vars →
    (∀ pre reloc post, relocs = pre ++ reloc :: post → x.Names reloc v →
      x.applied (x.stateAfter mem pre) reloc ≠ none) ∧
    ∃ pre reloc post, relocs = pre ++ reloc :: post ∧ x.Names reloc v ∧
      x.applied (x.stateAfter mem pre) reloc ≠ none

/-- The relocations that name one variable pass or fail together, and where two of
them pass, it is the only variable with its name and hash. -/
structure PassesWhole (mem : ProcessMemory) (relocs : List Relocation) : Prop where
  together : ∀ pre reloc post pre' reloc' post' v, relocs = pre ++ reloc :: post →
    relocs = pre' ++ reloc' :: post' → x.Names reloc v → x.Names reloc' v →
    x.Passes (x.stateAfter mem pre) reloc → x.Passes (x.stateAfter mem pre') reloc'
  single : ∀ pre reloc mid reloc' post v, relocs = pre ++ reloc :: (mid ++ reloc' :: post) →
    x.Names reloc v → x.Names reloc' v → x.Passes (x.stateAfter mem pre) reloc →
    x.Passes (x.stateAfter mem (pre ++ reloc :: mid)) reloc' →
    ∀ w ∈ x.newProgram.symbols.vars, w.key = v.key → w = v

variable {x}

theorem names_of_checkRelocation {mem : ProcessMemory} {reloc : Relocation} {patch : Patch}
    (h : checkRelocation x.arch x.programs x.newProgram.symbols mem reloc = .ok patch) :
    x.Names reloc patch.symbol := by
  obtain ⟨_, _, _, hv, _⟩ := checkRelocation_ok h
  exact hv

theorem index_stateAfter (x : RelocationContext) (mem : ProcessMemory)
    (relocs : List Relocation) : (x.stateAfter mem relocs).index = relocs.length := by
  have hturn (s : RelocationState) (reloc : Relocation) : (x.turn s reloc).index = s.index + 1 := by
    unfold turn applyRelocation
    split
    · rfl
    · dsimp only
      split
      · rfl
      · split <;> rfl
  have hfold (relocs : List Relocation) (s : RelocationState) :
      (relocs.foldl x.turn s).index = s.index + relocs.length := by
    induction relocs generalizing s with
    | nil => rfl
    | cons reloc relocs ih =>
        rw [List.foldl_cons, ih, hturn, List.length_cons]
        omega
  rw [stateAfter, hfold]
  exact Nat.zero_add _

/-- A relocation is applied to the variable it names, if it passes. -/
theorem applied_eq_some_iff {s : RelocationState} {reloc : Relocation} {v : Symbol} :
    x.applied s reloc = some v ↔ x.Names reloc v ∧ x.Passes s reloc := by
  unfold applied applyRelocation Passes
  cases hcheck : checkRelocation x.arch x.programs x.newProgram.symbols s.memory reloc with
  | error logs => simp
  | ok patch =>
      have hnames := names_of_checkRelocation hcheck
      have hsymbol : x.Names reloc v ↔ patch.symbol = v := by
        unfold Names at hnames ⊢
        rw [hnames, Option.some.injEq]
      rw [hsymbol]
      cases hfield : patch.field with
      | none => simp [hfield]
      | some field =>
          by_cases hstatus : x.status s.index = 0 <;> simp [hfield, hstatus]

theorem applied_ne_none_iff {s : RelocationState} {reloc : Relocation} :
    x.applied s reloc ≠ none ↔ x.Passes s reloc := by
  rw [Option.ne_none_iff_exists']
  constructor
  · rintro ⟨v, hv⟩
    exact (applied_eq_some_iff.mp hv).2
  · intro hpass
    obtain ⟨patch, hcheck, _⟩ := id hpass
    exact ⟨patch.symbol, applied_eq_some_iff.mpr ⟨names_of_checkRelocation hcheck, hpass⟩⟩

/-- A named variable is the first one with its name and hash. -/
theorem Names.head {reloc : Relocation} {v : Symbol} (hvars : TableOk x.newProgram.symbols.vars)
    (h : x.Names reloc v) : (withKey v.key x.newProgram.symbols.vars).head? = some v := by
  obtain ⟨hv, pre, post, hsplit, hpre⟩ := List.find?_eq_some_iff_append.mp h
  have hnone : withKey v.key pre = [] := by
    rw [List.eq_nil_iff_forall_not_mem]
    intro w hw
    obtain ⟨hwmem, hwkey⟩ := mem_withKey.mp hw
    have hwvars : w ∈ x.newProgram.symbols.vars := by
      rw [hsplit]
      exact List.mem_append_left _ hwmem
    have hvvars : v ∈ x.newProgram.symbols.vars := by
      rw [hsplit]
      exact List.mem_append_right _ List.mem_cons_self
    have hcheck := hvars.checkHash_eq w hwvars v hvvars hwkey
    obtain ⟨hname, hhash⟩ := Prod.ext_iff.mp hwkey
    have hanswers : w.answers reloc.relocationSymbolName reloc.relocationSymbolHash := by
      rw [Symbol.answers_iff] at hv ⊢
      exact ⟨hname.trans hv.1, fun hw => hhash.trans (hv.2 (hcheck ▸ hw))⟩
    have hnot := hpre w hwmem
    simp [hanswers] at hnot
  rw [hsplit]
  unfold withKey at hnone ⊢
  rw [List.filter_append, hnone]
  simp

theorem mem_vars_of_names {reloc : Relocation} {v : Symbol} (h : x.Names reloc v) :
    v ∈ x.newProgram.symbols.vars :=
  List.mem_of_find?_eq_some h

/-- A relocated variable is named by a relocation that passed. -/
theorem mem_relocatedSymbols {mem : ProcessMemory} {relocs : List Relocation} {v : Symbol} :
    v ∈ x.relocatedSymbols mem relocs ↔ ∃ pre reloc post, relocs = pre ++ reloc :: post ∧
      x.Names reloc v ∧ x.Passes (x.stateAfter mem pre) reloc := by
  rw [relocatedSymbols, mem_outputs]
  simp only [applied_eq_some_iff]
  rfl

/-- The variable a relocation is applied to, with the old variable that its field then refers to. -/
def redirection (x : RelocationContext) (s : RelocationState) (reloc : Relocation) :
    Option (Symbol × Symbol) :=
  (x.applied s reloc).bind fun v =>
    (oldVariable x.programs reloc.relocationSymbolName reloc.relocationSymbolHash).map (v, ·)

/-- All variables that were relocated, in order, with the old variables. -/
def redirections (x : RelocationContext) (mem : ProcessMemory) (relocs : List Relocation) :
    List (Symbol × Symbol) :=
  outputs x.turn x.redirection { memory := mem } relocs

theorem mem_redirections {mem : ProcessMemory} {relocs : List Relocation} {v old : Symbol} :
    (v, old) ∈ x.redirections mem relocs ↔ ∃ pre reloc post, relocs = pre ++ reloc :: post ∧
      x.Names reloc v ∧ x.Passes (x.stateAfter mem pre) reloc ∧
      oldVariable x.programs reloc.relocationSymbolName reloc.relocationSymbolHash = some old := by
  rw [redirections, mem_outputs]
  simp only [redirection, Option.bind_eq_some_iff, Option.map_eq_some_iff, Prod.mk.injEq,
    applied_eq_some_iff]
  constructor
  · rintro ⟨pre, reloc, post, hsplit, _, ⟨hnames, hpass⟩, _, hold, rfl, rfl⟩
    exact ⟨pre, reloc, post, hsplit, hnames, hpass, hold⟩
  · rintro ⟨pre, reloc, post, hsplit, hnames, hpass, hold⟩
    exact ⟨pre, reloc, post, hsplit, v, ⟨hnames, hpass⟩, old, hold, rfl, rfl⟩

theorem mem_relocatedSymbols_iff_redirections {mem : ProcessMemory} {relocs : List Relocation}
    {v : Symbol} :
    v ∈ x.relocatedSymbols mem relocs ↔ ∃ old, (v, old) ∈ x.redirections mem relocs := by
  rw [mem_relocatedSymbols]
  constructor
  · rintro ⟨pre, reloc, post, hsplit, hnames, hpass⟩
    obtain ⟨patch, hcheck, _⟩ := id hpass
    obtain ⟨_, old, _, _, hold, _⟩ := checkRelocation_ok hcheck
    exact ⟨old, mem_redirections.mpr ⟨pre, reloc, post, hsplit, hnames, hpass, hold⟩⟩
  · rintro ⟨old, hold⟩
    obtain ⟨pre, reloc, post, hsplit, hnames, hpass, _⟩ := mem_redirections.mp hold
    exact ⟨pre, reloc, post, hsplit, hnames, hpass⟩

/-- The number of relocated variables with a name and hash. -/
def relocatedCount (x : RelocationContext) (mem : ProcessMemory) (relocs : List Relocation)
    (k : Key) : ℕ :=
  (x.relocatedSymbols mem relocs).countP fun s => s.key = k

/-- Two relocated variables with one name and hash are the same variable, named by two
relocations that passed. -/
theorem two_le_relocatedCount {mem : ProcessMemory} {relocs : List Relocation} {v : Symbol}
    (hvars : TableOk x.newProgram.symbols.vars)
    (hhead : (withKey v.key x.newProgram.symbols.vars).head? = some v) :
    2 ≤ x.relocatedCount mem relocs v.key ↔
      ∃ pre reloc mid reloc' post, relocs = pre ++ reloc :: (mid ++ reloc' :: post) ∧
        (x.Names reloc v ∧ x.Passes (x.stateAfter mem pre) reloc) ∧
        x.Names reloc' v ∧ x.Passes (x.stateAfter mem (pre ++ reloc :: mid)) reloc' := by
  have hnames : ∀ s reloc, (∃ u, x.applied s reloc = some u ∧ decide (u.key = v.key) = true) ↔
      x.Names reloc v ∧ x.Passes s reloc := by
    intro s reloc
    constructor
    · rintro ⟨u, hu, hkey⟩
      obtain ⟨hn, hp⟩ := applied_eq_some_iff.mp hu
      have hhead' := hn.head hvars
      rw [of_decide_eq_true hkey, hhead, Option.some.injEq] at hhead'
      exact ⟨hhead' ▸ hn, hp⟩
    · intro h
      exact ⟨v, applied_eq_some_iff.mpr h, by simp⟩
  rw [relocatedCount, relocatedSymbols, two_le_countP_outputs]
  simp only [hnames]
  rfl

/-- A variable is removed if it stands among the first ones with its name and hash, as
many as were relocated. -/
theorem notMem_removed_iff {mem : ProcessMemory} {relocs : List Relocation} {v : Symbol}
    (hvars : TableOk x.newProgram.symbols.vars) (hv : v ∈ x.newProgram.symbols.vars) :
    v ∉ (linkTimeRelocations x relocs mem).2.1.symbols.vars ↔
      v ∈ (withKey v.key x.newProgram.symbols.vars).take (x.relocatedCount mem relocs v.key) := by
  set l := withKey v.key x.newProgram.symbols.vars with hl
  set n := x.relocatedCount mem relocs v.key with hn
  have hmem : v ∈ (linkTimeRelocations x relocs mem).2.1.symbols.vars ↔ v ∈ l.drop n := by
    rw [hl, hn, relocatedCount, ← withKey_removeRelocated, mem_withKey]
    simp [linkTimeRelocations]
  have hsplit : v ∈ l.take n ∨ v ∈ l.drop n := by
    rw [← List.mem_append, List.take_append_drop]
    exact mem_withKey.mpr ⟨hv, rfl⟩
  have hdisjoint : v ∈ l.take n → v ∉ l.drop n := by
    have hnodup : l.Nodup := hvars.nodup.filter _
    rw [← List.take_append_drop n l] at hnodup
    exact fun htake hdrop => List.disjoint_of_nodup_append hnodup htake hdrop
  rw [hmem]
  tauto

/-- A variable named by a relocation that passes is removed. -/
theorem removed_of_passes {mem : ProcessMemory} {relocs pre post : List Relocation}
    {reloc : Relocation} {v : Symbol} (hvars : TableOk x.newProgram.symbols.vars)
    (hsplit : relocs = pre ++ reloc :: post) (hnames : x.Names reloc v)
    (hpass : x.Passes (x.stateAfter mem pre) reloc) :
    v ∉ (linkTimeRelocations x relocs mem).2.1.symbols.vars := by
  rw [notMem_removed_iff hvars (mem_vars_of_names hnames)]
  have hpos : 0 < x.relocatedCount mem relocs v.key := by
    rw [relocatedCount, List.countP_pos_iff]
    exact ⟨v, mem_relocatedSymbols.mpr ⟨pre, reloc, post, hsplit, hnames, hpass⟩, by simp⟩
  obtain ⟨l, hl⟩ := List.head?_eq_some_iff.mp (hnames.head hvars)
  obtain ⟨n, hn⟩ := Nat.exists_eq_succ_of_ne_zero hpos.ne'
  simp [hl, hn]

/-- A removed variable shares its name and hash with the variable of a relocation that
passed. -/
theorem exists_passes_of_removed {mem : ProcessMemory} {relocs : List Relocation} {v : Symbol}
    (hvars : TableOk x.newProgram.symbols.vars) (hv : v ∈ x.newProgram.symbols.vars)
    (hremoved : v ∉ (linkTimeRelocations x relocs mem).2.1.symbols.vars) :
    ∃ pre reloc post u, relocs = pre ++ reloc :: post ∧ x.Names reloc u ∧
      x.Passes (x.stateAfter mem pre) reloc ∧ u.key = v.key := by
  rw [notMem_removed_iff hvars hv] at hremoved
  have hpos : 0 < x.relocatedCount mem relocs v.key := by
    by_contra hzero
    simp [Nat.eq_zero_of_not_pos hzero] at hremoved
  obtain ⟨u, hu, hkey⟩ := List.countP_pos_iff.mp hpos
  obtain ⟨pre, reloc, post, hsplit, hnames, hpass⟩ := mem_relocatedSymbols.mp hu
  exact ⟨pre, reloc, post, u, hsplit, hnames, hpass, of_decide_eq_true hkey⟩

theorem passesWhole_of_transfersWhole {mem : ProcessMemory} {relocs : List Relocation}
    (hvars : TableOk x.newProgram.symbols.vars) (h : x.TransfersWhole mem relocs) :
    x.PassesWhole mem relocs := by
  refine ⟨?_, ?_⟩
  · intro pre reloc post pre' reloc' post' v hsplit hsplit' hnames hnames' hpass
    have hremoved := removed_of_passes hvars hsplit hnames hpass
    have hall := (h v (mem_vars_of_names hnames) hremoved).1
    exact applied_ne_none_iff.mp (hall pre' reloc' post' hsplit' hnames')
  · intro pre reloc mid reloc' post v hsplit hnames hnames' hpass hpass' w hw hkey
    by_contra hne
    -- the second variable with this name and hash is removed too, but nothing names it
    obtain ⟨l, hl⟩ := List.head?_eq_some_iff.mp (hnames.head hvars)
    have hcount : 2 ≤ x.relocatedCount mem relocs v.key :=
      (two_le_relocatedCount hvars (hnames.head hvars)).mpr
        ⟨pre, reloc, mid, reloc', post, hsplit, ⟨hnames, hpass⟩, hnames', hpass'⟩
    have hwl : w ∈ l := by
      have hwkey : w ∈ withKey v.key x.newProgram.symbols.vars := mem_withKey.mpr ⟨hw, hkey⟩
      rw [hl] at hwkey
      exact (List.mem_cons.mp hwkey).resolve_left hne
    obtain ⟨u, l, rfl⟩ := List.exists_cons_of_ne_nil (List.ne_nil_of_mem hwl)
    obtain ⟨hu, hukey⟩ := mem_withKey.mp (hl ▸ by simp :
      u ∈ withKey v.key x.newProgram.symbols.vars)
    have hremoved : u ∉ (linkTimeRelocations x relocs mem).2.1.symbols.vars := by
      rw [notMem_removed_iff hvars hu, hukey, hl]
      obtain ⟨n, hn⟩ := Nat.exists_eq_add_of_le' hcount
      simp [hn]
    obtain ⟨_, pre', reloc'', post', _, hnames'', _⟩ := h u hu hremoved
    have huv : v = u := by
      have hhead := hnames''.head hvars
      rw [hukey, hl] at hhead
      simpa using hhead
    have hnodup : (v :: u :: l).Nodup := hl ▸ hvars.nodup.filter _
    simp [huv] at hnodup

theorem transfersWhole_of_passesWhole {mem : ProcessMemory} {relocs : List Relocation}
    (hvars : TableOk x.newProgram.symbols.vars) (h : x.PassesWhole mem relocs) :
    x.TransfersWhole mem relocs := by
  intro v hv hremoved
  obtain ⟨pre, reloc, post, u, hsplit, hnames, hpass, hkey⟩ :=
    exists_passes_of_removed hvars hv hremoved
  obtain rfl : v = u := by
    obtain ⟨l, hl⟩ := List.head?_eq_some_iff.mp (hnames.head hvars)
    by_cases hcount : 2 ≤ x.relocatedCount mem relocs u.key
    · obtain ⟨pre, reloc, mid, reloc', post, hsplit, ⟨hnames, hpass⟩, hnames', hpass'⟩ :=
        (two_le_relocatedCount hvars (hnames.head hvars)).mp hcount
      exact h.single pre reloc mid reloc' post u hsplit hnames hnames' hpass hpass' v hv hkey.symm
    · rw [notMem_removed_iff hvars hv, ← hkey, hl] at hremoved
      have hle : x.relocatedCount mem relocs u.key ≤ 1 := by omega
      have hone : v ∈ (u :: l).take 1 := List.take_subset_take_left _ hle hremoved
      simpa using hone
  refine ⟨?_, pre, reloc, post, hsplit, hnames, applied_ne_none_iff.mpr hpass⟩
  intro pre' reloc' post' hsplit' hnames'
  exact applied_ne_none_iff.mpr
    (h.together pre reloc post pre' reloc' post' v hsplit hsplit' hnames hnames' hpass)

theorem transfersWhole_iff_passesWhole {mem : ProcessMemory} {relocs : List Relocation}
    (hvars : TableOk x.newProgram.symbols.vars) :
    x.TransfersWhole mem relocs ↔ x.PassesWhole mem relocs :=
  ⟨passesWhole_of_transfersWhole hvars, transfersWhole_of_passesWhole hvars⟩

end RelocationContext

def counter (address : Address) : Symbol := ⟨"counter", 4, address, 7, true⟩

end JetLive

import JetLive.Reload.Statics

/-!
# The static state over many reloads

`StaticState` follows the static state over a sequence of reloads: the loaded
programs, the memory, and for every piece of code loaded so far the storage it
uses for each of its variables. The live code may write anywhere in between.

Both steps of a reload look for the old variable in the oldest program that lists
one, so the content of a variable survives if at most one loaded variable answers
to each new one (`Unambiguous`): then the listed variable is the storage that the
newest code uses (`Tracked`).
-/

namespace JetLive

open ByteMemory

/-- What one reload brings: the new program, its relocations and the statuses of the
code patches. -/
structure ReloadInput where
  arch : Architecture
  newProgram : Program
  relocs : List Relocation
  status : ℕ → ℤ

/-- The static state of the process. `versions` has an entry for every piece of code,
the newest first: its variables, each with the variable whose storage it uses. -/
structure StaticState where
  programs : List Program
  memory : ProcessMemory
  versions : List (List (Symbol × Symbol))

namespace StaticState

/-- The state after start-up: every program uses its own variables. -/
def initial (programs : List Program) (memory : ProcessMemory) : StaticState where
  programs := programs
  memory := memory
  versions := (programs.map fun prog => prog.symbols.vars.map fun v => (v, v)).reverse

/-- The storage that the newest code with a variable of this name and hash uses. -/
def lastUse (s : StaticState) (k : Key) : Option Symbol :=
  s.versions.findSome? fun version =>
    (version.find? fun use => use.1.key = k).map fun use => use.2

variable (s : StaticState) (r : ReloadInput)

def relocationContext : RelocationContext where
  arch := r.arch
  programs := s.programs
  newProgram := r.newProgram
  status := r.status

/-- The storage the new code uses for one of its variables: the old variable that the
first of the redirected references to it leads to, or else the variable itself. -/
def storage (v : Symbol) : Symbol :=
  (((s.relocationContext r).redirections s.memory r.relocs).find? fun e => e.1 = v).elim v
    Prod.snd

/-- A reload: the relocations, the copying of statics, and the new program joins the
loaded ones. -/
def reload : StaticState :=
  let relocated := linkTimeRelocations (s.relocationContext r) r.relocs s.memory
  let copied := staticsCopy s.programs relocated.2.1 relocated.1
  { programs := s.programs ++ [relocated.2.1]
    memory := copied.1
    versions := (r.newProgram.symbols.vars.map fun v => (v, s.storage r v)) :: s.versions }

/-- The variables that the new program still lists after the relocations. -/
def remaining : List Symbol :=
  (linkTimeRelocations (s.relocationContext r) r.relocs s.memory).2.1.symbols.vars

/-- How the new program lies in memory: its variables have storage of their own, away
from each other and from the variables listed so far, which are not null, and its code
lies away from these too. -/
structure Layout : Prop where
  listed_ne_null : ∀ u ∈ listed s.programs, u.runtimeAddress ≠ 0
  new_apart_listed : ∀ v ∈ r.newProgram.symbols.vars, ∀ u ∈ listed s.programs,
    Apart v.runtimeAddress v.size u.runtimeAddress u.size
  new_apart_new : ∀ v ∈ r.newProgram.symbols.vars, ∀ w ∈ r.newProgram.symbols.vars, v ≠ w →
    Apart v.runtimeAddress v.size w.runtimeAddress w.size
  code_apart_listed : ∀ reloc ∈ r.relocs, ∀ target, findFunction r.newProgram.symbols
    reloc.targetSymbolName reloc.targetSymbolHash = some target → ∀ u ∈ listed s.programs,
    Apart (target.runtimeAddress + reloc.relocationOffsetRelativeTargetSymbolAddress) reloc.size
      u.runtimeAddress u.size

/-- Each variable of the new program is the only one there with its name and hash, and at
most one variable listed by the loaded programs answers to them. A relocation that names
the variable may carry another hash, if the same listed variables answer to that. -/
structure Unambiguous : Prop where
  own : ∀ v ∈ r.newProgram.symbols.vars, withKey v.key r.newProgram.symbols.vars = [v]
  loaded : ∀ v ∈ r.newProgram.symbols.vars, (answering v.key (listed s.programs)).length ≤ 1
  named : ∀ reloc ∈ r.relocs, ∀ v, (s.relocationContext r).Names reloc v →
    ∀ u ∈ listed s.programs,
      (u.answers reloc.relocationSymbolName reloc.relocationSymbolHash ↔ u.answers v.name v.hash)

/-- The content of every variable of the new code that earlier code has too is, right
after the reload, where the new code looks for it. -/
def Survives : Prop :=
  ∀ v ∈ r.newProgram.symbols.vars, ∀ old, s.lastUse v.key = some old →
    ∃ new, (s.reload r).lastUse v.key = some new ∧
      ∀ o : Address, o.toNat < min v.size old.size →
        (s.reload r).memory (new.runtimeAddress + o) = s.memory (old.runtimeAddress + o)

/-- To the name and hash of a variable of the newest code a listed variable answers, and
where it is the only one, it is the storage of this code. -/
def Tracked : Prop :=
  ∀ k old, s.lastUse k = some old →
    ∃ u rest, answering k (listed s.programs) = u :: rest ∧ (rest = [] → old = u)

end StaticState

namespace StaticState

variable {s : StaticState} {r : ReloadInput}

theorem mem_new_of_mem_relocatedSymbols {v : Symbol}
    (h : v ∈ (s.relocationContext r).relocatedSymbols s.memory r.relocs) :
    v ∈ r.newProgram.symbols.vars := by
  obtain ⟨_, _, _, _, hnames, _⟩ := RelocationContext.mem_relocatedSymbols.mp h
  exact RelocationContext.mem_vars_of_names hnames

/-- A variable of the new program is still listed unless it was relocated. -/
theorem withKey_remaining (hr : s.Unambiguous r) {v : Symbol}
    (hv : v ∈ r.newProgram.symbols.vars) :
    withKey v.key (s.remaining r) =
      if v ∈ (s.relocationContext r).relocatedSymbols s.memory r.relocs then [] else [v] := by
  have hdrop := withKey_removeRelocated v.key r.newProgram.symbols.vars
    ((s.relocationContext r).relocatedSymbols s.memory r.relocs)
  rw [hr.own v hv] at hdrop
  refine hdrop.trans ?_
  split
  · rename_i hmem
    have hpos : 0 < ((s.relocationContext r).relocatedSymbols s.memory r.relocs).countP
        fun u => u.key = v.key :=
      List.countP_pos_iff.mpr ⟨v, hmem, by simp⟩
    obtain ⟨n, hn⟩ := Nat.exists_eq_succ_of_ne_zero hpos.ne'
    simp [hn]
  · rename_i hmem
    have hzero : ((s.relocationContext r).relocatedSymbols s.memory r.relocs).countP
        (fun u => u.key = v.key) = 0 := by
      rw [List.countP_eq_zero]
      intro u hu hkey
      have huv : u ∈ withKey v.key r.newProgram.symbols.vars :=
        mem_withKey.mpr ⟨mem_new_of_mem_relocatedSymbols hu, by simpa using hkey⟩
      rw [hr.own v hv, List.mem_singleton] at huv
      exact hmem (huv ▸ hu)
    rw [hzero, List.drop_zero]

theorem remaining_subset {v : Symbol} (h : v ∈ s.remaining r) :
    v ∈ r.newProgram.symbols.vars := by
  have hdrop := withKey_removeRelocated v.key r.newProgram.symbols.vars
    ((s.relocationContext r).relocatedSymbols s.memory r.relocs)
  have hmem : v ∈ withKey v.key (s.remaining r) := mem_withKey.mpr ⟨h, rfl⟩
  have hmem' := List.mem_of_mem_drop (hdrop ▸ hmem)
  exact (mem_withKey.mp hmem').1

theorem listed_reload : listed (s.reload r).programs = listed s.programs ++ s.remaining r := by
  simp [listed, reload, remaining]

/-- A relocation finds the old variable under the name and hash of the new one. -/
theorem Unambiguous.oldVariable_eq (hr : s.Unambiguous r) {reloc : Relocation}
    (hreloc : reloc ∈ r.relocs) {v : Symbol} (hnames : (s.relocationContext r).Names reloc v) :
    oldVariable s.programs reloc.relocationSymbolName reloc.relocationSymbolHash =
      oldVariable s.programs v.name v.hash := by
  rw [oldVariable_eq_head, oldVariable_eq_head]
  refine congrArg List.head? (List.filter_congr fun u hu => ?_)
  rw [Bool.eq_iff_iff]
  exact hr.named reloc hreloc v hnames u hu

/-- All redirected references to a variable lead to the same old variable. -/
theorem storage_of_redirected (hr : s.Unambiguous r) {v old : Symbol}
    (h : (v, old) ∈ (s.relocationContext r).redirections s.memory r.relocs) :
    s.storage r v = old := by
  have hfound : ∀ {old}, (v, old) ∈ (s.relocationContext r).redirections s.memory r.relocs →
      oldVariable s.programs v.name v.hash = some old := by
    intro old h
    obtain ⟨pre, reloc, post, hsplit, hnames, _, hold⟩ := RelocationContext.mem_redirections.mp h
    have hreloc : reloc ∈ r.relocs := by
      rw [hsplit]
      exact List.mem_append_right _ List.mem_cons_self
    rw [← hr.oldVariable_eq hreloc hnames]
    exact hold
  unfold storage
  cases hfind : ((s.relocationContext r).redirections s.memory r.relocs).find?
      fun e => e.1 = v with
  | none => exact absurd (List.find?_eq_none.mp hfind _ h) (by simp)
  | some e =>
      obtain ⟨u, old'⟩ := e
      obtain rfl : u = v := by simpa using List.find?_some hfind
      exact Option.some.inj ((hfound (List.mem_of_find?_eq_some hfind)).symm.trans (hfound h))

/-- A relocated variable uses the only listed variable that answers to it. -/
theorem storage_of_relocated (hr : s.Unambiguous r) {v : Symbol}
    (h : v ∈ (s.relocationContext r).relocatedSymbols s.memory r.relocs) :
    answering v.key (listed s.programs) = [s.storage r v] := by
  obtain ⟨old, hold⟩ := RelocationContext.mem_relocatedSymbols_iff_redirections.mp h
  rw [storage_of_redirected hr hold]
  obtain ⟨pre, reloc, post, hsplit, hnames, _, hold⟩ := RelocationContext.mem_redirections.mp hold
  have hreloc : reloc ∈ r.relocs := by
    rw [hsplit]
    exact List.mem_append_right _ List.mem_cons_self
  have hhead : (answering v.key (listed s.programs)).head? = some old := by
    rw [Symbol.key, ← oldVariable_eq_head, ← hr.oldVariable_eq hreloc hnames]
    exact hold
  obtain ⟨rest, hrest⟩ := List.head?_eq_some_iff.mp hhead
  have hlength := hr.loaded v (mem_new_of_mem_relocatedSymbols h)
  rw [hrest, List.length_cons] at hlength
  rw [hrest, List.eq_nil_of_length_eq_zero (by omega : rest.length = 0)]

theorem storage_of_not_relocated {v : Symbol}
    (h : v ∉ (s.relocationContext r).relocatedSymbols s.memory r.relocs) :
    s.storage r v = v := by
  have hnone : ((s.relocationContext r).redirections s.memory r.relocs).find?
      (fun e => e.1 = v) = none := by
    rw [List.find?_eq_none]
    rintro ⟨u, old⟩ he heq
    obtain rfl : u = v := by simpa using heq
    exact h (RelocationContext.mem_relocatedSymbols_iff_redirections.mpr ⟨old, he⟩)
  rw [storage, hnone]
  rfl

theorem lastUse_reload_eq (k : Key) :
    (s.reload r).lastUse k =
      ((r.newProgram.symbols.vars.find? fun u => u.key = k).map (s.storage r)).or (s.lastUse k) := by
  have hversion : ((r.newProgram.symbols.vars.map fun v => (v, s.storage r v)).find?
      fun use => use.1.key = k).map Prod.snd =
        (r.newProgram.symbols.vars.find? fun u => u.key = k).map (s.storage r) := by
    rw [List.find?_map, Option.map_map]
    rfl
  rw [← hversion]
  change (_ :: s.versions).findSome? _ = _
  rw [List.findSome?_cons]
  split
  · rename_i b hb
    rw [hb, Option.some_or]
  · rename_i hb
    rw [hb, Option.none_or]
    rfl

theorem lastUse_reload (hr : s.Unambiguous r) {v : Symbol}
    (hv : v ∈ r.newProgram.symbols.vars) :
    (s.reload r).lastUse v.key = some (s.storage r v) := by
  have hfind : r.newProgram.symbols.vars.find? (fun u => u.key = v.key) = some v := by
    rw [← List.head?_filter]
    exact congrArg List.head? (hr.own v hv)
  rw [lastUse_reload_eq, hfind]
  rfl

theorem lastUse_reload_of_forall_ne {k : Key}
    (hk : ∀ v ∈ r.newProgram.symbols.vars, v.key ≠ k) :
    (s.reload r).lastUse k = s.lastUse k := by
  have hfind : r.newProgram.symbols.vars.find? (fun u => u.key = k) = none := by
    simpa using hk
  rw [lastUse_reload_eq, hfind]
  rfl

/-! ## The storage of the newest code -/

theorem exists_cons_of_mem {u : Symbol} {l : List Symbol} (h : u ∈ l) :
    ∃ v rest, l = v :: rest ∧ (rest = [] → u = v) := by
  obtain ⟨v, rest, rfl⟩ := List.exists_cons_of_ne_nil (List.ne_nil_of_mem h)
  refine ⟨v, rest, rfl, ?_⟩
  rintro rfl
  exact List.mem_singleton.mp h

theorem tracked_initial (programs : List Program) (memory : ProcessMemory) :
    (initial programs memory).Tracked := by
  intro k old hold
  refine exists_cons_of_mem ?_
  obtain ⟨version, hversion, huse⟩ := List.exists_of_findSome?_eq_some hold
  obtain ⟨use, hfind, rfl⟩ := Option.map_eq_some_iff.mp huse
  obtain ⟨prog, hprog, rfl⟩ : ∃ prog ∈ programs,
      (prog.symbols.vars.map fun v => (v, v)) = version := by
    simpa [initial] using hversion
  obtain ⟨v, hv, rfl⟩ := List.mem_map.mp (List.mem_of_find?_eq_some hfind)
  obtain rfl : v.key = k := by simpa using List.find?_some hfind
  exact mem_answering.mpr ⟨List.mem_flatMap.mpr ⟨prog, hprog, hv⟩, answers_key v⟩

theorem withKey_append (k : Key) (vars vars' : List Symbol) :
    withKey k (vars ++ vars') = withKey k vars ++ withKey k vars' :=
  List.filter_append ..

theorem Tracked.reload (hs : s.Tracked) (hr : s.Unambiguous r) : (s.reload r).Tracked := by
  intro k old hold
  rw [listed_reload, answering_append]
  by_cases hk : ∃ v ∈ r.newProgram.symbols.vars, v.key = k
  · obtain ⟨v, hv, rfl⟩ := hk
    rw [lastUse_reload hr hv, Option.some.injEq] at hold
    by_cases hrelocated : v ∈ (s.relocationContext r).relocatedSymbols s.memory r.relocs
    · rw [storage_of_relocated hr hrelocated]
      exact ⟨s.storage r v, _, rfl, fun _ => hold.symm⟩
    · rw [storage_of_not_relocated hrelocated] at hold
      subst hold
      have hremaining := withKey_remaining hr hv
      rw [if_neg hrelocated] at hremaining
      have hmem : v ∈ s.remaining r :=
        (mem_withKey.mp (hremaining ▸ List.mem_singleton_self v)).1
      exact exists_cons_of_mem
        (List.mem_append_right _ (mem_answering.mpr ⟨hmem, answers_key v⟩))
  · have hne : ∀ v ∈ r.newProgram.symbols.vars, v.key ≠ k := fun v hv hkey => hk ⟨v, hv, hkey⟩
    rw [lastUse_reload_of_forall_ne hne] at hold
    obtain ⟨u, rest, hlist, hrest⟩ := hs k old hold
    rw [hlist]
    exact ⟨u, _, rfl, fun hnil => hrest (List.append_eq_nil_iff.mp hnil).1⟩

/-- With at most one listed variable answering to it, the old variable of a new one is
the storage of the newest code. -/
theorem Tracked.answering_eq (hs : s.Tracked) (hr : s.Unambiguous r) {v old : Symbol}
    (hv : v ∈ r.newProgram.symbols.vars) (hold : s.lastUse v.key = some old) :
    answering v.key (listed s.programs) = [old] := by
  obtain ⟨u, rest, hlist, hrest⟩ := hs v.key old hold
  have hlength := hr.loaded v hv
  rw [hlist, List.length_cons] at hlength
  have hnil : rest = [] := List.eq_nil_of_length_eq_zero (by omega)
  rw [hlist, hnil, hrest hnil]

/-! ## The content of the variables -/

/-- The relocations leave the variables listed so far alone. -/
theorem relocations_memory (hlayout : s.Layout r) {u : Symbol} (hu : u ∈ listed s.programs)
    {a : Address} (ha : Within u.runtimeAddress u.size a) :
    (linkTimeRelocations (s.relocationContext r) r.relocs s.memory).1 a = s.memory a := by
  refine stateAfter_of_not_within ?_
  intro reloc hreloc target htarget hwithin
  exact hlayout.code_apart_listed reloc hreloc target htarget u hu a hwithin ha

/-- So does the copying of any of the new variables. -/
theorem copy_memory (hlayout : s.Layout r) {u : Symbol} (hu : u ∈ listed s.programs)
    {a : Address} (ha : Within u.runtimeAddress u.size a) {vars : List Symbol}
    (hvars : ∀ v ∈ vars, v ∈ r.newProgram.symbols.vars) (c : CopyState) :
    (vars.foldl (copyVariable s.programs) c).memory a = c.memory a := by
  refine foldl_copyVariable_of_not_within ?_
  intro v hv hwithin
  exact hlayout.new_apart_listed v (hvars v hv) u hu a hwithin ha

theorem reload_memory : (s.reload r).memory =
    ((s.remaining r).foldl (copyVariable s.programs)
      { memory := (linkTimeRelocations (s.relocationContext r) r.relocs s.memory).1 }).memory :=
  rfl

/-- The only variable of its key stands in a list once. -/
theorem notMem_of_withKey_eq {v : Symbol} {pre post : List Symbol}
    (h : withKey v.key (pre ++ v :: post) = [v]) : v ∉ post := by
  intro hmem
  have hcons : withKey v.key (v :: post) = v :: withKey v.key post := by
    simp [withKey]
  have hcount : (withKey v.key (pre ++ v :: post)).count v = 1 := by
    rw [h, List.count_singleton_self]
  rw [withKey_append, hcons, List.count_append, List.count_cons_self] at hcount
  have hone : 0 < (withKey v.key post).count v :=
    List.count_pos_iff.mpr (mem_withKey.mpr ⟨hmem, rfl⟩)
  omega

/-- The content of a copied variable is that of the old one. -/
theorem copied_memory (hlayout : s.Layout r) (hr : s.Unambiguous r) {v old : Symbol}
    (hv : v ∈ r.newProgram.symbols.vars) (hanswering : answering v.key (listed s.programs) = [old])
    (hrelocated : v ∉ (s.relocationContext r).relocatedSymbols s.memory r.relocs) {o : Address}
    (ho : o.toNat < min v.size old.size) :
    (s.reload r).memory (v.runtimeAddress + o) = s.memory (old.runtimeAddress + o) := by
  have hkeys := withKey_remaining hr hv
  rw [if_neg hrelocated] at hkeys
  have hremaining : v ∈ s.remaining r :=
    (mem_withKey.mp (hkeys ▸ List.mem_singleton_self v)).1
  obtain ⟨pre, post, hsplit⟩ := List.append_of_mem hremaining
  have hsub : ∀ w ∈ pre ++ v :: post, w ∈ r.newProgram.symbols.vars :=
    fun w hw => remaining_subset (hsplit ▸ hw)
  have hpost : v ∉ post := notMem_of_withKey_eq (hsplit ▸ hkeys)
  have hold : old ∈ listed s.programs :=
    (mem_answering.mp (hanswering ▸ List.mem_singleton_self old)).1
  have hwithin : Within old.runtimeAddress old.size (old.runtimeAddress + o) :=
    (within_add _ _ _).mpr (lt_of_lt_of_le ho (Nat.min_le_right _ _))
  have hfound : oldVariable s.programs v.name v.hash = some old := by
    rw [oldVariable_eq_head, ← Symbol.key, hanswering, List.head?_cons]
  rw [reload_memory, hsplit, List.foldl_append, List.foldl_cons]
  calc _ = _ := foldl_copyVariable_of_not_within ?_
    _ = _ := by
      rw [copyVariable, hfound]
      dsimp only
      rw [if_neg (hlayout.listed_ne_null old hold)]
      exact Memory.copy_within _ _ _ ho
    _ = _ := copy_memory hlayout hold hwithin (fun w hw => hsub w (List.mem_append_left _ hw)) _
    _ = _ := relocations_memory hlayout hold hwithin
  intro w hw hwithin'
  have hne : v ≠ w := fun heq => hpost (heq ▸ hw)
  refine hlayout.new_apart_new v hv w
    (hsub w (List.mem_append_right _ (List.mem_cons_of_mem _ hw))) hne _ ?_ hwithin'
  exact (within_add _ _ _).mpr (lt_of_lt_of_le ho (Nat.min_le_left _ _))

theorem Tracked.keeps_values (hs : s.Tracked) (hlayout : s.Layout r) (hr : s.Unambiguous r) :
    s.Survives r := by
  intro v hv old hold
  have hanswering := hs.answering_eq hr hv hold
  refine ⟨s.storage r v, lastUse_reload hr hv, ?_⟩
  intro o ho
  by_cases hrelocated : v ∈ (s.relocationContext r).relocatedSymbols s.memory r.relocs
  · have hstorage : s.storage r v = old := by
      have h := storage_of_relocated hr hrelocated
      rw [hanswering] at h
      exact (List.cons.inj h).1.symm
    have hmem : old ∈ listed s.programs :=
      (mem_answering.mp (hanswering ▸ List.mem_singleton_self old)).1
    have hwithin : Within old.runtimeAddress old.size (old.runtimeAddress + o) :=
      (within_add _ _ _).mpr (lt_of_lt_of_le ho (Nat.min_le_right _ _))
    rw [hstorage, reload_memory, copy_memory hlayout hmem hwithin fun w hw => remaining_subset hw]
    exact relocations_memory hlayout hmem hwithin
  · rw [storage_of_not_relocated hrelocated]
    exact copied_memory hlayout hr hv hanswering hrelocated ho

end StaticState

/-- The states reached by reloads that satisfy `P`, with arbitrary writes of the live
code in between. -/
inductive Reloads (P : StaticState → ReloadInput → Prop) : StaticState → Prop
  | start (programs : List Program) (memory : ProcessMemory) :
      Reloads P (.initial programs memory)
  | write {s : StaticState} (h : Reloads P s) (memory : ProcessMemory) :
      Reloads P { s with memory }
  | reload {s : StaticState} (h : Reloads P s) (r : ReloadInput) (hr : P s r) :
      Reloads P (s.reload r)

/-- A reload as the loader promises it, with unambiguous variables. -/
def StaticState.Sound (s : StaticState) (r : ReloadInput) : Prop := s.Layout r ∧ s.Unambiguous r

theorem Reloads.tracked {s : StaticState} (h : Reloads StaticState.Sound s) : s.Tracked := by
  induction h with
  | start programs memory => exact StaticState.tracked_initial programs memory
  | write _ memory ih => exact ih
  | reload _ r hr ih => exact ih.reload hr.2

/-- The static state survives every reload of a run of sound reloads. -/
theorem Reloads.survives {s : StaticState} (h : Reloads StaticState.Sound s) {r : ReloadInput}
    (hr : s.Sound r) : s.Survives r :=
  h.tracked.keeps_values hr.1 hr.2

/-! ## A variable that is redirected, and then copied -/

/-- A global variable. Any hash finds it. -/
def total (address : Address) : Symbol := ⟨"total", 4, address, 0, false⟩

/-- A new program with the variable at `address`. If its code in front of the variable refers to it,
then by a relocation with the hash of the object file, as on macOS. -/
def totalInput (address : Address) (refers : Bool) : ReloadInput where
  arch := .x86_64
  newProgram :=
    { symbols :=
      { functions := [{ name := "step", size := 64, runtimeAddress := address - 0x100 }]
        vars := [total address] } }
  relocs := if refers then [⟨"step", 0, 16, "total", 9, 4, 0⟩] else []
  status _ := 0

theorem totalInput_sound {s : StaticState} (hlisted : listed s.programs = [total 0x1000])
    {address : Address} (refers : Bool) (hvariable : Apart address 4 0x1000 4)
    (hcode : Apart (address - 0x100 + 16) 4 0x1000 4) : s.Sound (totalInput address refers) := by
  have hrelocs : ∀ reloc ∈ (totalInput address refers).relocs,
      reloc = ⟨"step", 0, 16, "total", 9, 4, 0⟩ := by
    cases refers <;> simp [totalInput]
  have hnew : ∀ v ∈ (totalInput address refers).newProgram.symbols.vars, v = total address :=
    fun v hv => List.mem_singleton.mp hv
  refine ⟨⟨?_, ?_, ?_, ?_⟩, ?_, ?_, ?_⟩
  · rw [hlisted]
    decide
  · rw [hlisted]
    intro v hv u hu
    rw [hnew v hv, List.mem_singleton.mp hu]
    exact hvariable
  · intro v hv w hw hne
    exact absurd ((hnew v hv).trans (hnew w hw).symm) hne
  · rw [hlisted]
    intro reloc hreloc target htarget u hu
    rw [hrelocs reloc hreloc] at htarget ⊢
    obtain rfl := List.mem_singleton.mp (List.mem_of_find?_eq_some htarget)
    rw [List.mem_singleton.mp hu]
    exact hcode
  · intro v hv
    rw [hnew v hv]
    simp [totalInput, withKey]
  · rw [hlisted]
    intro v hv
    rw [hnew v hv]
    exact (by decide : (answering ("total", 0) [total 0x1000]).length ≤ 1)
  · rw [hlisted]
    intro reloc hreloc v hv u hu
    have hv' := hnew v (RelocationContext.mem_vars_of_names hv)
    rw [hv', hrelocs reloc hreloc, List.mem_singleton.mp hu]
    exact (by decide : (total 0x1000).answers "total" 9 ↔ (total 0x1000).answers "total" 0)

/-- The variable is at `0x1000` and has the value `3`. -/
def totalStart : StaticState :=
  .initial [(totalInput 0x1000 false).newProgram] fun a => if a = 0x1000 then 3 else 0

/-- The state after a reload of code that refers to the variable, and after this code has written
`5`. The reference was redirected, so it has written to `0x1000`. -/
def totalRedirected : StaticState :=
  { totalStart.reload (totalInput 0x2000 true) with memory := fun a => if a = 0x1000 then 5 else 0 }

/-- The next program has no reference to the variable, which is then copied. -/
theorem totalRedirected_survives :
    totalRedirected.lastUse ("total", 0) = some (total 0x1000) ∧
      totalRedirected.Survives (totalInput 0x3000 false) ∧
      (totalRedirected.reload (totalInput 0x3000 false)).memory 0x3000 = 5 := by
  have hstart : totalStart.Sound (totalInput 0x2000 true) :=
    totalInput_sound rfl true (apart_of_le (by decide) (by decide)).symm
      (apart_of_le (by decide) (by decide)).symm
  have hredirected : totalRedirected.Sound (totalInput 0x3000 false) :=
    totalInput_sound (by decide +kernel) false (apart_of_le (by decide) (by decide)).symm
      (apart_of_le (by decide) (by decide)).symm
  refine ⟨by decide +kernel, ?_, by decide +kernel⟩
  exact Reloads.survives (.write (.reload (.start _ _) _ hstart) _) hredirected

/-! ## A variable that is copied twice -/

/-- A program with one variable at `address`, and no relocations to it. -/
def counterInput (address : Address) : ReloadInput where
  arch := .x86_64
  newProgram := { symbols := { vars := [counter address] } }
  relocs := []
  status _ := 0

/-- Reload a program whose variable lies behind those loaded so far. -/
theorem counterInput_layout {s : StaticState} (addresses : List Address)
    (hlisted : listed s.programs = addresses.map counter) {address : Address}
    (h : ∀ a ∈ addresses, a ≠ 0 ∧ Apart address 4 a 4) : s.Layout (counterInput address) := by
  have hmem : ∀ u ∈ listed s.programs, ∃ a ∈ addresses, u = counter a := by
    intro u hu
    rw [hlisted] at hu
    obtain ⟨a, ha, rfl⟩ := List.mem_map.mp hu
    exact ⟨a, ha, rfl⟩
  refine ⟨?_, ?_, ?_, by simp [counterInput]⟩
  · intro u hu
    obtain ⟨a, ha, rfl⟩ := hmem u hu
    exact (h a ha).1
  · intro v hv u hu
    obtain ⟨a, ha, rfl⟩ := hmem u hu
    rw [List.mem_singleton.mp hv]
    exact (h a ha).2
  · intro v hv w hw hne
    exact absurd ((List.mem_singleton.mp hv).trans (List.mem_singleton.mp hw).symm) hne

/-- The state after start-up with one variable at `0x1000`. -/
def counterStart : StaticState :=
  .initial [(counterInput 0x1000).newProgram] fun _ => 0

theorem counterStart_layout : counterStart.Layout (counterInput 0x2000) := by
  refine counterInput_layout [0x1000] rfl ?_
  intro a ha
  rw [List.mem_singleton.mp ha]
  exact ⟨by decide, (apart_of_le (by decide) (by decide)).symm⟩

/-- The state after a reload that has copied the variable to `0x2000`, and after the new
code has changed it there. -/
def counterWritten : StaticState :=
  { counterStart.reload (counterInput 0x2000) with
    memory := fun a => if a = 0x2000 then 5 else 0 }

/-- The second reload copies the content of the variable of the oldest program, which
nobody uses any more. -/
theorem counterWritten_not_survives :
    Reloads StaticState.Layout counterWritten ∧
      counterWritten.Layout (counterInput 0x3000) ∧
      ¬ counterWritten.Survives (counterInput 0x3000) := by
  refine ⟨?_, ?_, ?_⟩
  · exact .write (.reload (.start _ _) _ counterStart_layout) _
  · refine counterInput_layout [0x1000, 0x2000] (by decide +kernel) ?_
    intro a ha
    rcases List.mem_pair.mp ha with rfl | rfl
    · exact ⟨by decide, (apart_of_le (by decide) (by decide)).symm⟩
    · exact ⟨by decide, (apart_of_le (by decide) (by decide)).symm⟩
  · intro h
    obtain ⟨new, hnew, hcontent⟩ := h (counter 0x3000) List.mem_cons_self (counter 0x2000)
      (by decide +kernel)
    obtain rfl : counter 0x3000 = new := by
      have hlast : (counterWritten.reload (counterInput 0x3000)).lastUse (counter 0x3000).key =
          some (counter 0x3000) := by
        decide +kernel
      exact Option.some_injective _ (hlast.symm.trans hnew)
    have hzero := hcontent 0 (by decide)
    revert hzero
    decide +kernel

end JetLive

import JetLive.Reload.Transfer

/-!
# Copying statics

The last step of a reload copies the content of the variables that are still
listed by the new program. Like the relocations it takes the variable of the
oldest loaded program that answers to the name and the hash. Outside of the
patched fields and of the storage of the new variables neither step changes the
memory.
-/

namespace JetLive

open ByteMemory

/-- The state of the loop over the variables of the new program. -/
structure CopyState where
  memory : ProcessMemory
  copiedVars : ℕ := 0
  logs : List LogEntry := []

def copyVariable (programs : List Program) (s : CopyState) (sym : Symbol) : CopyState :=
  match oldVariable programs sym.name sym.hash with
  | none => s
  | some old =>
      if old.runtimeAddress = 0 then s
      else
        { memory := s.memory.copy sym.runtimeAddress old.runtimeAddress (min sym.size old.size)
          copiedVars := s.copiedVars + 1
          logs := s.logs ++ [.log .kDebug (sym.name ++ " was copied")] }

/-- `StaticsCopyStep::reload`: the memory and the log entries. -/
def staticsCopy (programs : List Program) (newProgram : Program) (mem : ProcessMemory) :
    ProcessMemory × List LogEntry :=
  let final := newProgram.symbols.vars.foldl (copyVariable programs) { memory := mem }
  (final.memory,
   [.log .kDebug "Copying statics from old code to new one..."] ++ final.logs ++
     [.log .kDebug ("Done, copied: " ++ toString final.copiedVars ++ "/"
       ++ toString newProgram.symbols.vars.length)])

/-! ## Where the steps write -/

theorem copyVariable_of_not_within {programs : List Program} {s : CopyState} {sym : Symbol}
    {a : Address} (h : ¬ Within sym.runtimeAddress sym.size a) :
    (copyVariable programs s sym).memory a = s.memory a := by
  unfold copyVariable
  split
  · rfl
  · split
    · rfl
    · refine Memory.copy_of_not_within _ _ _ ?_
      exact fun hwithin => h (hwithin.mono (Nat.min_le_left _ _))

theorem foldl_copyVariable_of_not_within {programs : List Program} {vars : List Symbol}
    {s : CopyState} {a : Address} (h : ∀ v ∈ vars, ¬ Within v.runtimeAddress v.size a) :
    (vars.foldl (copyVariable programs) s).memory a = s.memory a := by
  induction vars generalizing s with
  | nil => rfl
  | cons v vars ih =>
      obtain ⟨hv, hvars⟩ := List.forall_mem_cons.mp h
      rw [List.foldl_cons, ih hvars, copyVariable_of_not_within hv]

/-- Only the field of a relocation is patched. -/
theorem turn_of_not_within {x : RelocationContext} {s : RelocationState} {reloc : Relocation}
    {a : Address}
    (h : ∀ target, findFunction x.newProgram.symbols reloc.targetSymbolName
      reloc.targetSymbolHash = some target → ¬ Within (target.runtimeAddress +
        reloc.relocationOffsetRelativeTargetSymbolAddress) reloc.size a) :
    (x.turn s reloc).memory a = s.memory a := by
  unfold RelocationContext.turn RelocationContext.applyRelocation
  cases hcheck : checkRelocation x.arch x.programs x.newProgram.symbols s.memory reloc with
  | error logs => rfl
  | ok patch =>
      obtain ⟨target, old, htarget, _, _, hsize, haddress, hpatch⟩ := checkRelocation_ok hcheck
      cases hfield : patch.field with
      | none => simp [hfield]
      | some field =>
          obtain ⟨n, v⟩ := field
          simp only [hfield]
          split
          · have hn := patchField_le hsize (hfield ▸ hpatch)
            refine Memory.writeWord_of_not_within _ v ?_
            rw [haddress]
            exact fun hwithin => h target htarget (hwithin.mono hn)
          · rfl

theorem foldl_turn_of_not_within {x : RelocationContext} {relocs : List Relocation} {a : Address}
    (h : ∀ reloc ∈ relocs, ∀ target, findFunction x.newProgram.symbols reloc.targetSymbolName
      reloc.targetSymbolHash = some target → ¬ Within (target.runtimeAddress +
        reloc.relocationOffsetRelativeTargetSymbolAddress) reloc.size a) (s : RelocationState) :
    (relocs.foldl x.turn s).memory a = s.memory a := by
  induction relocs generalizing s with
  | nil => rfl
  | cons reloc relocs ih =>
      obtain ⟨hreloc, hrelocs⟩ := List.forall_mem_cons.mp h
      rw [List.foldl_cons, ih hrelocs, turn_of_not_within hreloc]

theorem stateAfter_of_not_within {x : RelocationContext} {mem : ProcessMemory}
    {relocs : List Relocation} {a : Address}
    (h : ∀ reloc ∈ relocs, ∀ target, findFunction x.newProgram.symbols reloc.targetSymbolName
      reloc.targetSymbolHash = some target → ¬ Within (target.runtimeAddress +
        reloc.relocationOffsetRelativeTargetSymbolAddress) reloc.size a) :
    (x.stateAfter mem relocs).memory a = mem a :=
  foldl_turn_of_not_within h { memory := mem }

/-! ## Finding the old variable -/

/-- The variables that the loaded programs list, the oldest program first. -/
def listed (programs : List Program) : List Symbol :=
  programs.flatMap fun prog => prog.symbols.vars

/-- The variables among the given ones that answer to a name and hash. -/
def answering (k : Key) (vars : List Symbol) : List Symbol :=
  vars.filter fun u => u.answers k.1 k.2

theorem mem_answering {u : Symbol} {k : Key} {vars : List Symbol} :
    u ∈ answering k vars ↔ u ∈ vars ∧ u.answers k.1 k.2 := by
  simp [answering]

theorem answering_append (k : Key) (vars vars' : List Symbol) :
    answering k (vars ++ vars') = answering k vars ++ answering k vars' :=
  List.filter_append ..

/-- The old variable is the first listed one that answers. -/
theorem oldVariable_eq_head (programs : List Program) (name : String) (hash : UInt64) :
    oldVariable programs name hash = (answering (name, hash) (listed programs)).head? := by
  rw [answering, List.head?_filter, listed, List.find?_flatMap]
  rfl

/-- A variable answers to its own name and hash. -/
theorem answers_key (v : Symbol) : v.answers v.key.1 v.key.2 := by
  rw [Symbol.answers_iff]
  exact ⟨rfl, fun _ => rfl⟩

end JetLive

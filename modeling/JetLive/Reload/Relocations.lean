import JetLive.Library.Loop
import JetLive.Library.Memory
import JetLive.Utility

/-!
# Link-time relocations

The first step of a reload: every relocation of the new objects that refers to a
variable which a loaded program already has is redirected to the variable of the
oldest such program, by patching the code of the new program; the redirected
variables are then removed from the new program, so that their content is not
copied.

`checkRelocation` is everything a relocation has to pass before its code is
patched. It either gives up, with its log entries, or gives the variable and the
bytes to write. On `aarch64` the bytes depend on the instruction found in memory,
and a relocation of an unknown type passes without a patch.
-/

namespace JetLive

open ByteMemory Loop

inductive Architecture
  | x86_64
  | aarch64
  deriving DecidableEq, Repr

abbrev ProcessMemory := Memory 64

/-- The types of relocations known on `aarch64`, as the numbers of `mach-o`. -/
def arm64RelocUnsigned : ℕ := 0

@[inherit_doc arm64RelocUnsigned] def arm64RelocPage21 : ℕ := 3

@[inherit_doc arm64RelocUnsigned] def arm64RelocPageoff12 : ℕ := 4

/-- The variable of the oldest loaded program that answers to a name and a hash. -/
def oldVariable (programs : List Program) (name : String) (hash : UInt64) : Option Symbol :=
  programs.findSome? fun prog => findVariable prog.symbols name hash

/-- A passed relocation: the variable of the new program and the field to patch, if
any, with its size in bytes and its new content. -/
structure Patch where
  symbol : Symbol
  address : Address
  field : Option (ℕ × ℕ)

/-- The new immediate of an `adrp` instruction. -/
def page21 (instr : BitVec 32) (old relocAddress : Address) : BitVec 32 :=
  let pageDiff := (old &&& ~~~0xFFF#64) - (relocAddress &&& ~~~0xFFF#64)
  let newImm := (pageDiff.sshiftRight 12).truncate 32
  let immlo := (newImm &&& 0x3#32) <<< 29
  let immhi := (newImm &&& 0x1FFFFC#32) <<< 3
  let instr := (instr &&& ~~~0x60000000#32) ||| immlo
  (instr &&& ~~~0x00FFFFE0#32) ||| immhi

/-- The new immediate of a load, store or add instruction, if it is one. -/
def pageoff12 (instr : BitVec 32) (old : Address) : Option (BitVec 32) :=
  let offset := (old &&& 0xFFF#64).truncate 32
  let opcode := instr &&& 0xFF000000#32
  let opcode2 := instr &&& 0xFFC00000#32
  let replace (scale : ℕ) : BitVec 32 :=
    (instr &&& ~~~0x003FFC00#32) ||| ((offset >>> scale) <<< 10)
  if opcode2 &&& 0x3B000000#32 = 0x39000000#32 then
    some (replace ((instr >>> 30) &&& 0x3#32).toNat)
  else if opcode &&& 0x7F800000#32 = 0x11000000#32 then
    some (replace ((instr &&& 0x00C00000#32) >>> 22).toNat)
  else if opcode2 &&& 0x3F800000#32 = 0x38000000#32 then
    some (replace ((instr &&& 0xC0000000#32) >>> 30).toNat)
  else none

/-- The field a relocation writes. The first case of each architecture is the field
of four bytes; a field of eight bytes takes differences of 32-bit addresses too. -/
def patchField (arch : Architecture) (mem : ProcessMemory) (reloc : Relocation)
    (relocAddress old new : Address) : Except (List LogEntry) (Option (ℕ × ℕ)) :=
  match arch with
  | .x86_64 =>
      if reloc.size = 4 then
        .ok (some (4, (BitVec.ofNat 32 (mem.readWord relocAddress 4) + old.truncate 32
          - new.truncate 32).toNat))
      else
        .ok (some (8, (BitVec.ofNat 64 (mem.readWord relocAddress 8)
          + (old.truncate 32).signExtend 64 - (new.truncate 32).signExtend 64).toNat))
  | .aarch64 =>
      let instr := BitVec.ofNat 32 (mem.readWord relocAddress 4)
      if reloc.type = arm64RelocUnsigned then
        .ok (some (reloc.size, old.toNat % 256 ^ reloc.size))
      else if reloc.type = arm64RelocPage21 then
        .ok (some (4, (page21 instr old relocAddress).toNat))
      else if reloc.type = arm64RelocPageoff12 then
        match pageoff12 instr old with
        | some instr => .ok (some (4, instr.toNat))
        | none => .error [.log .kError
            ("Unsupported instruction type for PAGEOFF12 relocation: 0x" ++ toString instr.toNat)]
      else .ok none

/-- The largest distance between the two variables a relocation can bridge. -/
def maxAllowedDistance (size : ℕ) : Option ℕ :=
  if size = 4 then some (2 ^ 31 - 1) else if size = 8 then some (2 ^ 63 - 1) else none

def checkRelocation (arch : Architecture) (programs : List Program) (symbols : Symbols)
    (mem : ProcessMemory) (reloc : Relocation) : Except (List LogEntry) Patch :=
  match findFunction symbols reloc.targetSymbolName reloc.targetSymbolHash with
  | none => .error [.log .kError
      ("targetSymbol not found: " ++ reloc.targetSymbolName ++ " "
        ++ toString reloc.targetSymbolHash)]
  | some targetSymbol =>
    match findVariable symbols reloc.relocationSymbolName reloc.relocationSymbolHash with
    | none => .error [.log .kError
        ("relocSymbol not found: " ++ reloc.relocationSymbolName ++ " "
          ++ toString reloc.relocationSymbolHash)]
    | some relocSymbol =>
      match oldVariable programs reloc.relocationSymbolName reloc.relocationSymbolHash with
      | none => .error []
      | some oldVar =>
        match maxAllowedDistance reloc.size with
        | none => .error [.log .kError "LinkTimeRelocationsStep: WTF"]
        | some maxDistance =>
          if maxDistance < (oldVar.runtimeAddress - relocSymbol.runtimeAddress).toInt.natAbs then
            .error [.log .kWarning ("Cannot apply relocation for " ++ relocSymbol.name
              ++ ", distance doesn't fit into max allowed distance")]
          else
            let relocAddress := targetSymbol.runtimeAddress
              + reloc.relocationOffsetRelativeTargetSymbolAddress
            (patchField arch mem reloc relocAddress oldVar.runtimeAddress
              relocSymbol.runtimeAddress).map fun field => ⟨relocSymbol, relocAddress, field⟩

theorem size_of_maxAllowedDistance {size maxDistance : ℕ}
    (h : maxAllowedDistance size = some maxDistance) : size = 4 ∨ size = 8 := by
  unfold maxAllowedDistance at h
  split at h
  · exact Or.inl ‹_›
  · split at h
    · exact Or.inr ‹_›
    · simp at h

/-- What a relocation that passes the checks has found. -/
theorem checkRelocation_ok {arch : Architecture} {programs : List Program} {symbols : Symbols}
    {mem : ProcessMemory} {reloc : Relocation} {patch : Patch}
    (h : checkRelocation arch programs symbols mem reloc = .ok patch) :
    ∃ target old,
      findFunction symbols reloc.targetSymbolName reloc.targetSymbolHash = some target ∧
      findVariable symbols reloc.relocationSymbolName reloc.relocationSymbolHash =
        some patch.symbol ∧
      oldVariable programs reloc.relocationSymbolName reloc.relocationSymbolHash = some old ∧
      (reloc.size = 4 ∨ reloc.size = 8) ∧
      patch.address =
        target.runtimeAddress + reloc.relocationOffsetRelativeTargetSymbolAddress ∧
      patchField arch mem reloc patch.address old.runtimeAddress
        patch.symbol.runtimeAddress = .ok patch.field := by
  unfold checkRelocation at h
  split at h
  · simp at h
  · rename_i target htarget
    split at h
    · simp at h
    · rename_i v hv
      split at h
      · simp at h
      · rename_i old hold
        split at h
        · simp at h
        · rename_i maxDistance hmax
          split at h
          · simp at h
          · have hsize := size_of_maxAllowedDistance hmax
            dsimp only at h
            cases hfield : patchField arch mem reloc
                (target.runtimeAddress + reloc.relocationOffsetRelativeTargetSymbolAddress)
                old.runtimeAddress v.runtimeAddress with
            | error e =>
                rw [hfield] at h
                simp [Except.map] at h
            | ok field =>
                rw [hfield] at h
                simp only [Except.map, Except.ok.injEq] at h
                subst h
                exact ⟨target, old, htarget, hv, hold, hsize, rfl, hfield⟩

/-- A patched field is not larger than the relocation. -/
theorem patchField_le {arch : Architecture} {mem : ProcessMemory} {reloc : Relocation}
    {relocAddress old new : Address} {n v : ℕ} (hsize : reloc.size = 4 ∨ reloc.size = 8)
    (h : patchField arch mem reloc relocAddress old new = .ok (some (n, v))) :
    n ≤ reloc.size := by
  cases arch with
  | x86_64 =>
      simp only [patchField] at h
      split at h
      · simp only [Except.ok.injEq, Option.some.injEq, Prod.mk.injEq] at h
        omega
      · simp only [Except.ok.injEq, Option.some.injEq, Prod.mk.injEq] at h
        omega
  | aarch64 =>
      simp only [patchField] at h
      split at h
      · simp only [Except.ok.injEq, Option.some.injEq, Prod.mk.injEq] at h
        omega
      · split at h
        · simp only [Except.ok.injEq, Option.some.injEq, Prod.mk.injEq] at h
          omega
        · split at h
          · split at h
            · simp only [Except.ok.injEq, Option.some.injEq, Prod.mk.injEq] at h
              omega
            · simp at h
          · simp at h

/-- What the relocations of one reload depend on: the processor, the loaded programs,
the new program and, for each relocation, the status of `DobbyCodePatch`, which writes the
field if the status is `0`. -/
structure RelocationContext where
  arch : Architecture
  programs : List Program
  newProgram : Program
  status : ℕ → ℤ

structure RelocationState where
  index : ℕ := 0
  memory : ProcessMemory
  logs : List LogEntry := []

namespace RelocationContext

variable (x : RelocationContext)

/-- One relocation: the state after it and the variable that was relocated, if the
relocation was applied. -/
def applyRelocation (s : RelocationState) (reloc : Relocation) :
    RelocationState × Option Symbol :=
  let s' := { s with index := s.index + 1 }
  match checkRelocation x.arch x.programs x.newProgram.symbols s.memory reloc with
  | .error logs => ({ s' with logs := s.logs ++ logs }, none)
  | .ok patch =>
      let logs := s.logs ++ [.log .kDebug (patch.symbol.name ++ " was relocated")]
      match patch.field with
      | none => ({ s' with logs }, some patch.symbol)
      | some (n, v) =>
          if x.status s.index = 0 then
            ({ s' with memory := s.memory.writeWord patch.address n v, logs }, some patch.symbol)
          else
            ({ s' with logs := s.logs ++ [.log .kError "relocation code patch failed"] }, none)

def turn (s : RelocationState) (reloc : Relocation) : RelocationState :=
  (x.applyRelocation s reloc).1

/-- The variable a relocation is applied to in the given state. -/
def applied (s : RelocationState) (reloc : Relocation) : Option Symbol :=
  (x.applyRelocation s reloc).2

/-- The state before the relocation that follows the given ones. -/
def stateAfter (mem : ProcessMemory) (relocs : List Relocation) : RelocationState :=
  relocs.foldl x.turn { memory := mem }

/-- The vector of the relocated variables, one for each applied relocation. -/
def relocatedSymbols (mem : ProcessMemory) (relocs : List Relocation) : List Symbol :=
  outputs x.turn x.applied { memory := mem } relocs

end RelocationContext

/-- The loop over the relocated variables, which removes from the new program the
first variable with the name and the hash of each of them. -/
def removeRelocated (vars relocated : List Symbol) : List Symbol :=
  relocated.foldl (fun vars s => vars.eraseP fun v => v.name = s.name ∧ v.hash = s.hash) vars

/-- `LinkTimeRelocationsStep::reload`, with the relocations of the new objects: the
memory, the new program and the log entries. -/
def linkTimeRelocations (x : RelocationContext) (relocs : List Relocation)
    (mem : ProcessMemory) : ProcessMemory × Program × List LogEntry :=
  let final := x.stateAfter mem relocs
  let relocated := x.relocatedSymbols mem relocs
  (final.memory,
   { x.newProgram with
     symbols := { x.newProgram.symbols with
       vars := removeRelocated x.newProgram.symbols.vars relocated } },
   [.log .kDebug "Loading link-time relocations..."] ++ final.logs ++
     [.log .kDebug ("Done, relocated: " ++ toString relocated.length ++ "/"
       ++ toString relocs.length)])

end JetLive

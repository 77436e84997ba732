import JetLive.Reload.PageReferences

/-!
# Variables that are transferred as a whole

Whether a relocation passes is decided in the loop, when the relocations before it have been
written. But all that it reads of the memory is the instruction of a page offset on `aarch64`, and
in the code of a compiler no two relocations write to one instruction. So the variables that are
transferred as a whole can be told from the relocations, the programs, the memory before the step
and the results of the code patches (`Uniform`).
-/

namespace JetLive

open ByteMemory

namespace RelocationContext

variable {x : RelocationContext} {mem : ProcessMemory} {relocs : List Relocation}

/-- On `aarch64` no relocation writes to the instruction of a page offset that comes after it. -/
def KeepsOffsets (x : RelocationContext) (relocs : List Relocation) : Prop :=
  x.arch = .aarch64 → ∀ pre reloc post, relocs = pre ++ reloc :: post →
    reloc.type = arm64RelocPageoff12 → ∀ target,
      findFunction x.newProgram.symbols reloc.targetSymbolName reloc.targetSymbolHash =
        some target → ∀ reloc' ∈ pre, x.Avoids reloc' (fieldAddress reloc target)

theorem KeepsOffsets.passes_iff (h : x.KeepsOffsets relocs) {pre post : List Relocation}
    {reloc : Relocation} (hsplit : relocs = pre ++ reloc :: post) :
    x.Passes (x.stateAfter mem pre) reloc ↔ x.Applicable mem pre.length reloc := by
  rw [← index_stateAfter x mem pre]
  refine passes_iff_applicable fun harch htype target htarget => ?_
  exact field32_foldl_turn (h harch pre reloc post hsplit htype target htarget) { memory := mem }

theorem getElem?_of_split {pre post : List Relocation} {reloc : Relocation}
    (h : relocs = pre ++ reloc :: post) : relocs[pre.length]? = some reloc := by
  rw [h, List.getElem?_append_right le_rfl, Nat.sub_self, List.getElem?_cons_zero]

theorem exists_split_of_getElem? {i : ℕ} {reloc : Relocation} (h : relocs[i]? = some reloc) :
    ∃ pre post, relocs = pre ++ reloc :: post ∧ pre.length = i := by
  obtain ⟨hi, rfl⟩ := List.getElem?_eq_some_iff.mp h
  refine ⟨relocs.take i, relocs.drop (i + 1), ?_, List.length_take_of_le hi.le⟩
  rw [← List.drop_eq_getElem_cons hi, List.take_append_drop]

theorem KeepsOffsets.passesWhole_iff_uniform (h : x.KeepsOffsets relocs) :
    x.PassesWhole mem relocs ↔ x.Uniform mem relocs := by
  constructor
  · rintro ⟨htogether, hsingle⟩
    refine ⟨fun i j reloc reloc' v hi hj hnames hnames' happlicable => ?_,
      fun i j reloc reloc' v hlt hi hj hnames hnames' happlicable happlicable' => ?_⟩
    · obtain ⟨pre, post, hsplit, rfl⟩ := exists_split_of_getElem? hi
      obtain ⟨pre', post', hsplit', rfl⟩ := exists_split_of_getElem? hj
      exact (h.passes_iff hsplit').mp (htogether pre reloc post pre' reloc' post' v hsplit hsplit'
        hnames hnames' ((h.passes_iff hsplit).mpr happlicable))
    · obtain ⟨pre', post, hsplit', rfl⟩ := exists_split_of_getElem? hj
      -- the first of the two stands in front of the second one
      obtain ⟨pre, mid, rfl, rfl⟩ : ∃ pre mid, pre' = pre ++ reloc :: mid ∧ pre.length = i := by
        refine exists_split_of_getElem? ?_
        rw [← hi, hsplit', List.getElem?_append_left hlt]
      have hsplit : relocs = pre ++ reloc :: (mid ++ reloc' :: post) := by
        rw [hsplit', List.append_assoc, List.cons_append]
      exact hsingle pre reloc mid reloc' post v hsplit hnames hnames'
        ((h.passes_iff hsplit).mpr happlicable) ((h.passes_iff hsplit').mpr happlicable')
  · rintro ⟨htogether, hsingle⟩
    refine ⟨fun pre reloc post pre' reloc' post' v hsplit hsplit' hnames hnames' hpass => ?_,
      fun pre reloc mid reloc' post v hsplit hnames hnames' hpass hpass' => ?_⟩
    · exact (h.passes_iff hsplit').mpr (htogether _ _ reloc reloc' v (getElem?_of_split hsplit)
        (getElem?_of_split hsplit') hnames hnames' ((h.passes_iff hsplit).mp hpass))
    · have hsplit' : relocs = (pre ++ reloc :: mid) ++ reloc' :: post := by
        rw [hsplit, List.append_assoc, List.cons_append]
      refine hsingle pre.length (pre ++ reloc :: mid).length reloc reloc' v ?_
        (getElem?_of_split hsplit) (getElem?_of_split hsplit') hnames hnames'
        ((h.passes_iff hsplit).mp hpass) ((h.passes_iff hsplit').mp hpass')
      rw [List.length_append, List.length_cons]
      omega

/-- The relocations transfer every variable as a whole exactly if those that name one variable can
be applied together or not at all, and do not remove another variable of its name and hash. -/
theorem transfersWhole_iff_uniform (hvars : TableOk x.newProgram.symbols.vars)
    (hkeeps : x.KeepsOffsets relocs) : x.TransfersWhole mem relocs ↔ x.Uniform mem relocs := by
  rw [transfersWhole_iff_passesWhole hvars, hkeeps.passesWhole_iff_uniform]

end RelocationContext

/-- A reload of code that uses one variable twice, with fields of eight and of four
bytes. The variable lies at `address` in the new program. -/
def counterReload (address : Address) : RelocationContext where
  arch := .x86_64
  programs := [{ symbols := { vars := [counter 0x1000] } }]
  newProgram :=
    { symbols :=
      { functions := [{ name := "step", size := 64, runtimeAddress := address - 0x1000 }]
        vars := [counter address] } }
  status _ := 0

def counterRelocations : List Relocation :=
  [⟨"step", 0, 16, "counter", 7, 8, 0⟩, ⟨"step", 0, 40, "counter", 7, 4, 0⟩]

theorem counterReload_tableOk (address : Address) :
    TableOk (counterReload address).newProgram.symbols.vars := by
  refine ⟨by simp [counterReload], ?_⟩
  intro v hv w hw _
  rw [List.mem_singleton.mp hv, List.mem_singleton.mp hw]

open RelocationContext in
/-- Near the old variable both fields can be redirected. -/
theorem counterReload_near_applicable (i : ℕ) {reloc : Relocation}
    (h : reloc ∈ counterRelocations) :
    (counterReload 0x10003000).Applicable (fun _ => 0) i reloc := by
  refine ⟨{ name := "step", size := 64, runtimeAddress := 0x10002000 }, counter 0x10003000,
    counter 0x1000, ?_, ?_, (fun harch => by cases harch), fun _ => rfl⟩
  · rcases List.mem_pair.mp h with rfl | rfl <;> constructor <;> decide +kernel
  · rcases List.mem_pair.mp h with rfl | rfl
    · exact ⟨2 ^ 63 - 1, rfl, by decide +kernel⟩
    · exact ⟨2 ^ 31 - 1, rfl, by decide +kernel⟩

/-- Both relocations are applied, and the variable is removed. -/
theorem counterReload_near_whole :
    (counterReload 0x10003000).Uniform (fun _ => 0) counterRelocations ∧
      (counterReload 0x10003000).TransfersWhole (fun _ => 0) counterRelocations ∧
      (linkTimeRelocations (counterReload 0x10003000) counterRelocations
        fun _ => 0).2.1.symbols.vars = [] := by
  have huniform : (counterReload 0x10003000).Uniform (fun _ => 0) counterRelocations := by
    refine ⟨fun i j reloc reloc' v _ hj _ _ _ => ?_,
      fun i j reloc reloc' v _ _ _ hv _ _ _ w hw _ => ?_⟩
    · exact counterReload_near_applicable j (List.mem_of_getElem? hj)
    · have hmem := RelocationContext.mem_vars_of_names hv
      rw [List.mem_singleton.mp hw, List.mem_singleton.mp hmem]
  refine ⟨huniform, ?_, by decide +kernel⟩
  exact (RelocationContext.transfersWhole_iff_uniform (counterReload_tableOk _)
    (fun harch => by cases harch)).mpr huniform

/-- Four gigabytes away from the old variable only the field of eight bytes is
redirected, and yet the variable is removed. -/
theorem counterReload_far_not_whole :
    ¬ (counterReload 0x100003000).TransfersWhole (fun _ => 0) counterRelocations := by
  intro h
  have hremoved : counter 0x100003000 ∉ (linkTimeRelocations
      (counterReload 0x100003000) counterRelocations fun _ => 0).2.1.symbols.vars := by
    decide +kernel
  have happlied := (h _ List.mem_cons_self hremoved).1 [⟨"step", 0, 16, "counter", 7, 8, 0⟩]
    ⟨"step", 0, 40, "counter", 7, 4, 0⟩ [] rfl (by decide +kernel)
  revert happlied
  decide +kernel

end JetLive

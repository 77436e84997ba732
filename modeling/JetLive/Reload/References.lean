import JetLive.Loader.ElfTargets
import JetLive.Reload.StaticState
import JetLive.Reload.WholeTransfer

/-!
# What the new code refers to

An instruction of the new code refers to a variable by a displacement, which the static linker has
computed from an entry of the object and which a reload may patch. `effectiveAddress` is the address
that the processor makes of it. From the object to the running code the reference goes through the
loader of the relocations, the patches and the copying of statics, and for each reference all of
them work together: after the reload the instruction addresses the storage that the state of the
statics says, and it finds the value there that the code before it has left
(`Reloads.references_find_values`).

This holds for displacements of four bytes on x86-64, if the symbol of the entry has the value `0`,
if the relocations to a variable pass or fail together, and if the old variables are in reach of
those that pass.
-/

namespace JetLive

open ByteMemory Words

namespace RelocationContext

/-- The address that an instruction refers to by the displacement at `a`, if so many bytes of it
follow the displacement. -/
def effectiveAddress (mem : ProcessMemory) (a : Address) (trailing : ℕ) : Address :=
  a + 4 + BitVec.ofNat 64 trailing + (field32 mem a).signExtend 64

theorem field32_congr {mem mem' : ProcessMemory} {a : Address}
    (h : ∀ b, Within a 4 b → mem b = mem' b) : field32 mem a = field32 mem' a := by
  have hword : mem.readWord a 4 = mem'.readWord a 4 := by
    refine Memory.readWord_congr fun i hi => h _ ?_
    rw [within_add, BitVec.toNat_ofNat]
    exact lt_of_le_of_lt (Nat.mod_le _ _) hi
  rw [field32, field32, hword]

variable (x : RelocationContext)

def Patches (reloc : Relocation) (target : Symbol) : Prop :=
  findFunction x.newProgram.symbols reloc.targetSymbolName reloc.targetSymbolHash = some target

def FieldsApart (relocs : List Relocation) : Prop :=
  relocs.Pairwise fun reloc reloc' => ∀ target target', x.Patches reloc target →
    x.Patches reloc' target' →
    Apart (fieldAddress reloc target) reloc.size (fieldAddress reloc' target') reloc'.size

/-- The displacement to the old variable fits into four bytes. -/
def Reaches (d : BitVec 32) (old new : Symbol) : Prop :=
  FitsInt 32 (d.toInt + (old.runtimeAddress - new.runtimeAddress).toInt)

variable {x} {s : RelocationState} {reloc : Relocation} {target new old : Symbol}
  {mem : ProcessMemory} {relocs pre post : List Relocation}

/-- The patch moves the address by the distance of the variables. -/
theorem effectiveAddress_turn (hx : x.arch = .x86_64) (hr : x.Resolves reloc target new old)
    (hsize : reloc.size = 4) (h : x.Passes s reloc)
    (hreach : Reaches (field32 s.memory (fieldAddress reloc target)) old new) (trailing : ℕ) :
    effectiveAddress (x.turn s reloc).memory (fieldAddress reloc target) trailing =
      effectiveAddress s.memory (fieldAddress reloc target) trailing +
        (old.runtimeAddress - new.runtimeAddress) := by
  have hpatch : patchField x.arch s.memory reloc (fieldAddress reloc target) old.runtimeAddress
      new.runtimeAddress = .ok (some (4, (field32 s.memory (fieldAddress reloc target) +
        old.runtimeAddress.truncate 32 - new.runtimeAddress.truncate 32).toNat)) := by
    rw [hx, patchField, hsize]
    rfl
  have hguard : FitsInt 32 (old.runtimeAddress - new.runtimeAddress).toInt := by
    obtain ⟨⟨maxDistance, hmax, hle⟩, _⟩ := (passes_iff hr).mp h
    rw [hsize, maxAllowedDistance, if_pos rfl] at hmax
    obtain rfl := Option.some.inj hmax
    constructor <;> omega
  have hexact := (signExtend_add_truncate_iff _ hguard).mpr hreach
  rw [truncate_sub, ← add_sub_assoc] at hexact
  rw [effectiveAddress, effectiveAddress, turn_of_passes hr h hpatch, field32_writeWord, hexact,
    ← add_assoc]

/-- Over the whole loop a displacement changes in the turn of its own relocation only. -/
theorem field32_of_fieldsApart (hapart : x.FieldsApart (pre ++ reloc :: post))
    (htarget : x.Patches reloc target) (hsize : reloc.size = 4) :
    field32 (x.stateAfter mem pre).memory (fieldAddress reloc target) =
        field32 mem (fieldAddress reloc target) ∧
      field32 (x.stateAfter mem (pre ++ reloc :: post)).memory (fieldAddress reloc target) =
        field32 (x.turn (x.stateAfter mem pre) reloc).memory (fieldAddress reloc target) := by
  obtain ⟨_, hpost, hpre⟩ := List.pairwise_append.mp hapart
  refine ⟨field32_foldl_turn (fun reloc' hreloc' target' htarget' => ?_) _,
    field32_stateAfter fun reloc' hreloc' target' htarget' => ?_⟩
  · exact hsize ▸ hpre reloc' hreloc' reloc List.mem_cons_self target' target htarget' htarget
  · exact hsize ▸ (List.rel_of_pairwise_cons hpost hreloc' target target' htarget htarget').symm

/-- The references of a relocation that passes are moved. -/
theorem effectiveAddress_of_passes (hx : x.arch = .x86_64)
    (hapart : x.FieldsApart (pre ++ reloc :: post)) (hr : x.Resolves reloc target new old)
    (hsize : reloc.size = 4) (h : x.Passes (x.stateAfter mem pre) reloc)
    (hreach : Reaches (field32 mem (fieldAddress reloc target)) old new) (trailing : ℕ) :
    effectiveAddress (x.stateAfter mem (pre ++ reloc :: post)).memory (fieldAddress reloc target)
        trailing =
      effectiveAddress mem (fieldAddress reloc target) trailing +
        (old.runtimeAddress - new.runtimeAddress) := by
  obtain ⟨hbefore, hafter⟩ := field32_of_fieldsApart hapart hr.target hsize
  have hturn := effectiveAddress_turn hx hr hsize h (hbefore.symm ▸ hreach) trailing
  rw [effectiveAddress, hafter, ← effectiveAddress, hturn, effectiveAddress, hbefore,
    ← effectiveAddress]

/-- Those of any other relocation are kept. -/
theorem effectiveAddress_of_not_passes (hapart : x.FieldsApart (pre ++ reloc :: post))
    (htarget : x.Patches reloc target) (hsize : reloc.size = 4)
    (h : ¬ x.Passes (x.stateAfter mem pre) reloc) (trailing : ℕ) :
    effectiveAddress (x.stateAfter mem (pre ++ reloc :: post)).memory (fieldAddress reloc target)
        trailing = effectiveAddress mem (fieldAddress reloc target) trailing := by
  obtain ⟨hbefore, hafter⟩ := field32_of_fieldsApart hapart htarget hsize
  rw [effectiveAddress, hafter, turn_of_not_passes h, hbefore, ← effectiveAddress]

end RelocationContext

/-! ## Reloads -/

namespace StaticState

open RelocationContext

variable (s : StaticState) (r : ReloadInput)

/-- A reload of code whose displacements can be patched: the fields lie apart from each other and
from the new variables, the relocations to a variable can all be applied or none of them, and the
old variables are in reach. -/
structure Patchable : Prop where
  arch : r.arch = .x86_64
  fields_apart : (s.relocationContext r).FieldsApart r.relocs
  fields_apart_new : ∀ reloc ∈ r.relocs, ∀ target, (s.relocationContext r).Patches reloc target →
    ∀ v ∈ r.newProgram.symbols.vars,
      Apart (fieldAddress reloc target) reloc.size v.runtimeAddress v.size
  uniform : (s.relocationContext r).Uniform s.memory r.relocs
  reaches : ∀ reloc ∈ r.relocs, ∀ target new old,
    (s.relocationContext r).Resolves reloc target new old → Bridges reloc old new →
    Reaches (field32 s.memory (fieldAddress reloc target)) old new

variable {s r} {reloc : Relocation} {target new : Symbol}

theorem Patchable.passesWhole (hp : s.Patchable r) :
    (s.relocationContext r).PassesWhole s.memory r.relocs := by
  have hkeeps : (s.relocationContext r).KeepsOffsets r.relocs :=
    fun harch => absurd (hp.arch.symm.trans harch) (by simp)
  exact hkeeps.passesWhole_iff_uniform.mpr hp.uniform

/-- The copying of statics does not touch the code. -/
theorem field32_reload (hp : s.Patchable r) (hreloc : reloc ∈ r.relocs)
    (htarget : (s.relocationContext r).Patches reloc target) (hsize : reloc.size = 4) :
    field32 (s.reload r).memory (fieldAddress reloc target) =
      field32 ((s.relocationContext r).stateAfter s.memory r.relocs).memory
        (fieldAddress reloc target) := by
  refine field32_congr fun b hb => ?_
  rw [reload_memory]
  refine foldl_copyVariable_of_not_within fun v hv hwithin => ?_
  exact hp.fields_apart_new reloc hreloc target htarget v (remaining_subset hv) b (hsize ▸ hb)
    hwithin

/-- A reference to a variable of the new program addresses the storage that the new code uses for
this variable. -/
theorem effectiveAddress_reload (hunambiguous : s.Unambiguous r) (hp : s.Patchable r)
    (hreloc : reloc ∈ r.relocs) (htarget : (s.relocationContext r).Patches reloc target)
    (hnew : (s.relocationContext r).Names reloc new) (hsize : reloc.size = 4) (trailing : ℕ) :
    effectiveAddress (s.reload r).memory (fieldAddress reloc target) trailing =
      effectiveAddress s.memory (fieldAddress reloc target) trailing +
        ((s.storage r new).runtimeAddress - new.runtimeAddress) := by
  obtain ⟨pre, post, hsplit⟩ := List.append_of_mem hreloc
  have hapart := hp.fields_apart
  rw [effectiveAddress, field32_reload hp hreloc htarget hsize, ← effectiveAddress]
  rw [hsplit] at hapart ⊢
  by_cases hpasses : (s.relocationContext r).Passes
      ((s.relocationContext r).stateAfter s.memory pre) reloc
  · obtain ⟨patch, hcheck, _⟩ := id hpasses
    obtain ⟨_, old, _, _, hold, _⟩ := checkRelocation_ok hcheck
    have hr : (s.relocationContext r).Resolves reloc target new old := ⟨htarget, hnew, hold⟩
    rw [storage_of_redirected hunambiguous
      (mem_redirections.mpr ⟨pre, reloc, post, hsplit, hnew, hpasses, hold⟩)]
    exact effectiveAddress_of_passes hp.arch hapart hr hsize hpasses
      (hp.reaches reloc hreloc target new old hr ((passes_iff hr).mp hpasses).1) trailing
  · have hkept : new ∉ (s.relocationContext r).relocatedSymbols s.memory r.relocs := by
      intro hrelocated
      obtain ⟨pre', reloc', post', hsplit', hnew', hpasses'⟩ := mem_relocatedSymbols.mp hrelocated
      exact hpasses (hp.passesWhole.together pre' reloc' post' pre reloc post new hsplit' hsplit
        hnew' hnew hpasses')
    rw [storage_of_not_relocated hkept, sub_self, add_zero]
    exact effectiveAddress_of_not_passes hapart htarget hsize hpasses trailing

end StaticState

/-! ## Linked objects -/

namespace ElfProgramInfoLoader

variable {stringHasher : String → UInt64}

theorem addEntry_symbolsSectionIndexes (s : ObjectScan) (entry : ElfEntry × ℕ) :
    (s.addEntry stringHasher entry).symbolsSectionIndexes =
      s.symbolsSectionIndexes.insert entry.2 entry.1.sectionIndex := by
  unfold ObjectScan.addEntry
  dsimp only
  split_ifs <;> rfl

/-- The section of a row is recorded under the number of the row. -/
theorem lookup_foldl_addEntry {j : ℕ} {row : ElfEntry} {entries : List (ElfEntry × ℕ)}
    (hrow : ∀ row', (row', j) ∈ entries → row' = row) (s : ObjectScan)
    (h : (row, j) ∈ entries ∨ s.symbolsSectionIndexes.lookup j = some row.sectionIndex) :
    (entries.foldl (ObjectScan.addEntry stringHasher) s).symbolsSectionIndexes.lookup j =
      some row.sectionIndex := by
  induction entries generalizing s with
  | nil => exact h.resolve_left List.not_mem_nil
  | cons entry entries ih =>
      refine ih (fun row' hrow' => hrow row' (List.mem_cons_of_mem _ hrow')) _ ?_
      rw [addEntry_symbolsSectionIndexes]
      by_cases hj : j = entry.2
      · have hentry := hrow entry.1 (hj ▸ List.mem_cons_self)
        right
        rw [hj, Finmap.lookup_insert, hentry]
      · rw [Finmap.lookup_insert_of_ne _ hj]
        refine h.imp_left fun hmem => (List.mem_cons.mp hmem).resolve_left fun heq => hj ?_
        rw [← heq]

theorem addName_symbolsSectionIndexes (s : ObjectScan) (name : String) (i : ℕ) :
    (s.addName name i).symbolsSectionIndexes = s.symbolsSectionIndexes := by
  unfold ObjectScan.addName
  split_ifs <;> rfl

theorem lookup_addSection {symbol : ℕ} {row : ElfEntry} {sec : ElfObjectSection × ℕ}
    (hrow : ∀ row', sec.1.contents.rows[symbol]? = some row' → row' = row) (s : ObjectScan)
    (h : sec.1.contents.rows[symbol]? = some row ∨
      s.symbolsSectionIndexes.lookup symbol = some row.sectionIndex) :
    (s.addSection stringHasher sec).symbolsSectionIndexes.lookup symbol =
      some row.sectionIndex := by
  rw [← addName_symbolsSectionIndexes s sec.1.name sec.2] at h
  unfold ObjectScan.addSection
  dsimp only
  cases hcontents : sec.1.contents with
  | symtab rows =>
      rw [hcontents] at h hrow
      refine lookup_foldl_addEntry (fun row' hrow' => ?_) _ (h.imp_left fun hmem => ?_)
      · exact hrow row' (List.mem_zipIdx_iff_getElem?.mp hrow')
      · exact List.mem_zipIdx_iff_getElem?.mpr hmem
  | rela info entries =>
      rw [hcontents] at h
      exact h.resolve_left (by simp [ElfContents.rows])
  | other =>
      rw [hcontents] at h
      exact h.resolve_left (by simp [ElfContents.rows])

theorem lookup_foldl_addSection {symbol : ℕ} {row : ElfEntry}
    {sections : List (ElfObjectSection × ℕ)}
    (hrow : ∀ sec ∈ sections, ∀ row', sec.1.contents.rows[symbol]? = some row' → row' = row)
    (s : ObjectScan)
    (h : (∃ sec ∈ sections, sec.1.contents.rows[symbol]? = some row) ∨
      s.symbolsSectionIndexes.lookup symbol = some row.sectionIndex) :
    (sections.foldl (ObjectScan.addSection stringHasher) s).symbolsSectionIndexes.lookup symbol =
      some row.sectionIndex := by
  induction sections generalizing s with
  | nil => exact h.resolve_left fun ⟨_, hmem, _⟩ => List.not_mem_nil hmem
  | cons sec sections ih =>
      obtain ⟨hfirst, hrest⟩ := List.forall_mem_cons.mp hrow
      refine ih hrest _ ?_
      rcases h with ⟨sec', hmem, hsec'⟩ | hs
      · rcases List.mem_cons.mp hmem with rfl | hmem
        · exact .inr (lookup_addSection hfirst s (.inl hsec'))
        · exact .inl ⟨sec', hmem, hsec'⟩
      · exact .inr (lookup_addSection hfirst s (.inr hs))

end ElfProgramInfoLoader

namespace ElfObject

open ElfProgramInfoLoader RelocationContext

variable {stringHasher : String → UInt64} {o : ElfObject}

theorem hasRow_iff {symbol : ℕ} {row : ElfEntry} :
    o.HasRow symbol row ↔ ∃ sec ∈ o.sections, sec.contents.rows[symbol]? = some row := by
  constructor
  · rintro ⟨sec, hsec, rows, hcontents, hrow⟩
    exact ⟨sec, hsec, by rw [hcontents]; exact hrow⟩
  · rintro ⟨sec, hsec, hrow⟩
    cases hcontents : sec.contents with
    | symtab rows => exact ⟨sec, hsec, rows, hcontents, by rwa [hcontents] at hrow⟩
    | rela info entries => simp [hcontents, ElfContents.rows] at hrow
    | other => simp [hcontents, ElfContents.rows] at hrow

/-- The loader knows the section of a symbol with one row. -/
theorem sectionOf_of_hasRow {symbol : ℕ} {row : ElfEntry} (h : o.HasRow symbol row)
    (hunique : ∀ row', o.HasRow symbol row' → row' = row) :
    (o.scan stringHasher).sectionOf symbol = row.sectionIndex := by
  obtain ⟨sec, hsec, hrow⟩ := hasRow_iff.mp h
  obtain ⟨i, hi⟩ := List.mem_iff_getElem?.mp hsec
  have hlookup : (o.scan stringHasher).symbolsSectionIndexes.lookup symbol =
      some row.sectionIndex := by
    refine lookup_foldl_addSection (fun sec' hsec' row' hrow' => ?_) _
      (.inl ⟨(sec, i), List.mem_zipIdx_iff_getElem?.mpr hi, hrow⟩)
    exact hunique row' (hasRow_iff.mpr
      ⟨sec'.1, List.mem_of_getElem? (List.mem_zipIdx_iff_getElem?.mp hsec'), hrow'⟩)
  rw [ObjectScan.sectionOf, hlookup]
  rfl

/-- What else is known of a reference. -/
theorem shape_of_reference {info : ℕ} {e : ElfRela} {ref : ElfReference}
    (h : o.reference stringHasher info e = .ok ref) :
    ref.offset = e.offset ∧ relocationSize e.type = .ok ref.size ∧
      (o.scan stringHasher).isVariables ((o.scan stringHasher).sectionOf e.symbol) = true := by
  unfold reference at h
  dsimp only at h
  split at h
  · rename_i hvariables
    split at h
    · cases h
    · rename_i size hsize
      split at h
      · cases h
      · split at h
        · cases h
        · obtain rfl := Except.ok.inj h
          exact ⟨rfl, hsize, hvariables⟩
  · cases h

/-- What the static linker makes of an object when it has placed its sections: the names and hashes
of its functions and variables stand for the linked ones, and a displacement counts from its own
address. -/
structure LinkedAt (stringHasher : String → UInt64) (o : ElfObject) (place : ℕ → Address)
    (symbols : Symbols) (mem : ProcessMemory) : Prop where
  rows_unique : ∀ symbol row row', o.HasRow symbol row → o.HasRow symbol row' → row' = row
  functions : ∀ key sym f, ((o.scan stringHasher).symbolsOf
      (o.scan stringHasher).textInfo).symbols.lookup key = some sym →
    findFunction symbols sym.name sym.hash = some f →
    f.runtimeAddress = place (o.scan stringHasher).textInfo + sym.virtualAddress
  vars : ∀ i key sym v, (o.scan stringHasher).isVariables i = true →
    ((o.scan stringHasher).symbolsOf i).symbols.lookup key = some sym →
    findVariable symbols sym.name sym.hash = some v →
    v.runtimeAddress = place i + sym.virtualAddress
  displacements : ∀ info e row, o.IsTextEntry stringHasher info e → e.type = rX8664Pc32 →
    o.HasRow e.symbol row → (field32 mem (place info + e.offset)).signExtend 64 =
      place row.sectionIndex + row.value + e.addend - (place info + e.offset)

namespace LinkedAt

variable {place : ℕ → Address} {symbols : Symbols} {mem : ProcessMemory}
  (h : o.LinkedAt stringHasher place symbols mem) {x : VariableReference stringHasher o}
  {ref : ElfReference} (href : o.reference stringHasher x.info x.entry = .ok ref)

include h href

/-- The relocation patches the field of its entry. -/
theorem fieldAddress_eq {target : Symbol}
    (htarget : findFunction symbols ref.target.name ref.target.hash = some target) :
    fieldAddress ref.relocation target = place x.info + x.entry.offset := by
  have hfound := (found_of_reference href).2
  have hinfo := x.isTextEntry.1
  rw [SymbolMap.enclosing_eq_join, Option.join_eq_some_iff, SymbolMap.lookUp_eq_some_iff,
    hinfo] at hfound
  obtain ⟨key, _, hlookup, _⟩ := hfound
  have hplace := h.functions key ref.target target hlookup htarget
  have hoffset := (shape_of_reference href).1
  rw [fieldAddress, hplace, ← hinfo]
  change place x.info + ref.target.virtualAddress + (ref.offset - ref.target.virtualAddress) = _
  rw [hoffset]
  ring

/-- Before the reload the instruction refers to the new variable. -/
theorem effectiveAddress_eq (hvalue : x.row.value = 0) {new : Symbol}
    (hnew : findVariable symbols ref.symbol.name ref.symbol.hash = some new) (trailing : ℕ) :
    effectiveAddress mem (place x.info + x.entry.offset) trailing =
      new.runtimeAddress + BitVec.ofNat 64 trailing := by
  have hsection : (o.scan stringHasher).sectionOf x.entry.symbol = x.row.sectionIndex :=
    sectionOf_of_hasRow x.hasRow fun row' hrow' => h.rows_unique _ _ _ x.hasRow hrow'
  have hvariables := (shape_of_reference href).2.2
  have hplace := h.vars _ _ _ new hvariables (found_of_reference href).1 hnew
  rw [effectiveAddress, h.displacements x.info x.entry x.row x.isTextEntry x.type_eq x.hasRow,
    hplace, hsection, hvalue, virtualAddress_of_reference href]
  ring

end LinkedAt

end ElfObject

/-- The relocations of every object that can be loaded are read. -/
theorem ElfProgramInfoLoader.mem_getLinkTimeRelocations {stringHasher : String → UInt64}
    {load : String → Option ElfObject} {objFilePaths : List String} {path : String}
    (hpath : path ∈ objFilePaths) {o : ElfObject} (ho : load path = some o) {reloc : Relocation}
    (h : reloc ∈ (o.linkTimeRelocations stringHasher).1) :
    reloc ∈ (getLinkTimeRelocations stringHasher load objFilePaths).1 := by
  induction objFilePaths with
  | nil => exact absurd hpath List.not_mem_nil
  | cons el objFilePaths ih =>
      unfold getLinkTimeRelocations
      dsimp only
      rcases List.mem_cons.mp hpath with rfl | hpath
      · rw [ho]
        exact List.mem_append_left _ h
      · cases load el with
        | none => exact ih hpath
        | some o' => exact List.mem_append_right _ (ih hpath)

/-- The new library is linked of the objects, whose sections are placed as given, and the
relocations of the reload are those the loader reads from the objects. -/
structure StaticState.LinkedFrom (stringHasher : String → UInt64)
    (load : String → Option ElfObject) (place : String → ℕ → Address) (objFilePaths : List String)
    (s : StaticState) (r : ReloadInput) : Prop where
  relocs : r.relocs =
    (ElfProgramInfoLoader.getLinkTimeRelocations stringHasher load objFilePaths).1
  objects : ∀ path ∈ objFilePaths, ∀ o, load path = some o →
    o.LinkedAt stringHasher (place path) r.newProgram.symbols s.memory

section

open RelocationContext ElfObject

/-- Take any run of reloads and then a reload of code that is linked of some objects. A reference
of an object to a variable, by a displacement that some bytes of the instruction follow, addresses
the new variable before the reload and after it the storage that is used for the variable, at the
same offset. If earlier code has the variable too, then the instruction finds there what the
storage of the newest of this code has held. -/
theorem Reloads.references_find_values {s : StaticState} (h : Reloads StaticState.Sound s)
    {r : ReloadInput} (hr : s.Sound r) (hp : s.Patchable r) {stringHasher : String → UInt64}
    {load : String → Option ElfObject} {place : String → ℕ → Address} {objFilePaths : List String}
    (hlinked : s.LinkedFrom stringHasher load place objFilePaths r) {path : String}
    (hpath : path ∈ objFilePaths) {o : ElfObject} (ho : load path = some o)
    (x : VariableReference stringHasher o) (hvalue : x.row.value = 0) {ref : ElfReference}
    (href : o.reference stringHasher x.info x.entry = .ok ref) {target new : Symbol}
    (htarget : findFunction r.newProgram.symbols ref.target.name ref.target.hash = some target)
    (hnew : findVariable r.newProgram.symbols ref.symbol.name ref.symbol.hash = some new)
    (trailing : ℕ) :
    let a := place path x.info + x.entry.offset
    effectiveAddress s.memory a trailing = new.runtimeAddress + BitVec.ofNat 64 trailing ∧
    effectiveAddress (s.reload r).memory a trailing =
      (s.storage r new).runtimeAddress + BitVec.ofNat 64 trailing ∧
    ∀ old, s.lastUse new.key = some old → trailing < min new.size old.size →
      (s.reload r).memory (effectiveAddress (s.reload r).memory a trailing) =
        s.memory (old.runtimeAddress + BitVec.ofNat 64 trailing) := by
  have hobject := hlinked.objects path hpath o ho
  have hreloc : ref.relocation ∈ r.relocs := by
    rw [hlinked.relocs]
    exact ElfProgramInfoLoader.mem_getLinkTimeRelocations hpath ho
      (relocation_mem x.isTextEntry href)
  have hsize : ref.relocation.size = 4 := by
    have hsize := (shape_of_reference href).2.1
    rw [x.type_eq] at hsize
    exact (Except.ok.inj hsize).symm
  have hfield := hobject.fieldAddress_eq href htarget
  have hbefore := hobject.effectiveAddress_eq href hvalue hnew trailing
  have hafter := StaticState.effectiveAddress_reload hr.2 hp hreloc htarget hnew hsize trailing
  rw [hfield, hbefore] at hafter
  have haddress : new.runtimeAddress + BitVec.ofNat 64 trailing +
      ((s.storage r new).runtimeAddress - new.runtimeAddress) =
        (s.storage r new).runtimeAddress + BitVec.ofNat 64 trailing := by ring
  refine ⟨hbefore, hafter.trans haddress, fun old hold htrailing => ?_⟩
  have hnames : (s.relocationContext r).Names ref.relocation new := hnew
  have hmem := mem_vars_of_names hnames
  obtain ⟨storage, hstorage, hvalues⟩ := h.tracked.keeps_values hr.1 hr.2 new hmem old hold
  rw [StaticState.lastUse_reload hr.2 hmem] at hstorage
  obtain rfl := Option.some.inj hstorage
  have hoffset : (BitVec.ofNat 64 trailing).toNat < min new.size old.size := by
    rw [BitVec.toNat_ofNat]
    exact lt_of_le_of_lt (Nat.mod_le _ _) htrailing
  rw [hafter, haddress]
  exact hvalues _ hoffset

/-! ### A reload of an object with a reference

The function `f` refers to the first of two variables, which the running program has at `0x1000`. -/

def variablesAt (a b : Address) : List Symbol := [⟨"a", 4, a, 0, true⟩, ⟨"b", 4, b, 0, true⟩]

/-- The new library has its code at `0x2000` and its variables at `0x3000`. -/
def referencingInput : ReloadInput where
  arch := .x86_64
  newProgram :=
    { symbols :=
        { functions := [{ name := "f", size := 16, runtimeAddress := 0x2000 }]
          vars := variablesAt 0x3000 0x3004 } }
  relocs := (ElfProgramInfoLoader.getLinkTimeRelocations ElfImage.lengthHasher
    (fun _ => some (twoVariables (pc32 1 (-4)))) ["/p/a.o"]).1
  status _ := 0

/-- The old variable has the value `7`, and the library is linked. -/
def referencingStart : StaticState :=
  .initial [{ symbols := { vars := variablesAt 0x1000 0x1004 } }]
    (Memory.writeWord (fun a => if a = 0x1000 then 7 else 0) 0x2002 4 0xffa)

def sectionsAt (i : ℕ) : Address := if i = 1 then 0x2000 else 0x3000

theorem referencingInput_relocs :
    referencingInput.relocs = [(fromF "a" 0).relocation] := by
  decide +kernel

theorem eq_of_mem_referencingInput {reloc : Relocation} (h : reloc ∈ referencingInput.relocs) :
    reloc = (fromF "a" 0).relocation := by
  rwa [referencingInput_relocs, List.mem_singleton] at h

/-- The only field that is patched. -/
theorem fieldAddress_referencing {reloc : Relocation} (h : reloc ∈ referencingInput.relocs)
    {target : Symbol} (htarget : findFunction referencingInput.newProgram.symbols
      reloc.targetSymbolName reloc.targetSymbolHash = some target) :
    fieldAddress reloc target = 0x2002 ∧ reloc.size = 4 := by
  obtain rfl := eq_of_mem_referencingInput h
  have hfound : findFunction referencingInput.newProgram.symbols "f" 0 =
      some { name := "f", size := 16, runtimeAddress := 0x2000 } := by
    decide +kernel
  obtain rfl := Option.some.inj (hfound.symm.trans htarget)
  exact ⟨by decide +kernel, rfl⟩

theorem variable_referencing {reloc : Relocation} (h : reloc ∈ referencingInput.relocs)
    {v : Symbol} (hv : findVariable referencingInput.newProgram.symbols
      reloc.relocationSymbolName reloc.relocationSymbolHash = some v) :
    v = ⟨"a", 4, 0x3000, 0, true⟩ := by
  obtain rfl := eq_of_mem_referencingInput h
  have hfound : findVariable referencingInput.newProgram.symbols "a" 0 =
      some ⟨"a", 4, 0x3000, 0, true⟩ := by
    decide +kernel
  exact (Option.some.inj (hfound.symm.trans hv)).symm

theorem variables_apart {v w : Symbol}
    (h : v.runtimeAddress.toNat + v.size ≤ w.runtimeAddress.toNat ∧
      w.runtimeAddress.toNat + w.size ≤ 2 ^ 64) :
    Apart v.runtimeAddress v.size w.runtimeAddress w.size :=
  apart_of_le h.1 h.2

theorem referencingStart_layout : referencingStart.Layout referencingInput := by
  have hnew : ∀ v ∈ referencingInput.newProgram.symbols.vars,
      ∀ u ∈ listed referencingStart.programs, u.runtimeAddress.toNat + u.size ≤
        v.runtimeAddress.toNat ∧ v.runtimeAddress.toNat + v.size ≤ 2 ^ 64 := by
    decide +kernel
  have hown : ∀ v ∈ referencingInput.newProgram.symbols.vars,
      ∀ w ∈ referencingInput.newProgram.symbols.vars, v ≠ w →
        (v.runtimeAddress.toNat + v.size ≤ w.runtimeAddress.toNat ∧
          w.runtimeAddress.toNat + w.size ≤ 2 ^ 64) ∨
        (w.runtimeAddress.toNat + w.size ≤ v.runtimeAddress.toNat ∧
          v.runtimeAddress.toNat + v.size ≤ 2 ^ 64) := by
    decide +kernel
  refine ⟨by decide +kernel, fun v hv u hu => (variables_apart (hnew v hv u hu)).symm,
    fun v hv w hw hne => ?_, ?_⟩
  · exact (hown v hv w hw hne).elim variables_apart fun h => (variables_apart h).symm
  · intro reloc hreloc target htarget u hu
    have hcode : ∀ u ∈ listed referencingStart.programs,
        u.runtimeAddress.toNat + u.size ≤ (0x2002#64).toNat := by
      decide +kernel
    obtain ⟨hfield, hsize⟩ := fieldAddress_referencing hreloc htarget
    rw [fieldAddress] at hfield
    rw [hfield, hsize]
    exact (apart_of_le (hcode u hu) (by decide)).symm

theorem referencingStart_sound : referencingStart.Sound referencingInput := by
  refine ⟨referencingStart_layout, by decide +kernel, by decide +kernel, ?_⟩
  intro reloc hreloc v hv u _
  rw [variable_referencing hreloc hv, eq_of_mem_referencingInput hreloc]
  rfl

theorem referencingStart_uniform : (referencingStart.relocationContext referencingInput).Uniform
    referencingStart.memory referencingInput.relocs := by
  have hindex : ∀ {i : ℕ} {reloc : Relocation}, referencingInput.relocs[i]? = some reloc →
      i = 0 ∧ reloc = (fromF "a" 0).relocation := by
    intro i reloc h
    rw [referencingInput_relocs] at h
    obtain ⟨hi, heq⟩ := List.getElem?_eq_some_iff.mp h
    obtain rfl : i = 0 := by simpa using hi
    exact ⟨rfl, heq.symm⟩
  refine ⟨?_, ?_⟩
  · intro i j reloc reloc' v hi hj _ _ happlicable
    obtain ⟨rfl, rfl⟩ := hindex hi
    obtain ⟨rfl, rfl⟩ := hindex hj
    exact happlicable
  · intro i j reloc reloc' v hlt hi hj
    rw [(hindex hi).1, (hindex hj).1] at hlt
    exact absurd hlt (lt_irrefl 0)

theorem referencingStart_patchable : referencingStart.Patchable referencingInput where
  arch := rfl
  fields_apart := by
    rw [FieldsApart, referencingInput_relocs]
    exact List.pairwise_singleton _ _
  fields_apart_new := by
    intro reloc hreloc target htarget v hv
    have hcode : ∀ v ∈ referencingInput.newProgram.symbols.vars,
        (0x2002#64).toNat + 4 ≤ v.runtimeAddress.toNat ∧
          v.runtimeAddress.toNat + v.size ≤ 2 ^ 64 := by
      decide +kernel
    obtain ⟨hfield, hsize⟩ := fieldAddress_referencing hreloc htarget
    rw [hfield, hsize]
    exact apart_of_le (hcode v hv).1 (hcode v hv).2
  uniform := referencingStart_uniform
  reaches := by
    intro reloc hreloc target new old hr _
    have hnew := variable_referencing hreloc hr.new
    obtain ⟨hfield, _⟩ := fieldAddress_referencing hreloc hr.target
    have hold := hr.old
    rw [eq_of_mem_referencingInput hreloc] at hold
    have hfound : oldVariable referencingStart.programs "a" 0 =
        some ⟨"a", 4, 0x1000, 0, true⟩ := by
      decide +kernel
    obtain rfl := Option.some.inj (hfound.symm.trans hold)
    rw [hfield, hnew, Reaches]
    decide +kernel

/-- The rows of the only symbol table. -/
theorem rows_of_hasRow_twoVariables {e : ElfRela} {symbol : ℕ} {row : ElfEntry}
    (h : (twoVariables e).HasRow symbol row) :
    [{ name := "", bind := .kLocal, type := .kNo }, bssSymbol,
      { name := "f", size := 16, bind := .kGlobal, type := .kFunction, sectionIndex := 1 },
      bssVariable "a" 0, bssVariable "b" 4][symbol]? = some row := by
  obtain ⟨sec, hsec, rows, hcontents, hrow⟩ := h
  simp only [twoVariables, List.mem_cons, List.not_mem_nil, or_false] at hsec
  rcases hsec with rfl | rfl | rfl | rfl | rfl <;> cases hcontents
  exact hrow

def referencingScan : ElfProgramInfoLoader.ObjectScan :=
  (twoVariables (pc32 1 (-4))).scan ElfImage.lengthHasher

theorem twoVariables_linkedAt : (twoVariables (pc32 1 (-4))).LinkedAt ElfImage.lengthHasher
    sectionsAt referencingInput.newProgram.symbols referencingStart.memory where
  rows_unique symbol row row' h h' :=
    Option.some.inj ((rows_of_hasRow_twoVariables h').symm.trans (rows_of_hasRow_twoVariables h))
  functions key sym f hsym hf := by
    have hall : ∀ key ∈ (referencingScan.symbolsOf referencingScan.textInfo).symbols.keys,
        ∀ sym ∈ (referencingScan.symbolsOf referencingScan.textInfo).symbols.lookup key,
        ∀ f ∈ findFunction referencingInput.newProgram.symbols sym.name sym.hash,
          f.runtimeAddress = sectionsAt referencingScan.textInfo + sym.virtualAddress := by
      decide +kernel
    exact hall key (Finmap.mem_keys.mpr (Finmap.mem_of_lookup_eq_some hsym)) sym hsym f hf
  vars i key sym v hi hsym hv := by
    have hbss : referencingScan.bssSectionIndex = some 3 := by decide +kernel
    have hdata : referencingScan.dataSectionIndex = none := by decide +kernel
    have hall : ∀ key ∈ (referencingScan.symbolsOf 3).symbols.keys,
        ∀ sym ∈ (referencingScan.symbolsOf 3).symbols.lookup key,
        ∀ v ∈ findVariable referencingInput.newProgram.symbols sym.name sym.hash,
          v.runtimeAddress = sectionsAt 3 + sym.virtualAddress := by
      decide +kernel
    obtain rfl : 3 = i := by
      change referencingScan.isVariables i = true at hi
      simpa [ElfProgramInfoLoader.ObjectScan.isVariables, hbss, hdata] using hi
    exact hall key (Finmap.mem_keys.mpr (Finmap.mem_of_lookup_eq_some hsym)) sym hsym v hv
  displacements info e row he htype hrow := by
    obtain ⟨_, sec, hsec, entries, hcontents, hmem⟩ := he
    simp only [twoVariables, List.mem_cons, List.not_mem_nil, or_false] at hsec
    rcases hsec with rfl | rfl | rfl | rfl | rfl <;> cases hcontents
    obtain rfl := List.mem_singleton.mp hmem
    obtain rfl := Option.some.inj (rows_of_hasRow_twoVariables hrow)
    decide +kernel

/-- After the reload the instruction refers to the old variable, and finds the `7` there. -/
theorem referencingStart_references_find_values :
    effectiveAddress (referencingStart.reload referencingInput).memory 0x2002 0 = 0x1000 ∧
    (referencingStart.reload referencingInput).memory
      (effectiveAddress (referencingStart.reload referencingInput).memory 0x2002 0) = 7 := by
  have hreference : (twoVariables (pc32 1 (-4))).reference ElfImage.lengthHasher 1 (pc32 1 (-4)) =
      .ok (fromF "a" 0) := by
    decide +kernel
  have htarget : findFunction referencingInput.newProgram.symbols "f" 0 =
      some { name := "f", size := 16, runtimeAddress := 0x2000 } := by
    decide +kernel
  have hnew : findVariable referencingInput.newProgram.symbols "a" 0 =
      some ⟨"a", 4, 0x3000, 0, true⟩ := by
    decide +kernel
  have hlinked : referencingStart.LinkedFrom ElfImage.lengthHasher
      (fun _ => some (twoVariables (pc32 1 (-4)))) (fun _ => sectionsAt) ["/p/a.o"]
      referencingInput :=
    ⟨rfl, fun _ _ o ho => Option.some.inj ho ▸ twoVariables_linkedAt⟩
  obtain ⟨_, haddress, hvalues⟩ := Reloads.references_find_values (.start _ _)
    referencingStart_sound referencingStart_patchable hlinked (List.mem_singleton_self "/p/a.o")
    rfl (throughSection (-4)).toVariableReference rfl hreference htarget hnew 0
  have hstorage : (referencingStart.storage referencingInput
      ⟨"a", 4, 0x3000, 0, true⟩).runtimeAddress + BitVec.ofNat 64 0 = 0x1000 := by
    decide +kernel
  have hvalue : referencingStart.memory (0x1000 + BitVec.ofNat 64 0) = 7 := by decide +kernel
  refine ⟨haddress.trans hstorage, ?_⟩
  exact (hvalues ⟨"a", 4, 0x1000, 0, true⟩ (by decide +kernel) (by decide)).trans hvalue

end

end JetLive

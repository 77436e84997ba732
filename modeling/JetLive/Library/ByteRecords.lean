import Mathlib.Data.List.Infix
import Mathlib.Data.List.TakeWhile
import Mathlib.Data.Nat.Digits.Lemmas

/-!
# Records in a block of bytes

A file that is read as a block of bytes is looked at through records of fixed size: fields are
little-endian numbers at offsets, tables are records in a row, and texts end at the first null
byte. `At content offset bytes` says that the bytes lie at the offset, anywhere in the block. A
read beyond the end of the block gives `none`. The lemmas `readField_of_record`,
`Rows.readTable_eq` and `readCString_of_at` say what is read where something lies.
-/

namespace ByteRecords

/-! ## Numbers -/

/-- The bytes of a number, the least significant one first. -/
def littleEndian : ℕ → ℕ → List UInt8
  | 0, _ => []
  | n + 1, v => UInt8.ofNat v :: littleEndian n (v / 256)

def ofLittleEndian (l : List UInt8) : ℕ := Nat.ofDigits 256 (l.map UInt8.toNat)

@[simp] theorem length_littleEndian (n v : ℕ) : (littleEndian n v).length = n := by
  induction n generalizing v with
  | zero => rfl
  | succ n ih => rw [littleEndian, List.length_cons, ih]

theorem ofLittleEndian_littleEndian {n v : ℕ} (h : v < 256 ^ n) :
    ofLittleEndian (littleEndian n v) = v := by
  induction n generalizing v with
  | zero =>
      obtain rfl : v = 0 := by simpa using h
      rfl
  | succ n ih =>
      have hdiv : v / 256 < 256 ^ n := Nat.div_lt_of_lt_mul (by rwa [← pow_succ'])
      have hcons : ofLittleEndian (littleEndian (n + 1) v) =
          (UInt8.ofNat v).toNat + 256 * ofLittleEndian (littleEndian n (v / 256)) := by
        simp [ofLittleEndian, littleEndian, Nat.ofDigits_cons]
      rw [hcons, ih hdiv, UInt8.toNat_ofNat']
      exact Nat.mod_add_div v 256

/-! ## Places -/

variable {content l l' : List UInt8} {offset : ℕ}

/-- The bytes `l` lie at the offset. -/
def At (content : List UInt8) (offset : ℕ) (l : List UInt8) : Prop := l <+: content.drop offset

instance (content : List UInt8) (offset : ℕ) (l : List UInt8) : Decidable (At content offset l) :=
  inferInstanceAs (Decidable (_ <+: _))

theorem at_append_iff :
    At content offset (l ++ l') ↔ At content offset l ∧ At content (offset + l.length) l' := by
  simp only [At, ← List.drop_drop]
  constructor
  · rintro ⟨rest, hrest⟩
    rw [← hrest]
    refine ⟨⟨l' ++ rest, by simp⟩, ⟨rest, by simp⟩⟩
  · rintro ⟨⟨rest, hrest⟩, hl'⟩
    rw [← hrest, List.drop_left] at hl'
    obtain ⟨rest', rfl⟩ := hl'
    exact ⟨rest', by rw [List.append_assoc, hrest]⟩

theorem At.length_le (h : At content offset l) (hl : l ≠ []) :
    offset + l.length ≤ content.length := by
  have hle := List.IsPrefix.length_le h
  rw [List.length_drop] at hle
  have hpos := List.length_pos_iff.mpr hl
  omega

theorem At.take_eq (h : At content offset l) : (content.drop offset).take l.length = l :=
  (List.prefix_iff_eq_take.mp h).symm

/-! ## Fields -/

def readField (content : List UInt8) (offset n : ℕ) : Option ℕ :=
  if offset + n ≤ content.length then some (ofLittleEndian ((content.drop offset).take n))
  else none

theorem readField_of_at {n v : ℕ} (h : At content offset (littleEndian n v)) (hn : 0 < n)
    (hv : v < 256 ^ n) : readField content offset n = some v := by
  have hne : littleEndian n v ≠ [] := by
    intro hnil
    have hlength := length_littleEndian n v
    rw [hnil] at hlength
    simp only [List.length_nil] at hlength
    omega
  have hle := h.length_le hne
  have htake := h.take_eq
  rw [length_littleEndian] at hle htake
  rw [readField, if_pos hle, htake, ofLittleEndian_littleEndian hv]

/-- The bytes of a record, which is given by the widths and the values of its fields. -/
def record (fields : List (ℕ × ℕ)) : List UInt8 :=
  fields.flatMap fun field => littleEndian field.1 field.2

def offsetOf (fields : List (ℕ × ℕ)) (i : ℕ) : ℕ := ((fields.take i).map Prod.fst).sum

theorem length_record (fields : List (ℕ × ℕ)) :
    (record fields).length = (fields.map Prod.fst).sum := by
  simp [record, List.length_flatMap]

theorem readField_of_record {fields : List (ℕ × ℕ)} {n v : ℕ}
    (h : At content offset (record fields)) (i : ℕ) (hi : fields[i]? = some (n, v)) (hn : 0 < n)
    (hv : v < 256 ^ n) : readField content (offset + offsetOf fields i) n = some v := by
  obtain ⟨hlt, hget⟩ := List.getElem?_eq_some_iff.mp hi
  have hsplit : record fields =
      record (fields.take i) ++ (littleEndian n v ++ record (fields.drop (i + 1))) := by
    have hfields : fields = fields.take i ++ (n, v) :: fields.drop (i + 1) := by
      rw [← hget, ← List.drop_eq_getElem_cons hlt, List.take_append_drop]
    conv_lhs => rw [hfields]
    simp only [record, List.flatMap_append, List.flatMap_cons]
  rw [hsplit, at_append_iff, at_append_iff, length_record] at h
  exact readField_of_at h.2.1 hn hv

/-! ## Tables -/

variable {α β : Type*}

def readTable (read : ℕ → Option α) (size : ℕ) : ℕ → ℕ → Option (List α)
  | 0, _ => some []
  | n + 1, offset => do
      let a ← read offset
      let l ← readTable read size n (offset + size)
      some (a :: l)

/-- Records of the given size lie in a row. -/
def Rows (P : ℕ → α → Prop) (size : ℕ) : ℕ → List α → Prop
  | _, [] => True
  | offset, a :: l => P offset a ∧ Rows P size (offset + size) l

theorem Rows.readTable_eq {P : ℕ → α → Prop} {read : ℕ → Option β} {f : α → β} {size : ℕ}
    {l : List α} (h : Rows P size offset l)
    (hread : ∀ offset a, P offset a → read offset = some (f a)) :
    readTable read size l.length offset = some (l.map f) := by
  induction l generalizing offset with
  | nil => rfl
  | cons a l ih => simp [readTable, hread offset a h.1, ih h.2]

/-! ## Texts -/

/-- The text that begins at the offset and ends before the next null byte. -/
def readCString (content : List UInt8) (offset : ℕ) : Option (List UInt8) :=
  if 0 ∈ content.drop offset then some ((content.drop offset).takeWhile (· ≠ 0)) else none

theorem readCString_of_at (h : At content offset l) (hl : 0 ∈ l) :
    readCString content offset = some (l.takeWhile (· ≠ 0)) := by
  obtain ⟨rest, hrest⟩ := h
  rw [readCString, ← hrest, if_pos (List.mem_append_left _ hl)]
  congr 1
  rw [List.takeWhile_append, if_neg]
  -- a text of the whole length would have no null byte
  intro hlength
  have hself := (List.takeWhile_prefix _).eq_of_length hlength
  rw [← hself] at hl
  simpa using List.mem_takeWhile_imp hl

end ByteRecords

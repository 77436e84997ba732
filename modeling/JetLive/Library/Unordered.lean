import Mathlib.Data.Finmap
import Mathlib.Data.List.Sort
import Mathlib.Data.Finset.Card

/-!
# Ordered and unordered containers

Maps and sets without an order are `Finmap` and `Finset`: two of them with the
same elements are equal. What the order of a loop over such a container can
change is therefore kept apart from the container, in an `Iteration`: one way to
list the elements of every finite set. A theorem about a loop is stated for every
`Iteration`, hence for every order the loop may take.

Ordered sets are lists without order assumptions in their lemmas: only
membership is ever used.
-/

namespace Containers

abbrev UnorderedMap (α β : Type*) := Finmap fun _ : α => β

/-- One way to enumerate the elements of every finite set. -/
structure Iteration (α : Type*) where
  toList : Finset α → List α
  nodup : ∀ s, (toList s).Nodup
  mem_toList : ∀ s a, a ∈ toList s ↔ a ∈ s

namespace Iteration

variable {α : Type*} (it : Iteration α)

attribute [simp] mem_toList

/-- The element a loop over the set meets first. -/
def first (s : Finset α) : Option α := (it.toList s).head?

theorem mem_of_first {s : Finset α} {a : α} (h : it.first s = some a) : a ∈ s :=
  (it.mem_toList s a).mp (List.mem_of_head? h)

@[simp] theorem toList_empty : it.toList ∅ = [] := by
  apply List.eq_nil_iff_forall_not_mem.mpr
  intro a
  simp

def increasing {α : Type*} [LinearOrder α] : Iteration α where
  toList s := Quot.liftOn s.val (List.insertionSort (· ≤ ·)) fun l l' h =>
    List.Perm.eq_of_pairwise' (List.pairwise_insertionSort _ l)
      (List.pairwise_insertionSort _ l')
      ((List.perm_insertionSort _ l).trans
        (h.trans (List.perm_insertionSort _ l').symm))
  nodup s := by
    obtain ⟨⟨l⟩, hl⟩ := s
    exact (List.perm_insertionSort _ l).nodup_iff.mpr hl
  mem_toList s a := by
    obtain ⟨⟨l⟩, hl⟩ := s
    exact (List.perm_insertionSort _ l).mem_iff

/-- The enumeration with another order for one of the sets. -/
def withOrder [DecidableEq α] (s : Finset α) (l : List α) (hnodup : l.Nodup)
    (hmem : ∀ a, a ∈ l ↔ a ∈ s) : Iteration α where
  toList t := if t = s then l else it.toList t
  nodup t := by
    split
    · exact hnodup
    · exact it.nodup t
  mem_toList t a := by
    split
    · rename_i ht
      rw [ht, hmem]
    · exact it.mem_toList t a

end Iteration

section EraseAll

variable {α β : Type*} [DecidableEq α]

theorem eq_empty_of_keys {m : UnorderedMap α β} (h : m.keys = ∅) : m = ∅ := by
  apply Finmap.ext_lookup
  intro a
  rw [Finmap.lookup_empty, Finmap.lookup_eq_none, ← Finmap.mem_keys, h]
  exact Finset.notMem_empty a

def eraseAll (m : UnorderedMap α β) (l : List α) : UnorderedMap α β :=
  l.foldl (fun m a => m.erase a) m

theorem lookup_eraseAll (m : UnorderedMap α β) (l : List α) (a : α) :
    (eraseAll m l).lookup a = if a ∈ l then none else m.lookup a := by
  induction l generalizing m with
  | nil => rfl
  | cons b l ih =>
      rw [eraseAll, List.foldl_cons, ← eraseAll, ih]
      by_cases h : a = b
      · subst h
        simp
      · simp [Finmap.lookup_erase_ne h, h]

theorem mem_eraseAll (m : UnorderedMap α β) (l : List α) (a : α) :
    a ∈ eraseAll m l ↔ a ∈ m ∧ a ∉ l := by
  rw [← Finmap.lookup_isSome, lookup_eraseAll, ← Finmap.lookup_isSome]
  split
  · rename_i ha
    simp [ha]
  · rename_i ha
    simp [ha]

end EraseAll

section SetValued

variable {α β : Type*} [DecidableEq α] [DecidableEq β]

/-- The set stored under a key, empty if there is none. -/
def lookupSet (m : UnorderedMap α (Finset β)) (a : α) : Finset β := (m.lookup a).getD ∅

def insertAt (m : UnorderedMap α (Finset β)) (b : β) (a : α) : UnorderedMap α (Finset β) :=
  m.insert a (insert b (lookupSet m a))

def eraseAt (m : UnorderedMap α (Finset β)) (b : β) (a : α) : UnorderedMap α (Finset β) :=
  m.insert a ((lookupSet m a).erase b)

theorem mem_foldl_insertAt (l : List α) (m : UnorderedMap α (Finset β)) (b c : β) (a : α) :
    c ∈ lookupSet (l.foldl (fun m a => insertAt m b a) m) a ↔
      (a ∈ l ∧ c = b) ∨ c ∈ lookupSet m a := by
  induction l generalizing m with
  | nil => simp
  | cons a' l ih =>
      rw [List.foldl_cons, ih]
      by_cases h : a = a'
      · subst h
        simp [insertAt, lookupSet]
        tauto
      · simp [insertAt, lookupSet, Finmap.lookup_insert_of_ne _ h, h]

theorem mem_foldl_eraseAt (l : List α) (m : UnorderedMap α (Finset β)) (b c : β) (a : α) :
    c ∈ lookupSet (l.foldl (fun m a => eraseAt m b a) m) a ↔
      ¬ (a ∈ l ∧ c = b) ∧ c ∈ lookupSet m a := by
  induction l generalizing m with
  | nil => simp
  | cons a' l ih =>
      rw [List.foldl_cons, ih]
      by_cases h : a = a'
      · subst h
        simp [eraseAt, lookupSet]
        tauto
      · simp [eraseAt, lookupSet, Finmap.lookup_insert_of_ne _ h, h]

/-- The second map is the inverse of the first. -/
def Dual (f : UnorderedMap α (Finset β)) (g : UnorderedMap β (Finset α)) : Prop :=
  ∀ a b, b ∈ lookupSet f a ↔ a ∈ lookupSet g b

namespace Dual

variable {f : UnorderedMap α (Finset β)} {g : UnorderedMap β (Finset α)} {old : List β} {a : α}

theorem empty : Dual (∅ : UnorderedMap α (Finset β)) (∅ : UnorderedMap β (Finset α)) := by
  simp [Dual, lookupSet]

/-- Another set is stored under a key, after the key was erased at the elements of the old
one and then inserted at those of the new one. -/
theorem replace (h : Dual f g) (hold : ∀ b, b ∈ old ↔ b ∈ lookupSet f a) {new : List β}
    {s : Finset β} (hnew : ∀ b, b ∈ new ↔ b ∈ s) :
    Dual (f.insert a s) (new.foldl (fun m b => insertAt m a b)
      (old.foldl (fun m b => eraseAt m a b) g)) := by
  intro a' b
  rw [mem_foldl_insertAt, mem_foldl_eraseAt, hold, hnew, ← h a' b]
  by_cases ha : a' = a
  · subst ha
    simp [lookupSet]
  · simp [lookupSet, Finmap.lookup_insert_of_ne _ ha, ha]

/-- A key is erased, after it was erased at the elements of its set. -/
theorem drop (h : Dual f g) (hold : ∀ b, b ∈ old ↔ b ∈ lookupSet f a) :
    Dual (f.erase a) (old.foldl (fun m b => eraseAt m a b) g) := by
  intro a' b
  rw [mem_foldl_eraseAt, hold, ← h a' b]
  by_cases ha : a' = a
  · subst ha
    simp [lookupSet]
  · simp [lookupSet, Finmap.lookup_erase_ne ha, ha]

end Dual

end SetValued

section OrderedSet

variable {α : Type*} [LinearOrder α]

def setInsert (a : α) (s : List α) : List α :=
  if a ∈ s then s else s.orderedInsert (· ≤ ·) a

def setErase (a : α) (s : List α) : List α := s.filter (· ≠ a)

@[simp] theorem mem_setInsert (a b : α) (s : List α) :
    b ∈ setInsert a s ↔ b = a ∨ b ∈ s := by
  unfold setInsert
  split
  · rename_i h
    constructor
    · exact Or.inr
    · rintro (rfl | hb)
      · exact h
      · exact hb
  · rw [List.mem_orderedInsert]

@[simp] theorem mem_setErase (a b : α) (s : List α) :
    b ∈ setErase a s ↔ b ∈ s ∧ b ≠ a := by
  simp [setErase]

end OrderedSet

end Containers

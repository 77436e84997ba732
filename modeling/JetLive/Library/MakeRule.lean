import Mathlib.Data.List.DropRight

/-!
# Make rules as text

A rule `target: prerequisites` may be written in many ways: the prerequisites stand on any
number of lines, all but the last of which end with a backslash, with any number of blanks
around the names. Blanks in names are escaped by backslashes. `Rule` is a rule together with such
a layout.

A reader that takes a line apart at its blanks, and drops blanks and backslashes from its end,
finds the pieces of the escaped names (`words_line`). They do not depend on the blanks around the
names.
-/

namespace MakeRule

/-! ## Names -/

/-- A name from some character on, after a number of backslashes. A blank and a `#` get a
backslash, and those in front of them and at the end of the name are doubled. -/
def escapeFrom : ℕ → List Char → List Char
  | k, [] => List.replicate k '\\'
  | k, c :: name =>
      if c = '\\' then '\\' :: escapeFrom (k + 1) name
      else if c = ' ' ∨ c = '\t' ∨ c = '#' then
        List.replicate (k + 1) '\\' ++ c :: escapeFrom 0 name
      else if c = '$' then '$' :: '$' :: escapeFrom 0 name
      else c :: escapeFrom 0 name

def escape (name : List Char) : List Char := escapeFrom 0 name

theorem notMem_escapeFrom {name : List Char} (h : '\n' ∉ name) (k : ℕ) :
    '\n' ∉ escapeFrom k name := by
  induction name generalizing k with
  | nil => simp [escapeFrom]
  | cons c name ih =>
      rw [List.mem_cons, not_or] at h
      obtain ⟨hc, hname⟩ := h
      unfold escapeFrom
      split
      · simp [ih hname]
      · split
        · simp [ih hname, hc]
        · split
          · simp [ih hname]
          · simp [ih hname, hc]

/-! ## Lines and rules -/

/-- The names with the number of blanks in front of each of them. -/
def spaced (names : List (ℕ × List Char)) : List Char :=
  names.flatMap fun x => List.replicate x.1 ' ' ++ escape x.2

structure Line where
  names : List (ℕ × List Char)
  trailing : ℕ := 0
  separated : ∀ x ∈ names.tail, 1 ≤ x.1
  named : ∀ x ∈ names, x.2 ≠ [] ∧ '\n' ∉ x.2
  /-- A name with a backslash at its end does not touch the one of the continuation. -/
  ended : ∀ x ∈ names.getLast?, x.2.getLast? = some '\\' → 1 ≤ trailing

def Line.text (l : Line) : List Char := spaced l.names ++ List.replicate l.trailing ' '

/-- The mark at the end of a line: a backslash if another one follows. -/
def mark (next : List Line) : List Char := if next = [] then [] else ['\\']

def marked : List Line → List (Line × List Char)
  | [] => []
  | l :: lines => (l, mark lines) :: marked lines

/-- A rule with its layout: the prerequisites on the line of the target and those on the lines
that follow it. -/
structure Rule where
  target : List Char
  first : Line
  rest : List Line
  named : '\n' ∉ target

namespace Rule

def prerequisites (r : Rule) : List (List Char) :=
  (r.first :: r.rest).flatMap fun l => l.names.map Prod.snd

def lines (r : Rule) : List (List Char) :=
  (escape r.target ++ ':' :: r.first.text ++ mark r.rest) ::
    (marked r.rest).map fun x => x.1.text ++ x.2

def text (r : Rule) : List Char := r.lines.flatMap fun line => line ++ ['\n']

end Rule

/-! ## Words -/

/-- The characters that are dropped from the end of a line. -/
def lineEnd (c : Char) : Bool := c = ' ' ∨ c = '\\'

/-- The pieces between blanks. -/
def wordsOf (line : List Char) : List (List Char) := (line.splitOn ' ').filter (· ≠ [])

/-- The pieces of escaped names on one line. Blanks and backslashes are dropped from the last
name, and from the one in front of it if nothing is left. -/
def words : List (List Char) → List (List Char)
  | [] => []
  | name :: names =>
      if names.all fun n => n.all lineEnd then wordsOf (name.rdropWhile lineEnd)
      else wordsOf name ++ words names

def Line.words (l : Line) : List (List Char) := MakeRule.words (l.names.map fun x => escape x.2)

theorem wordsOf_append_cons (a b : List Char) :
    wordsOf (a ++ ' ' :: b) = wordsOf a ++ wordsOf b := by
  rw [wordsOf, List.splitOn_append_cons_self, List.filter_append]
  rfl

@[simp] theorem wordsOf_nil : wordsOf [] = [] := rfl

theorem wordsOf_replicate_append (k : ℕ) (b : List Char) :
    wordsOf (List.replicate k ' ' ++ b) = wordsOf b := by
  induction k with
  | zero => rfl
  | succ k ih =>
      rw [List.replicate_succ, List.cons_append, ← List.nil_append (' ' :: _), wordsOf_append_cons,
        ih]
      rfl

theorem rdropWhile_append {p : Char → Bool} (a b : List Char) :
    (a ++ b).rdropWhile p = if b.all p then a.rdropWhile p else a ++ b.rdropWhile p := by
  induction b using List.reverseRecOn with
  | nil => rw [List.append_nil, List.all_nil, if_pos rfl]
  | append_singleton b c ih =>
      rw [← List.append_assoc, List.all_append, List.all_cons, List.all_nil, Bool.and_true]
      cases hc : p c with
      | true =>
          rw [List.rdropWhile_concat_pos _ _ _ hc, List.rdropWhile_concat_pos _ _ _ hc, ih,
            Bool.and_true]
      | false =>
          have hnot : ¬ p c = true := by rw [hc]; exact Bool.false_ne_true
          rw [List.rdropWhile_concat_neg _ _ _ hnot, List.rdropWhile_concat_neg _ _ _ hnot,
            Bool.and_false, if_neg Bool.false_ne_true, List.append_assoc]

theorem all_replicate (k : ℕ) : (List.replicate k ' ').all lineEnd = true := by
  rw [List.all_eq_true]
  intro c hc
  rw [List.eq_of_mem_replicate hc]
  rfl

theorem rdropWhile_of_all {b : List Char} (h : b.all lineEnd = true) :
    b.rdropWhile lineEnd = [] :=
  List.rdropWhile_eq_nil_iff.mpr (List.all_eq_true.mp h)

/-- Blanks in front of a line do not count. -/
theorem wordsOf_rdropWhile_replicate_append (k : ℕ) (b : List Char) :
    wordsOf ((List.replicate k ' ' ++ b).rdropWhile lineEnd) = wordsOf (b.rdropWhile lineEnd) := by
  rw [rdropWhile_append]
  split
  · rename_i h
    rw [rdropWhile_of_all (all_replicate k), rdropWhile_of_all h]
  · rw [wordsOf_replicate_append]

theorem spaced_cons (k : ℕ) (name : List Char) (names : List (ℕ × List Char)) :
    spaced ((k, name) :: names) = List.replicate k ' ' ++ (escape name ++ spaced names) := by
  rw [spaced, List.flatMap_cons, List.append_assoc]
  rfl

theorem all_spaced (names : List (ℕ × List Char)) : (spaced names).all lineEnd =
    (names.map fun x => escape x.2).all fun n => n.all lineEnd := by
  induction names with
  | nil => rfl
  | cons x names ih =>
      obtain ⟨k, name⟩ := x
      rw [spaced_cons, List.all_append, List.all_append, all_replicate, Bool.true_and, ih,
        List.map_cons, List.all_cons]

/-- What follows a name begins with a blank. -/
theorem wordsOf_append_spaced (name : List Char) {names : List (ℕ × List Char)}
    (h : ∀ x ∈ names, 1 ≤ x.1) (hend : ¬ (spaced names).all lineEnd = true) :
    wordsOf (name ++ (spaced names).rdropWhile lineEnd) =
      wordsOf name ++ wordsOf ((spaced names).rdropWhile lineEnd) := by
  cases names with
  | nil => exact absurd rfl hend
  | cons x names =>
      obtain ⟨k, next⟩ := x
      obtain ⟨j, rfl⟩ : ∃ j, k = j + 1 := Nat.exists_eq_add_of_le' (h _ List.mem_cons_self)
      have hcons : spaced ((j + 1, next) :: names) = [' '] ++ spaced ((j, next) :: names) := by
        rw [spaced_cons, spaced_cons, List.replicate_succ]
        rfl
      rw [hcons] at hend ⊢
      rw [List.all_append, List.all_cons, List.all_nil] at hend
      have htail : ¬ (spaced ((j, next) :: names)).all lineEnd = true := hend
      rw [rdropWhile_append, if_neg htail, List.singleton_append, wordsOf_append_cons]
      exact congrArg (wordsOf name ++ ·) (wordsOf_replicate_append 1 _).symm

/-- The words of a line are the pieces of its names. -/
theorem wordsOf_spaced {names : List (ℕ × List Char)} (h : ∀ x ∈ names.tail, 1 ≤ x.1) :
    wordsOf ((spaced names).rdropWhile lineEnd) = words (names.map fun x => escape x.2) := by
  induction names with
  | nil => rfl
  | cons x names ih =>
      obtain ⟨k, name⟩ := x
      have htail : ∀ x ∈ names, 1 ≤ x.1 := h
      rw [spaced_cons, wordsOf_rdropWhile_replicate_append, rdropWhile_append, List.map_cons,
        words, ← all_spaced]
      split
      · rfl
      · rename_i hend
        rw [wordsOf_append_spaced _ htail hend, ih fun x hx => htail x (List.mem_of_mem_tail hx)]

theorem exists_replicate_append_dropWhile (line : List Char) :
    ∃ k, line = List.replicate k ' ' ++ line.dropWhile (· = ' ') := by
  refine ⟨(line.takeWhile (· = ' ')).length, ?_⟩
  nth_rewrite 1 [← List.takeWhile_append_dropWhile (p := (· = ' ')) (l := line)]
  congr 1
  apply List.eq_replicate_length.mpr
  intro c hc
  simpa using List.mem_takeWhile_imp hc

/-- Neither the blanks around the names nor a continuation count. -/
theorem words_line (l : Line) {tail : List Char} (htail : tail.all lineEnd = true) :
    wordsOf (((l.text ++ tail).dropWhile (· = ' ')).rdropWhile lineEnd) = l.words := by
  obtain ⟨k, hk⟩ := exists_replicate_append_dropWhile (l.text ++ tail)
  rw [← wordsOf_rdropWhile_replicate_append k, ← hk, Line.text, rdropWhile_append, if_pos htail,
    rdropWhile_append, if_pos (all_replicate _), wordsOf_spaced l.separated]
  rfl

/-! ## Lines of a file -/

theorem splitOn_flatMap {lines : List (List Char)} (h : ∀ line ∈ lines, '\n' ∉ line) :
    (lines.flatMap fun line => line ++ ['\n']).splitOn '\n' = lines ++ [[]] := by
  induction lines with
  | nil => rfl
  | cons line lines ih =>
      obtain ⟨hline, hlines⟩ := List.forall_mem_cons.mp h
      rw [List.flatMap_cons, List.append_assoc, List.singleton_append,
        List.splitOn_append_cons_self, ih hlines, List.splitOn_eq_singleton hline]
      rfl

theorem all_mark (next : List Line) : (mark next).all lineEnd = true := by
  unfold mark
  split
  · rfl
  · rfl

theorem mark_of_mem_marked {lines : List Line} {x : Line × List Char} (h : x ∈ marked lines) :
    ∃ next, x.2 = mark next := by
  induction lines with
  | nil => cases h
  | cons l lines ih =>
      rcases List.mem_cons.mp h with rfl | h
      · exact ⟨lines, rfl⟩
      · exact ih h

theorem notMem_mark (next : List Line) : '\n' ∉ mark next := by
  intro h
  exact absurd (List.all_eq_true.mp (all_mark next) _ h) (by decide)

theorem Line.notMem_text (l : Line) : '\n' ∉ l.text := by
  rw [Line.text, spaced, List.mem_append, List.mem_flatMap]
  rintro (⟨x, hx, hmem⟩ | hmem)
  · rcases List.mem_append.mp hmem with hmem | hmem
    · exact absurd (List.eq_of_mem_replicate hmem) (by decide)
    · exact notMem_escapeFrom (l.named x hx).2 0 hmem
  · exact absurd (List.eq_of_mem_replicate hmem) (by decide)

theorem Rule.notMem_lines (r : Rule) : ∀ line ∈ r.lines, '\n' ∉ line := by
  intro line hline
  rcases List.mem_cons.mp hline with rfl | hline
  · have htarget : '\n' ∉ escape r.target := notMem_escapeFrom r.named 0
    simp [htarget, r.first.notMem_text, notMem_mark]
  · obtain ⟨x, hx, rfl⟩ := List.mem_map.mp hline
    obtain ⟨next, hmark⟩ := mark_of_mem_marked hx
    rw [hmark, List.mem_append, not_or]
    exact ⟨x.1.notMem_text, notMem_mark next⟩

theorem Rule.splitOn_text (r : Rule) : r.text.splitOn '\n' = r.lines ++ [[]] :=
  splitOn_flatMap r.notMem_lines

end MakeRule

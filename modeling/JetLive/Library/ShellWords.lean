import Mathlib.Data.List.Basic

/-!
# The words of a shell command

A shell takes a command apart at its blanks, except for those that are quoted: a backslash quotes
the next character, single quotes everything up to the next one, and double quotes everything but
some characters after a backslash. `split` follows these rules; it has no result if a quote is left
open. Expansions and operators are not modelled; `unquoted` are the characters that could be
operators.

The text is read from left to right. What is read next depends only on the `Mode` and not on the
words so far, so that the words of a command are put together from the words of its parts
(`split_append_blank`).
-/

namespace ShellWords

/-! ## Reading -/

/-- How the next character is quoted. -/
inductive Mode
  | plain
  | escape
  | single
  | double
  | doubleEscape
  deriving DecidableEq, Repr

def isBlank (c : Char) : Bool := c = ' ' || c = '\t' || c = '\n'

/-- The single quote, the double quote and the backslash. -/
def isQuoting (c : Char) : Bool := c = '\x27' || c = '\x22' || c = '\\'

/-- What a character does to the words. -/
inductive Action
  | close
  | put (text : List Char)
  | skip

namespace Mode

def next : Mode → Char → Mode
  | plain, c =>
      if c = '\x27' then single else if c = '\x22' then double
      else if c = '\\' then escape else plain
  | escape, _ => plain
  | single, c => if c = '\x27' then plain else single
  | double, c => if c = '\x22' then plain else if c = '\\' then doubleEscape else double
  | doubleEscape, _ => double

/-- A quote begins a word, even if nothing is between it and the next one. A newline after a
backslash disappears. -/
def action : Mode → Char → Action
  | plain, c =>
      if isBlank c then .close else if c = '\\' then .skip
      else .put (if isQuoting c then [] else [c])
  | escape, c => if c = '\n' then .skip else .put [c]
  | single, c => if c = '\x27' then .skip else .put [c]
  | double, c => if c = '\x22' ∨ c = '\\' then .skip else .put [c]
  | doubleEscape, c =>
      if c = '\n' then .skip
      else .put (if c ∈ ['$', '\x60', '\x22', '\\'] then [c] else ['\\', c])

end Mode

/-- The words that have been read, and the one that has begun. -/
structure State where
  words : List (List Char) := []
  current : Option (List Char) := none
  mode : Mode := .plain
  deriving DecidableEq, Repr

namespace State

/-- All words, if the text ends here. -/
def all (s : State) : List (List Char) := s.words ++ s.current.toList

def act (s : State) : Action → State
  | .close => { s with words := s.all, current := none }
  | .put text => { s with current := some (s.current.getD [] ++ text) }
  | .skip => s

def step (s : State) (c : Char) : State :=
  { s.act (s.mode.action c) with mode := s.mode.next c }

def run (s : State) (text : List Char) : State := text.foldl step s

/-- A backslash at the end stands for itself. -/
def finish (s : State) : Option (List (List Char)) :=
  match s.mode with
  | .plain => some s.all
  | .escape => some (s.act (.put ['\\'])).all
  | .single | .double | .doubleEscape => none

end State

def split (text : List Char) : Option (List (List Char)) := (State.run {} text).finish

/-- The characters that are read outside of quotes and not after a backslash. -/
def unquoted : Mode → List Char → List Char
  | _, [] => []
  | m, c :: text => (if m = .plain then [c] else []) ++ unquoted (m.next c) text

/-- The text ends outside of quotes and not with a backslash. -/
def IsClosed (text : List Char) : Prop := text.foldl Mode.next .plain = .plain

instance (text : List Char) : Decidable (IsClosed text) := inferInstanceAs (Decidable (_ = _))

/-- The text is one word as it stands. -/
def IsWord (text : List Char) : Prop :=
  text ≠ [] ∧ ∀ c ∈ text, isBlank c = false ∧ isQuoting c = false

instance (text : List Char) : Decidable (IsWord text) :=
  letI := List.decidableBAll (fun c => isBlank c = false ∧ isQuoting c = false) text
  inferInstanceAs (Decidable (_ ∧ _))

def Unquoted (text : List Char) : Prop := ∀ c ∈ text, isQuoting c = false

instance (text : List Char) : Decidable (Unquoted text) := List.decidableBAll _ text

/-- There is nothing to quote between double quotes. -/
def Verbatim (text : List Char) : Prop := ∀ c ∈ text, c ≠ '\x22' ∧ c ≠ '\\'

instance (text : List Char) : Decidable (Verbatim text) := List.decidableBAll _ text

/-! ## Modes -/

variable {s : State} {m : Mode} {c : Char} {text t₁ t₂ : List Char} {words : List (List Char)}

theorem State.run_append (s : State) (t₁ t₂ : List Char) :
    s.run (t₁ ++ t₂) = (s.run t₁).run t₂ := List.foldl_append

theorem State.mode_run (s : State) (text : List Char) :
    (s.run text).mode = text.foldl Mode.next s.mode := by
  induction text generalizing s with
  | nil => rfl
  | cons c text ih => exact ih (s.step c)

theorem unquoted_append (m : Mode) (t₁ t₂ : List Char) :
    unquoted m (t₁ ++ t₂) = unquoted m t₁ ++ unquoted (t₁.foldl Mode.next m) t₂ := by
  induction t₁ generalizing m with
  | nil => rfl
  | cons c t₁ ih =>
    rw [List.cons_append, unquoted, ih, unquoted, List.append_assoc, List.foldl_cons]

theorem unquoted_subset (m : Mode) (text : List Char) : unquoted m text ⊆ text := by
  induction text generalizing m with
  | nil => exact List.Subset.refl []
  | cons c text ih =>
      rw [unquoted]
      split
      · exact List.cons_subset_cons c (ih _)
      · exact List.subset_cons_of_subset c (ih _)

/-- The end is between quotes. -/
def Mode.IsOpen (m : Mode) : Prop := m = .single ∨ m = .double

theorem IsClosed.append (h₁ : IsClosed t₁) (h₂ : IsClosed t₂) : IsClosed (t₁ ++ t₂) := by
  rw [IsClosed, List.foldl_append, h₁]
  exact h₂

theorem foldl_next_of_forall (h : ∀ c ∈ text, m.next c = m) : text.foldl Mode.next m = m := by
  induction text with
  | nil => rfl
  | cons c text ih =>
      rw [List.foldl_cons, h c List.mem_cons_self]
      exact ih fun c hc => h c (List.mem_cons_of_mem _ hc)

theorem next_plain (h : isQuoting c = false) : Mode.plain.next c = .plain := by
  simp only [isQuoting, Bool.or_eq_false_iff, decide_eq_false_iff_not] at h
  simp [Mode.next, h]

theorem Unquoted.isClosed (h : Unquoted text) : IsClosed text :=
  foldl_next_of_forall fun c hc => next_plain (h c hc)

theorem Unquoted.append (h₁ : Unquoted t₁) (h₂ : Unquoted t₂) : Unquoted (t₁ ++ t₂) :=
  List.forall_mem_append.mpr ⟨h₁, h₂⟩

theorem unquoted_iff : Unquoted text ↔ Verbatim text ∧ '\x27' ∉ text := by
  constructor
  · intro h
    refine ⟨fun c hc => ?_, fun hmem => absurd (h _ hmem) (by decide)⟩
    have hquoting := h c hc
    simp only [isQuoting, Bool.or_eq_false_iff, decide_eq_false_iff_not] at hquoting
    exact ⟨hquoting.1.2, hquoting.2⟩
  · rintro ⟨h, hquote⟩ c hc
    have hne : c ≠ '\x27' := fun heq => hquote (heq ▸ hc)
    simp [isQuoting, hne, h c hc]

theorem IsWord.unquoted (h : IsWord text) : Unquoted text := fun c hc => (h.2 c hc).2

theorem IsWord.isClosed (h : IsWord text) : IsClosed text := h.unquoted.isClosed

theorem Verbatim.append (h₁ : Verbatim t₁) (h₂ : Verbatim t₂) : Verbatim (t₁ ++ t₂) :=
  List.forall_mem_append.mpr ⟨h₁, h₂⟩

theorem Verbatim.foldl_next_double (h : Verbatim text) :
    text.foldl Mode.next .double = .double := by
  refine foldl_next_of_forall fun c hc => ?_
  simp [Mode.next, h c hc]

/-- Inside or outside of single quotes. -/
def Mode.ofSingle (quoted : Bool) : Mode := if quoted then .single else .plain

theorem Mode.next_ofSingle (h : c ≠ '\x22' ∧ c ≠ '\\') (quoted : Bool) :
    (ofSingle quoted).next c = ofSingle (quoted ^^ decide (c = '\x27')) := by
  by_cases hc : c = '\x27' <;> cases quoted <;> simp [ofSingle, next, hc, h]

/-- Single quotes are not put into words. -/
theorem Mode.notMem_of_action {quoted : Bool} (h : (ofSingle quoted).action c = .put text) :
    '\x27' ∉ text := by
  by_cases hc : c = '\x27'
  · subst hc
    cases quoted with
    | false =>
        obtain rfl := Action.put.inj h
        exact List.not_mem_nil
    | true => cases h
  · cases quoted with
    | false =>
        change (if isBlank c then Action.close else if c = '\\' then .skip
          else .put (if isQuoting c then [] else [c])) = .put text at h
        split_ifs at h <;> obtain rfl := Action.put.inj h <;> simp [Ne.symm hc]
    | true =>
        change (if c = '\x27' then Action.skip else .put [c]) = .put text at h
        rw [if_neg hc, Action.put.injEq] at h
        simp [← h, Ne.symm hc]

def oddQuotes : List Char → Bool
  | [] => false
  | c :: text => decide (c = '\x27') ^^ oddQuotes text

theorem Verbatim.foldl_next_ofSingle (h : Verbatim text) (quoted : Bool) :
    text.foldl Mode.next (.ofSingle quoted) = .ofSingle (quoted ^^ oddQuotes text) := by
  induction text generalizing quoted with
  | nil => simp [oddQuotes]
  | cons c text ih =>
      rw [List.foldl_cons, Mode.next_ofSingle (h c List.mem_cons_self),
        ih fun c hc => h c (List.mem_cons_of_mem _ hc), oddQuotes, Bool.xor_assoc]

theorem Verbatim.isClosed (h : Verbatim text) (hquotes : oddQuotes text = false) :
    IsClosed text := by
  have hmode := h.foldl_next_ofSingle false
  rwa [hquotes] at hmode

/-- A text with an even number of single quotes does not close a quote that is open. -/
theorem Verbatim.isOpen (h : Verbatim text) (hquotes : oddQuotes text = false) (hm : m.IsOpen) :
    (text.foldl Mode.next m).IsOpen := by
  rcases hm with rfl | rfl
  · have hmode := h.foldl_next_ofSingle true
    rw [hquotes] at hmode
    exact .inl hmode
  · exact .inr h.foldl_next_double

theorem oddQuotes_append (t₁ t₂ : List Char) :
    oddQuotes (t₁ ++ t₂) = (oddQuotes t₁ ^^ oddQuotes t₂) := by
  induction t₁ with
  | nil => simp [oddQuotes]
  | cons c t₁ ih => simp [oddQuotes, ih]

theorem oddQuotes_of_notMem (h : '\x27' ∉ text) : oddQuotes text = false := by
  induction text with
  | nil => rfl
  | cons c text ih =>
      rw [List.mem_cons, not_or] at h
      simp [oddQuotes, ih h.2, Ne.symm h.1]

/-! ## Words -/

namespace State

/-- The state with other words in front of those that have been read. -/
def after (words : List (List Char)) (s : State) : State := { s with words := words ++ s.words }

theorem step_after (words : List (List Char)) (s : State) (c : Char) :
    (s.after words).step c = (s.step c).after words := by
  unfold step
  change { (s.after words).act (s.mode.action c) with mode := s.mode.next c } = _
  cases s.mode.action c <;> simp [act, after, all]

/-- The words in front do not change how a text is read. -/
theorem run_after (words : List (List Char)) (s : State) (text : List Char) :
    (s.after words).run text = (s.run text).after words := by
  induction text generalizing s with
  | nil => rfl
  | cons c text ih =>
      change ((s.after words).step c).run text = _
      rw [step_after]
      exact ih (s.step c)

theorem finish_after (words : List (List Char)) (s : State) :
    (s.after words).finish = s.finish.map (words ++ ·) := by
  have hmode : (s.after words).mode = s.mode := rfl
  unfold finish
  rw [hmode]
  cases s.mode <;> simp [after, act, all]

theorem step_blank (h : s.mode = .plain) : s.step ' ' = after s.all {} := by
  simp [step, h, Mode.action, Mode.next, isBlank, act, after]

theorem finish_of_plain (h : s.mode = .plain) : s.finish = some s.all := by
  rw [finish, h]

/-- No word is lost. -/
theorem length_all_le_step (s : State) (c : Char) : s.all.length ≤ (s.step c).all.length := by
  unfold step
  cases s.mode.action c with
  | close => simp [act, all]
  | put text => cases hcurrent : s.current <;> simp [act, all, hcurrent]
  | skip => exact Nat.le_refl _

theorem length_all_le_run (s : State) (text : List Char) :
    s.all.length ≤ (s.run text).all.length := by
  induction text generalizing s with
  | nil => exact Nat.le_refl _
  | cons c text ih => exact Nat.le_trans (length_all_le_step s c) (ih (s.step c))

/-- What every word has that is put together while the text is read. -/
theorem forall_all_run {p : List Char → Prop} {q : Mode → Prop} {r : Char → Prop}
    (hnext : ∀ m c, q m → r c → q (m.next c))
    (hput : ∀ m c, q m → r c → ∀ text, m.action c = .put text →
      ∀ word, word = [] ∨ p word → p (word ++ text))
    (htext : ∀ c ∈ text, r c) (hmode : q s.mode) (hall : ∀ word ∈ s.all, p word) :
    ∀ word ∈ (s.run text).all, p word := by
  induction text generalizing s with
  | nil => exact hall
  | cons c text ih =>
      have hc := htext c List.mem_cons_self
      refine ih (fun c hc => htext c (List.mem_cons_of_mem _ hc))
        (s := s.step c) (hnext _ c hmode hc) ?_
      unfold step
      cases haction : s.mode.action c with
      | close => simpa [act, all] using hall
      | skip => exact hall
      | put text =>
          have hword := hput _ c hmode hc text haction (s.current.getD [])
          intro word hmem
          rcases List.mem_append.mp hmem with hmem | hmem
          · exact hall word (List.mem_append_left _ hmem)
          · obtain rfl := List.mem_singleton.mp hmem
            cases hcurrent : s.current with
            | none => simpa [hcurrent] using hword (.inl (by simp [hcurrent]))
            | some word =>
                have hp : p word := hall word (List.mem_append_right _ (by simp [hcurrent]))
                simpa [hcurrent] using hword (.inr (by simpa [hcurrent] using hp))

theorem run_put (h : ∀ c ∈ text, m.next c = m ∧ m.action c = .put [c])
    (words : List (List Char)) (word : List Char) :
    run ⟨words, some word, m⟩ text = ⟨words, some (word ++ text), m⟩ := by
  induction text generalizing word with
  | nil => simp [run]
  | cons c text ih =>
      obtain ⟨hnext, haction⟩ := h c List.mem_cons_self
      have hstep : step ⟨words, some word, m⟩ c = ⟨words, some (word ++ [c]), m⟩ := by
        simp [step, hnext, haction, act]
      change (step ⟨words, some word, m⟩ c).run text = _
      rw [hstep, ih fun c hc => h c (List.mem_cons_of_mem _ hc), List.append_assoc]
      rfl

end State

/-! ## Commands -/

theorem split_of_isClosed (h : IsClosed text) : split text = some (State.run {} text).all :=
  State.finish_of_plain ((State.mode_run {} text).trans h)

theorem IsClosed.exists_split (h : IsClosed text) : ∃ words, split text = some words :=
  ⟨_, split_of_isClosed h⟩

/-- A blank ends the words of what stands before it. -/
theorem split_append_blank (h : IsClosed t₁) (hsplit : split t₁ = some words) (t₂ : List Char) :
    split (t₁ ++ ' ' :: t₂) = (split t₂).map (words ++ ·) := by
  rw [split_of_isClosed h, Option.some.injEq] at hsplit
  rw [split, State.run_append]
  change (((State.run {} t₁).step ' ').run t₂).finish = _
  rw [State.step_blank ((State.mode_run {} t₁).trans h), State.run_after, State.finish_after,
    hsplit]
  rfl

theorem split_blank (text : List Char) : split (' ' :: text) = split text := by
  have hclosed : IsClosed [] := rfl
  have hnil : split [] = some [] := rfl
  simpa using split_append_blank hclosed hnil text

theorem split_eq_none (h : (text.foldl Mode.next .plain).IsOpen) : split text = none := by
  rw [← State.mode_run {} text] at h
  rw [split, State.finish]
  rcases h with h | h <;> rw [h]

/-- A text that has words ends outside of quotes, maybe with a backslash. -/
theorem isClosed_or_escape_of_split (h : split text = some words) :
    IsClosed text ∨ text.foldl Mode.next .plain = .escape := by
  rw [IsClosed, ← State.mode_run {} text]
  rw [split, State.finish] at h
  split at h
  · rename_i hmode
    exact .inl hmode
  · rename_i hmode
    exact .inr hmode
  all_goals cases h

theorem isClosed_blank_of_split (h : split text = some words) : IsClosed (text ++ [' ']) := by
  rw [IsClosed, List.foldl_append]
  rcases isClosed_or_escape_of_split h with hmode | hmode <;> rw [hmode] <;> rfl

theorem isOpen_blank_of_split (h : split text = none) :
    ((text ++ [' ']).foldl Mode.next .plain).IsOpen := by
  rw [List.foldl_append, ← State.mode_run {} text]
  rw [split, State.finish] at h
  split at h
  · cases h
  · cases h
  · rename_i hmode
    exact .inl (by rw [hmode]; rfl)
  · rename_i hmode
    exact .inr (by rw [hmode]; rfl)
  · rename_i hmode
    exact .inr (by rw [hmode]; rfl)

theorem action_plain (hblank : isBlank c = false) (hquoting : isQuoting c = false) :
    Mode.plain.action c = .put [c] := by
  have hbackslash : c ≠ '\\' := by
    rintro rfl
    cases hquoting
  simp [Mode.action, hblank, hquoting, hbackslash]

theorem step_plain (hblank : isBlank c = false) (hquoting : isQuoting c = false) :
    State.step {} c = ⟨[], some [c], .plain⟩ := by
  simp [State.step, next_plain hquoting, action_plain hblank hquoting, State.act]

/-- There is a word if the text begins with one. -/
theorem ne_nil_of_split (hblank : isBlank c = false) (hquoting : isQuoting c = false)
    (hclosed : IsClosed (c :: text)) (hsplit : split (c :: text) = some words) : words ≠ [] := by
  rw [split_of_isClosed hclosed, Option.some.injEq] at hsplit
  have hle := State.length_all_le_run (State.step {} c) text
  rw [step_plain hblank hquoting] at hle
  rintro rfl
  change (State.run (State.step {} c) text).all = [] at hsplit
  rw [step_plain hblank hquoting] at hsplit
  rw [hsplit] at hle
  cases hle

theorem IsWord.forall_put (h : IsWord text) :
    ∀ c ∈ text, Mode.plain.next c = .plain ∧ Mode.plain.action c = .put [c] := by
  intro c hc
  obtain ⟨hblank, hquoting⟩ := h.2 c hc
  exact ⟨next_plain hquoting, action_plain hblank hquoting⟩

theorem split_of_isWord (h : IsWord text) : split text = some [text] := by
  cases text with
  | nil => exact absurd rfl h.1
  | cons c text =>
      obtain ⟨hblank, hquoting⟩ := h.2 c List.mem_cons_self
      change (State.run (State.step {} c) text).finish = _
      rw [step_plain hblank hquoting,
        State.run_put fun c hc => h.forall_put c (List.mem_cons_of_mem _ hc)]
      rfl

/-- A backslash at the end quotes the blank that follows. -/
theorem exists_split_of_escape (h : text.foldl Mode.next .plain = .escape) :
    ∃ words word, split text = some (words ++ [word ++ ['\\']]) ∧ ∀ t, IsWord t →
      IsClosed (text ++ ' ' :: t) ∧
        split (text ++ ' ' :: t) = some (words ++ [word ++ ' ' :: t]) := by
  have hmode : (State.run {} text).mode = .escape := (State.mode_run {} text).trans h
  refine ⟨(State.run {} text).words, (State.run {} text).current.getD [], ?_, fun t ht => ⟨?_, ?_⟩⟩
  · rw [split, State.finish, hmode]
    rfl
  · rw [IsClosed, List.foldl_append, h]
    exact ht.isClosed
  · have hstep : (State.run {} text).step ' ' = ⟨(State.run {} text).words,
        some ((State.run {} text).current.getD [] ++ [' ']), .plain⟩ := by
      simp [State.step, hmode, Mode.action, Mode.next, State.act]
    rw [split, State.run_append]
    change (((State.run {} text).step ' ').run t).finish = _
    rw [hstep, State.run_put ht.forall_put]
    simp [State.finish, State.all]

/-- Without quoting characters the words are as they stand in the text. -/
theorem Unquoted.isWord_of_mem_split (h : Unquoted text) (hsplit : split text = some words) :
    ∀ word ∈ words, IsWord word := by
  rw [split_of_isClosed h.isClosed, Option.some.injEq] at hsplit
  rw [← hsplit]
  refine State.forall_all_run (q := (· = .plain)) (r := fun c => isQuoting c = false) ?_ ?_ h rfl
    (by simp [State.all])
  · rintro m c rfl hc
    exact next_plain hc
  · rintro m c rfl hc put haction word hword
    have hblank : isBlank c = false := by
      rw [← Bool.not_eq_true]
      intro hblank
      simp [Mode.action, hblank] at haction
    rw [action_plain hblank hc, Action.put.injEq] at haction
    subst haction
    refine ⟨by simp, fun x hx => ?_⟩
    rcases List.mem_append.mp hx with hx | hx
    · rcases hword with rfl | hword
      · cases hx
      · exact hword.2 x hx
    · obtain rfl := List.mem_singleton.mp hx
      exact ⟨hblank, hc⟩

/-- Single quotes do not stand in words, unless they are quoted. -/
theorem Verbatim.notMem_of_mem_split (h : Verbatim text) (hsplit : split text = some words) :
    ∀ word ∈ words, '\x27' ∉ word := by
  have hclosed : IsClosed text := by
    cases hquotes : oddQuotes text with
    | false => exact h.isClosed hquotes
    | true =>
        have hmode := h.foldl_next_ofSingle false
        rw [hquotes] at hmode
        rw [split_eq_none (.inl hmode)] at hsplit
        cases hsplit
  rw [split_of_isClosed hclosed, Option.some.injEq] at hsplit
  rw [← hsplit]
  refine State.forall_all_run (q := fun m => ∃ quoted, m = .ofSingle quoted)
    (r := fun c => c ≠ '\x22' ∧ c ≠ '\\') ?_ ?_ h ⟨false, rfl⟩ (by simp [State.all])
  · rintro m c ⟨quoted, rfl⟩ hc
    exact ⟨_, Mode.next_ofSingle hc quoted⟩
  · rintro m c ⟨quoted, rfl⟩ hc put haction word hword
    rw [List.mem_append, not_or]
    refine ⟨?_, Mode.notMem_of_action haction⟩
    rcases hword with rfl | hword
    · exact List.not_mem_nil
    · exact hword

theorem split_eq_singleton_iff (h : Verbatim text) : split text = some [text] ↔ IsWord text := by
  refine ⟨fun hsplit => ?_, split_of_isWord⟩
  have hquote := h.notMem_of_mem_split hsplit text List.mem_cons_self
  have hunquoted : Unquoted text := unquoted_iff.mpr ⟨h, hquote⟩
  exact hunquoted.isWord_of_mem_split hsplit text List.mem_cons_self

/-! ## Double quotes -/

def doubleQuoted (name : List Char) : List Char := '\x22' :: (name ++ ['\x22'])

variable {name : List Char}

theorem Verbatim.isClosed_doubleQuoted (h : Verbatim name) : IsClosed (doubleQuoted name) := by
  rw [IsClosed, doubleQuoted, List.foldl_cons, List.foldl_append]
  change ['\x22'].foldl Mode.next (name.foldl Mode.next .double) = _
  rw [h.foldl_next_double]
  rfl

theorem Verbatim.split_doubleQuoted (h : Verbatim name) :
    split (doubleQuoted name) = some [name] := by
  have hput : ∀ c ∈ name, Mode.double.next c = .double ∧ Mode.double.action c = .put [c] := by
    intro c hc
    simp [Mode.next, Mode.action, h c hc]
  rw [split, doubleQuoted]
  change (State.run ⟨[], some [], .double⟩ (name ++ ['\x22'])).finish = _
  rw [State.run_append, State.run_put hput]
  rfl

/-- The quotes around a name and the ones in it do not close a quote that is open. -/
theorem Verbatim.isOpen_doubleQuoted (h : Verbatim name) (hm : m.IsOpen) :
    ((doubleQuoted name ++ [' ']).foldl Mode.next m).IsOpen := by
  have hfold : (doubleQuoted name ++ [' ']).foldl Mode.next m =
      ((name.foldl Mode.next (m.next '\x22')).next '\x22').next ' ' := by
    simp [doubleQuoted]
  rw [hfold]
  rcases hm with rfl | rfl
  · change (((name.foldl Mode.next (.ofSingle true)).next '\x22').next ' ').IsOpen
    rw [h.foldl_next_ofSingle]
    cases oddQuotes name
    · exact .inl rfl
    · exact .inr rfl
  · change (((name.foldl Mode.next (.ofSingle false)).next '\x22').next ' ').IsOpen
    rw [h.foldl_next_ofSingle]
    cases oddQuotes name
    · exact .inr rfl
    · exact .inl rfl

end ShellWords

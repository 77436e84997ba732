import JetLive.TeenyPath.Basic
import Mathlib.Data.List.TakeWhile

/-!
# Lexically normal paths

A path is lexically normal if none of its components is `.` or `..`. The test of
the library goes through `split`, which keeps the root together; `Normal` says the
same about the plain list of components, and `isLexicallyNormal_iff` is the
agreement. All the operations that shorten or extend a path keep it normal, so
the parent of any path is normal.
-/

namespace JetLive

namespace TeenyPath

def Plain (component : Path) : Prop := component ≠ ['.'] ∧ component ≠ ['.', '.']

/-- No component is `.` or `..`. -/
def Normal (p : Path) : Prop := ∀ component ∈ p.splitOn '/', Plain component

theorem normal_append_cons (p q : Path) : Normal (p ++ '/' :: q) ↔ Normal p ∧ Normal q := by
  unfold Normal
  rw [List.splitOn_append_cons_self, List.forall_mem_append]

theorem normal_of_notMem {p : Path} (h : '/' ∉ p) : Normal p ↔ Plain p := by
  unfold Normal
  rw [List.splitOn_eq_singleton h]
  simp

@[simp] theorem normal_nil : Normal [] := by
  simp [Normal, Plain]

@[simp] theorem normal_cons_separator (q : Path) : Normal ('/' :: q) ↔ Normal q := by
  have h := normal_append_cons [] q
  simpa using h

theorem separator_notMem_of_mem_splitOn {p component : Path}
    (h : component ∈ p.splitOn '/') : '/' ∉ component := by
  induction p generalizing component with
  | nil =>
      obtain rfl : component = [] := by simpa using h
      simp
  | cons c p ih =>
      rw [List.splitOn_cons_eq_if_modifyHead] at h
      split at h
      · rcases List.mem_cons.mp h with rfl | h
        · simp
        · exact ih h
      · rename_i hc
        cases hp : p.splitOn '/' with
        | nil => simp at hp
        | cons first others =>
            rw [hp, List.modifyHead_cons] at h
            rcases List.mem_cons.mp h with rfl | h
            · have hfirst : '/' ∉ first := ih (by simp [hp])
              simp only [List.mem_cons, not_or]
              exact ⟨fun heq => hc (by simp [← heq]), hfirst⟩
            · exact ih (by simp [hp, h])

/-! ## The root -/

theorem separator_notMem_takeWhile (p : Path) : '/' ∉ p.takeWhile (· ≠ '/') := by
  intro h
  simpa using List.mem_takeWhile_imp h

/-- Either the path has no separator, or it continues with one after its first
component. -/
theorem takeWhile_cases (p : Path) :
    p = p.takeWhile (· ≠ '/') ∨ ∃ q, p = p.takeWhile (· ≠ '/') ++ '/' :: q := by
  induction p with
  | nil => exact Or.inl rfl
  | cons c p ih =>
      by_cases hc : c = '/'
      · exact Or.inr ⟨p, by simp [hc]⟩
      · rcases ih with ih | ⟨q, ih⟩
        · exact Or.inl (by simpa [hc] using ih)
        · exact Or.inr ⟨q, by simpa [hc] using ih⟩

theorem plain_rootName (rest : Path) : Plain (rootName rest) := by
  unfold rootName
  split
  · simp [Plain]
  · rename_i h
    simp only [not_or] at h
    obtain ⟨hdots, hdot, hsingle, _⟩ := h
    rcases takeWhile_cases rest with hrest | ⟨q, hrest⟩
    · rw [← hrest]
      exact ⟨hsingle, fun heq => hdots ⟨[], by simp [heq]⟩⟩
    · constructor
      · intro heq
        exact hdot ⟨q, by rw [hrest, heq]; rfl⟩
      · intro heq
        exact hdots ⟨'/' :: q, by rw [hrest, heq]⟩

theorem normal_rootName (rest : Path) : Normal (rootName rest) := by
  refine (normal_of_notMem ?_).mpr (plain_rootName rest)
  unfold rootName
  split
  · simp
  · exact separator_notMem_takeWhile rest

theorem normal_drop_rootName (rest : Path) :
    Normal (rest.drop (rootName rest).length) ↔ Normal rest := by
  have hname := normal_rootName rest
  unfold rootName at hname ⊢
  split
  · simp
  · rename_i h
    rw [if_neg h] at hname
    rcases takeWhile_cases rest with hrest | ⟨q, hrest⟩
    · rw [← hrest] at hname ⊢
      simp [hname]
    · generalize rest.takeWhile (· ≠ '/') = name at hname hrest ⊢
      subst hrest
      rw [List.drop_left, normal_append_cons, normal_cons_separator]
      simp [hname]

theorem normal_getRoot (p : Path) : Normal (getRoot p) := by
  unfold getRoot
  split
  · split
    · simp
    · simpa using normal_rootName _
  · simpa using normal_rootName _
  · exact normal_nil

theorem normal_drop_getRoot (p : Path) : Normal (p.drop (getRoot p).length) ↔ Normal p := by
  unfold getRoot
  split
  · split
    · simp
    · simpa using normal_drop_rootName _
  · simpa using normal_drop_rootName _
  · simp

theorem head_getRoot (p : Path) (h : getRoot p ≠ []) : (getRoot p).head? = some '/' := by
  revert h
  unfold getRoot
  split
  · split <;> simp
  · simp
  · simp

/-- The test of the library is the absence of `.` and `..` among the components. -/
theorem isLexicallyNormal_iff (p : Path) : isLexicallyNormal p ↔ Normal p := by
  have hroot : ∀ component ∈ (if getRoot p = [] then [] else [getRoot p] : List Path),
      Plain component := by
    intro component h
    split at h
    · simp at h
    · rename_i hne
      obtain rfl := List.mem_singleton.mp h
      have hhead := head_getRoot p hne
      constructor <;> intro heq <;> simp [heq] at hhead
  have hsplit : isLexicallyNormal p ↔ ∀ component ∈ split p, Plain component := by
    simp only [isLexicallyNormal, Bool.and_eq_true, decide_eq_true_eq, List.count_eq_zero, Plain]
    constructor
    · rintro ⟨hdots, hdot⟩ component h
      exact ⟨fun heq => hdot (heq ▸ h), fun heq => hdots (heq ▸ h)⟩
    · intro h
      exact ⟨fun hmem => (h _ hmem).2 rfl, fun hmem => (h _ hmem).1 rfl⟩
  rw [hsplit, ← normal_drop_getRoot p, split, List.forall_mem_append]
  constructor
  · rintro ⟨_, hrest⟩ component h
    by_cases hnil : component = []
    · simp [hnil, Plain]
    · exact hrest component (List.mem_filter.mpr ⟨h, by simpa using hnil⟩)
  · intro h
    exact ⟨hroot, fun component hmem => h component (List.mem_of_mem_filter hmem)⟩

/-! ## The last separator -/

theorem separator_notMem_filename (p : Path) : '/' ∉ filename p := by
  rw [filename, List.mem_reverse]
  exact separator_notMem_takeWhile p.reverse

theorem beforeLastSeparator_append {p : Path} (h : '/' ∈ p) :
    beforeLastSeparator p ++ '/' :: filename p = p := by
  rcases takeWhile_cases p.reverse with hrev | ⟨q, hrev⟩
  · have hmem : '/' ∈ p.reverse := List.mem_reverse.mpr h
    rw [hrev] at hmem
    exact absurd hmem (separator_notMem_takeWhile _)
  · have hdrop : p.reverse.dropWhile (· ≠ '/') = '/' :: q := by
      have hsplit := List.takeWhile_append_dropWhile (p := (· ≠ '/')) (l := p.reverse)
      exact List.append_cancel_left (hsplit.trans hrev)
    rw [beforeLastSeparator, if_pos h, hdrop, List.tail_cons, filename]
    have hp := congrArg List.reverse hrev
    rw [List.reverse_reverse, List.reverse_append, List.reverse_cons, List.append_assoc] at hp
    exact hp.symm

theorem normal_beforeLastSeparator {p : Path} (h : Normal p) : Normal (beforeLastSeparator p) := by
  by_cases hsep : '/' ∈ p
  · rw [← beforeLastSeparator_append hsep, normal_append_cons] at h
    exact h.1
  · rwa [beforeLastSeparator, if_neg hsep]

/-! ## The parent -/

theorem normal_append {p q : Path} (hp : Normal p) (hq : Normal q) : Normal (append p q) := by
  unfold append
  split
  · exact hp
  · split
    · exact (normal_append_cons p q).mpr ⟨hp, hq⟩
    · rename_i hne hsep
      by_cases hhead : q.head? = some '/'
      · obtain ⟨q', rfl⟩ := List.head?_eq_some_iff.mp hhead
        exact (normal_append_cons p q').mpr ⟨hp, (normal_cons_separator q').mp hq⟩
      · by_cases hnil : p = []
        · simpa [hnil] using hq
        · have hlast : p.getLast? = some '/' := by
            by_contra hlast
            exact hsep ⟨hhead, hnil, hlast⟩
          obtain ⟨p', rfl⟩ := List.getLast?_eq_some_iff.mp hlast
          rw [List.append_assoc, List.singleton_append]
          exact (normal_append_cons p' q).mpr ⟨((normal_append_cons p' []).mp hp).1, hq⟩

theorem normal_parentOfNormal {p : Path} (h : Normal p) : Normal (parentOfNormal p) := by
  unfold parentOfNormal
  split
  · exact normal_getRoot p
  · exact normal_beforeLastSeparator h

theorem normal_of_mem_split {p part : Path} (h : part ∈ split p) (hplain : Plain part) :
    Normal part := by
  rcases List.mem_append.mp h with hroot | hrest
  · split at hroot
    · simp at hroot
    · rw [List.mem_singleton.mp hroot]
      exact normal_getRoot p
  · refine (normal_of_notMem ?_).mpr hplain
    exact separator_notMem_of_mem_splitOn (List.mem_of_mem_filter hrest)

theorem normal_lexicallyNormalized (p : Path) : Normal (lexicallyNormalized p) := by
  unfold lexicallyNormalized
  split
  · rename_i h
    exact (isLexicallyNormal_iff p).mp h
  · refine List.foldlRecOn (split p) normalizeStep normal_nil ?_
    intro q hq part hpart
    unfold normalizeStep
    split
    · exact normal_parentOfNormal hq
    · split
      · exact hq
      · rename_i hdots hdot
        exact normal_append hq (normal_of_mem_split hpart ⟨hdot, hdots⟩)

/-- The parent of any path is lexically normal. -/
theorem normal_parentPath (p : Path) : Normal (parentPath p) := by
  unfold parentPath
  split
  · exact normal_getRoot p
  · split
    · rename_i h
      exact normal_beforeLastSeparator ((isLexicallyNormal_iff p).mp h)
    · exact normal_parentOfNormal (normal_lexicallyNormalized p)

end TeenyPath

end JetLive

import JetLive.TeenyPath.Normal

/-!
# Absolute paths by their components

An absolute path without empty components, `.` and `..` is given by the list of its components.
On such a path the operations of TeenyPath act on the list, with two exceptions at its top: the
first component counts as a root, which is its own parent, and a first component that starts with
`..` does not even belong to the root, so that its parent is the empty path.
-/

namespace JetLive

namespace TeenyPath

def absolutePath (cs : List Path) : Path := cs.flatMap fun c => '/' :: c

structure Component (c : Path) : Prop where
  ne_nil : c ≠ []
  separator_notMem : '/' ∉ c
  plain : Plain c

instance (c : Path) : Decidable (Component c) :=
  decidable_of_iff (c ≠ [] ∧ '/' ∉ c ∧ c ≠ ['.'] ∧ c ≠ ['.', '.'])
    ⟨fun ⟨hne, hsep, hplain⟩ => ⟨hne, hsep, hplain⟩,
      fun h => ⟨h.ne_nil, h.separator_notMem, h.plain⟩⟩

def Dotted (c : Path) : Prop := ['.', '.'] <+: c

instance (c : Path) : Decidable (Dotted c) := inferInstanceAs (Decidable (_ <+: _))

@[simp] theorem absolutePath_nil : absolutePath [] = [] := rfl

@[simp] theorem absolutePath_cons (c : Path) (cs : List Path) :
    absolutePath (c :: cs) = '/' :: (c ++ absolutePath cs) := rfl

theorem absolutePath_append (cs cs' : List Path) :
    absolutePath (cs ++ cs') = absolutePath cs ++ absolutePath cs' :=
  List.flatMap_append

theorem absolutePath_concat (cs : List Path) (c : Path) :
    absolutePath (cs ++ [c]) = absolutePath cs ++ '/' :: c := by
  simp [absolutePath_append]

variable {c x : Path} {cs : List Path}

/-! ## The root -/

theorem takeWhile_append_absolutePath (hc : '/' ∉ c) (cs : List Path) :
    (c ++ absolutePath cs).takeWhile (· ≠ '/') = c := by
  have hpos : ∀ d ∈ c, decide (d ≠ '/') = true := by
    intro d hd
    rw [decide_eq_true_iff]
    rintro rfl
    exact hc hd
  rw [List.takeWhile_append_of_pos hpos]
  cases cs <;> simp

theorem dots_prefix_append_iff (hc : Component c) (cs : List Path) :
    ['.', '.'] <+: c ++ absolutePath cs ↔ Dotted c := by
  refine ⟨?_, fun h => h.trans (List.prefix_append _ _)⟩
  obtain ⟨hne, hsep, hplain⟩ := hc
  match c with
  | [] => exact absurd rfl hne
  | [d] =>
      intro h
      cases cs with
      | nil => simpa using h.length_le
      | cons _ _ => simp at h
  | d :: e :: c =>
      intro h
      simpa [Dotted] using h

theorem rootName_append_absolutePath (hc : Component c) (cs : List Path) :
    rootName (c ++ absolutePath cs) = if Dotted c then [] else c := by
  have hdots := dots_prefix_append_iff hc cs
  have htake := takeWhile_append_absolutePath hc.separator_notMem cs
  obtain ⟨d, c, rfl, hsep⟩ : ∃ d c', c = d :: c' ∧ '/' ∉ c' := by
    obtain ⟨d, c', rfl⟩ := List.exists_cons_of_ne_nil hc.ne_nil
    exact ⟨d, c', rfl, fun h => hc.separator_notMem (List.mem_cons_of_mem _ h)⟩
  -- only the component `.` makes the two other tests succeed
  have hdot : ¬ ['.', '/'] <+: d :: c ++ absolutePath cs := by
    intro h
    obtain ⟨rfl, hslash⟩ := List.cons_prefix_cons.mp h
    cases c with
    | nil => exact hc.plain.1 rfl
    | cons e c => exact hsep ((List.cons_prefix_cons.mp hslash).1 ▸ List.mem_cons_self)
  have hsingle : d :: c ++ absolutePath cs ≠ ['.'] := by
    intro h
    obtain ⟨rfl, hrest⟩ := List.cons.inj h
    exact hc.plain.1 (by rw [(List.append_eq_nil_iff.mp hrest).1])
  have hnil : d :: c ++ absolutePath cs ≠ [] := List.cons_ne_nil _ _
  unfold rootName
  simp only [hdots, hdot, hsingle, hnil, or_false, htake]

theorem head_ne_separator (hc : Component c) : ∃ d c', c = d :: c' ∧ d ≠ '/' := by
  obtain ⟨hne, hsep, _⟩ := hc
  match c with
  | [] => exact absurd rfl hne
  | d :: c => exact ⟨d, c, rfl, fun h => hsep (by simp [h])⟩

theorem getRoot_absolutePath_cons (hc : Component c) (cs : List Path) :
    getRoot (absolutePath (c :: cs)) = if Dotted c then ['/'] else '/' :: c := by
  have hroot := rootName_append_absolutePath hc cs
  obtain ⟨d, c', rfl, hd⟩ := head_ne_separator hc
  rw [absolutePath_cons, List.cons_append] at *
  unfold getRoot
  split
  · rename_i heq
    simp at heq
    exact absurd heq.1 hd
  · rename_i heq
    obtain rfl := (List.cons.inj heq).2
    rw [hroot]
    split <;> rfl
  · rename_i hnot
    exact absurd rfl (hnot _)

theorem isAbsolute_absolutePath_cons (hc : Component c) (cs : List Path) :
    isAbsolute (absolutePath (c :: cs)) = true := by
  obtain ⟨d, c', rfl, hd⟩ := head_ne_separator hc
  rw [absolutePath_cons, List.cons_append]
  unfold isAbsolute
  split
  · rename_i heq
    simp at heq
    exact absurd heq.1 hd
  · rename_i heq
    obtain ⟨rfl, _⟩ := List.cons.inj (List.cons.inj heq).2
    simpa using hd
  · rename_i hnot
    exact absurd rfl (hnot _ _)

/-! ## The components -/

theorem splitOn_append_absolutePath (hc : '/' ∉ c) (hcs : ∀ x ∈ cs, '/' ∉ x) :
    (c ++ absolutePath cs).splitOn '/' = c :: cs := by
  induction cs generalizing c with
  | nil => simpa using List.splitOn_eq_singleton hc
  | cons x cs ih =>
      obtain ⟨hx, hcs⟩ := List.forall_mem_cons.mp hcs
      rw [absolutePath_cons, List.splitOn_append_cons_self, ih hx hcs, List.splitOn_eq_singleton hc]
      rfl

theorem splitOn_absolutePath (hcs : ∀ x ∈ cs, '/' ∉ x) :
    (absolutePath cs).splitOn '/' = [] :: cs :=
  splitOn_append_absolutePath List.not_mem_nil hcs

/-- The parts of a path: the root may have the first component. Components after it may be
empty. -/
theorem split_absolutePath_cons (hc : Component c) (hcs : ∀ x ∈ cs, '/' ∉ x) :
    split (absolutePath (c :: cs)) =
      (if Dotted c then [['/'], c] else ['/' :: c]) ++ cs.filter (· ≠ []) := by
  have hroot := getRoot_absolutePath_cons hc cs
  rw [split, hroot]
  split
  · rw [if_neg (List.cons_ne_nil _ _), absolutePath_cons, List.length_singleton, List.drop_one,
      List.tail_cons, splitOn_append_absolutePath hc.separator_notMem hcs,
      List.filter_cons_of_pos (by simpa using hc.ne_nil)]
    rfl
  · have hdrop : (absolutePath (c :: cs)).drop ('/' :: c).length = absolutePath cs := by
      rw [absolutePath_cons, ← List.cons_append, List.drop_left]
    rw [if_neg (List.cons_ne_nil _ _), hdrop, splitOn_absolutePath hcs]
    simp

theorem isRoot_absolutePath_cons (hc : Component c) (hcs : ∀ x ∈ cs, '/' ∉ x) :
    isRoot (absolutePath (c :: cs)) = true ↔ ¬ Dotted c ∧ ∀ x ∈ cs, x = [] := by
  have hne : absolutePath (c :: cs) ≠ ['/'] := by
    intro h
    exact hc.ne_nil (List.append_eq_nil_iff.mp (List.cons.inj h).2).1
  have hne' : absolutePath (c :: cs) ≠ ['/', '/'] := by
    intro h
    obtain ⟨d, c', rfl, hd⟩ := head_ne_separator hc
    exact hd (List.cons.inj (List.cons.inj h).2).1
  rw [isRoot, split_absolutePath_cons hc hcs, isAbsolute_absolutePath_cons hc]
  simp only [hne, hne', decide_false, Bool.or_false, Bool.and_true, decide_eq_true_iff]
  split
  · simp [*]
  · simp [*]

theorem normal_absolutePath (hcs : ∀ x ∈ cs, '/' ∉ x) :
    Normal (absolutePath cs) ↔ ∀ x ∈ cs, Plain x := by
  rw [Normal, splitOn_absolutePath hcs, List.forall_mem_cons]
  exact and_iff_right (by simp [Plain])

theorem beforeLastSeparator_absolutePath_concat (hx : '/' ∉ x) (cs : List Path) :
    beforeLastSeparator (absolutePath (cs ++ [x])) = absolutePath cs := by
  have hpos : ∀ d ∈ x.reverse, decide (d ≠ '/') = true := by
    intro d hd
    rw [decide_eq_true_iff]
    rintro rfl
    exact hx (List.mem_reverse.mp hd)
  rw [absolutePath_concat, beforeLastSeparator, if_pos (by simp), List.reverse_append,
    List.reverse_cons, List.append_assoc, List.dropWhile_append_of_pos hpos]
  simp

/-- The parent of a path: the path itself if it is a first directory, and otherwise the path without
its last component. -/
theorem parentPath_absolutePath_concat (hcs : ∀ y ∈ cs ++ [x], Component y) :
    parentPath (absolutePath (cs ++ [x])) =
      if cs = [] ∧ ¬ Dotted x then absolutePath [x] else absolutePath cs := by
  have hsep : ∀ y ∈ cs ++ [x], '/' ∉ y := fun y hy => (hcs y hy).separator_notMem
  have hx : Component x := hcs x (by simp)
  have hnormal : isLexicallyNormal (absolutePath (cs ++ [x])) = true :=
    (isLexicallyNormal_iff _).mpr ((normal_absolutePath hsep).mpr fun y hy => (hcs y hy).plain)
  unfold parentPath
  cases cs with
  | nil =>
      have hroot := isRoot_absolutePath_cons hx (List.forall_mem_nil _)
      by_cases hdotted : Dotted x
      · rw [if_neg (by rw [List.nil_append, hroot]; simp [hdotted]), if_pos hnormal,
          beforeLastSeparator_absolutePath_concat hx.separator_notMem]
        simp [hdotted]
      · rw [if_pos (by rw [List.nil_append, hroot]; simp [hdotted]), List.nil_append,
          getRoot_absolutePath_cons hx]
        simp [hdotted]
  | cons c cs =>
      have hroot := isRoot_absolutePath_cons (hcs c (by simp))
        (fun y hy => hsep y (List.mem_cons_of_mem c hy) : ∀ y ∈ cs ++ [x], '/' ∉ y)
      have hnot : ¬ isRoot (absolutePath (c :: cs ++ [x])) = true := by
        rw [List.cons_append, hroot]
        exact fun h => hx.ne_nil (h.2 x (by simp))
      rw [if_neg hnot, if_pos hnormal, beforeLastSeparator_absolutePath_concat hx.separator_notMem]
      simp

theorem append_absolutePath (hcs : ∀ y ∈ cs, Component y) (hx : Component x) (hne : cs ≠ []) :
    append (absolutePath cs) x = absolutePath (cs ++ [x]) := by
  obtain ⟨cs, c, rfl⟩ := (List.eq_nil_or_concat' cs).resolve_left hne
  have hc : Component c := hcs c (by simp)
  have hhead : x.head? ≠ some '/' := by
    obtain ⟨d, x', rfl, hd⟩ := head_ne_separator hx
    simpa using hd
  have hlast : (absolutePath (cs ++ [c])).getLast? ≠ some '/' := by
    obtain ⟨c, e, rfl⟩ := (List.eq_nil_or_concat' c).resolve_left hc.ne_nil
    have he : e ≠ '/' := fun h => hc.separator_notMem (by simp [h])
    rw [absolutePath_concat, ← List.cons_append, ← List.append_assoc, List.getLast?_concat]
    simpa using he
  have hne' : absolutePath (cs ++ [c]) ≠ [] := by
    rw [absolutePath_concat]
    simp
  rw [append, if_neg hx.ne_nil, if_pos ⟨hhead, hne', hlast⟩, absolutePath_concat (cs ++ [c])]

/-! ## Paths that are cut off -/

theorem absolutePath_mono {cs' : List Path} (h : cs' <+: cs) :
    absolutePath cs' <+: absolutePath cs := by
  obtain ⟨rest, rfl⟩ := h
  rw [absolutePath_append]
  exact List.prefix_append _ _

/-- A path that is cut off at any character has some of the components and the start of one. -/
theorem exists_components_of_prefix_path {p : Path} (hcs : ∀ y ∈ cs, Component y)
    (hp : p <+: absolutePath cs) (hne : p ≠ []) :
    ∃ ds x, p = absolutePath (ds ++ [x]) ∧ ds <+: cs ∧ ds.length < cs.length ∧ '/' ∉ x := by
  induction cs generalizing p with
  | nil => exact absurd (List.prefix_nil.mp hp) hne
  | cons c cs ih =>
      obtain ⟨hc, hcs⟩ := List.forall_mem_cons.mp hcs
      obtain ⟨e, p, rfl⟩ := List.exists_cons_of_ne_nil hne
      obtain ⟨rfl, hpre⟩ := List.cons_prefix_cons.mp hp
      by_cases hlength : p.length ≤ c.length
      · have hstart := List.prefix_of_prefix_length_le hpre (List.prefix_append c _) hlength
        exact ⟨[], p, by simp, List.nil_prefix, by simp,
          fun h => hc.separator_notMem (hstart.subset h)⟩
      · obtain ⟨rest, rfl⟩ := List.prefix_of_prefix_length_le (List.prefix_append c _) hpre
          (not_le.mp hlength).le
        have hrest : rest ≠ [] := by
          rintro rfl
          simp at hlength
        obtain ⟨ds, x, rfl, hds, hlt, hx⟩ :=
          ih hcs ((List.prefix_append_right_inj c).mp hpre) hrest
        exact ⟨c :: ds, x, rfl, List.cons_prefix_cons.mpr ⟨rfl, hds⟩, by simpa using hlt, hx⟩

/-- The parent of a path has some of its components. Only a first component that starts with `..`
has no parent. -/
theorem parentOfNormal_absolutePath (hcs : ∀ y ∈ cs, Component y) :
    ∃ ds, ds <+: cs ∧ parentOfNormal (absolutePath cs) = absolutePath ds ∧
      (ds = [] → ∀ c ∈ cs.head?, Dotted c) := by
  have hnormal : isLexicallyNormal (absolutePath cs) = true :=
    (isLexicallyNormal_iff _).mpr ((normal_absolutePath fun y hy =>
      (hcs y hy).separator_notMem).mpr fun y hy => (hcs y hy).plain)
  have hparent : parentOfNormal (absolutePath cs) = parentPath (absolutePath cs) := by
    rw [parentOfNormal, parentPath, if_pos hnormal]
  rw [hparent]
  rcases List.eq_nil_or_concat' cs with rfl | ⟨ds, x, rfl⟩
  · exact ⟨[], List.nil_prefix, by decide, by simp⟩
  · rw [parentPath_absolutePath_concat hcs]
    split
    · rename_i hfirst
      rw [hfirst.1]
      exact ⟨[x], List.prefix_rfl, rfl, by simp⟩
    · rename_i hfirst
      refine ⟨ds, List.prefix_append _ _, rfl, ?_⟩
      rintro rfl
      simpa using hfirst

/-- Reading plain parts after each other puts the path together. -/
theorem foldl_normalizeStep (hcs : ∀ y ∈ c :: cs, Component y) (ds : List Path)
    (hds : ∀ y ∈ ds, Component y) :
    ds.foldl normalizeStep (absolutePath (c :: cs)) = absolutePath (c :: cs ++ ds) := by
  induction ds generalizing cs with
  | nil => simp
  | cons x ds ih =>
      obtain ⟨hx, hds⟩ := List.forall_mem_cons.mp hds
      have hstep : normalizeStep (absolutePath (c :: cs)) x = absolutePath (c :: (cs ++ [x])) := by
        rw [normalizeStep, if_neg hx.plain.2, if_neg hx.plain.1,
          append_absolutePath hcs hx (List.cons_ne_nil _ _)]
        rfl
      have hcs' : ∀ y ∈ c :: (cs ++ [x]), Component y := by
        simpa [or_imp, forall_and, hx] using hcs
      rw [List.foldl_cons, hstep, ih hcs' hds]
      simp

/-- The parts before a last part `.` or `..` give back the path without it. -/
theorem lexicallyNormalized_cut (hds : ∀ y ∈ c :: cs, Component y) (hx : '/' ∉ x)
    (hplain : ¬ Plain x) :
    lexicallyNormalized (absolutePath (c :: cs ++ [x])) =
      normalizeStep (absolutePath (c :: cs)) x := by
  obtain ⟨hc, hcs⟩ := List.forall_mem_cons.mp hds
  have hsep : ∀ y ∈ cs ++ [x], '/' ∉ y := by
    simpa [or_imp, forall_and, hx] using fun y hy => (hcs y hy).separator_notMem
  have hnormal : ¬ isLexicallyNormal (absolutePath (c :: cs ++ [x])) = true := by
    rw [isLexicallyNormal_iff, List.cons_append,
      normal_absolutePath (List.forall_mem_cons.mpr ⟨hc.separator_notMem, hsep⟩)]
    exact fun h => hplain (h x (by simp))
  have hne : x ≠ [] := by
    rintro rfl
    exact hplain (by simp [Plain])
  have hsplit : split (absolutePath (c :: cs ++ [x])) =
      (if Dotted c then [['/'], c] else ['/' :: c]) ++ (cs ++ [x]) := by
    have hfilter : (cs ++ [x]).filter (· ≠ []) = cs ++ [x] := by
      refine List.filter_eq_self.mpr fun y hy => ?_
      rcases List.mem_append.mp hy with hy | hy
      · simpa using (hcs y hy).ne_nil
      · simpa [List.mem_singleton.mp hy] using hne
    rw [List.cons_append, split_absolutePath_cons hc hsep, hfilter]
  have hstart : (if Dotted c then [['/'], c] else ['/' :: c]).foldl normalizeStep [] =
      absolutePath [c] := by
    split
    · simp [normalizeStep, append, hc.plain.1, hc.plain.2, hc.ne_nil]
    · simp [normalizeStep, append]
  rw [lexicallyNormalized, if_neg hnormal, hsplit, List.foldl_append, hstart, List.foldl_append,
    foldl_normalizeStep (by simpa using hc) cs hcs]
  rfl

/-- The parent of a path that was cut off behind its first component. The last part may have become
`.` or `..`. -/
theorem parentPath_cut (hds : ∀ y ∈ c :: cs, Component y) (hx : '/' ∉ x) :
    ∃ ds, ds <+: c :: cs ∧ parentPath (absolutePath (c :: cs ++ [x])) = absolutePath ds ∧
      (ds = [] → Dotted c) := by
  have hc : Component c := hds c List.mem_cons_self
  have hsep : ∀ y ∈ cs ++ [x], '/' ∉ y := by
    obtain ⟨_, hcs⟩ := List.forall_mem_cons.mp hds
    simpa [or_imp, forall_and, hx] using fun y hy => (hcs y hy).separator_notMem
  unfold parentPath
  by_cases hroot : isRoot (absolutePath (c :: cs ++ [x])) = true
  · have hdotted := ((isRoot_absolutePath_cons hc hsep).mp hroot).1
    rw [if_pos hroot, List.cons_append, getRoot_absolutePath_cons hc, if_neg hdotted]
    exact ⟨[c], List.cons_prefix_cons.mpr ⟨rfl, List.nil_prefix⟩, by simp, by simp⟩
  have hnormal : isLexicallyNormal (absolutePath (c :: cs ++ [x])) = true ↔ Plain x := by
    rw [isLexicallyNormal_iff, List.cons_append,
      normal_absolutePath (List.forall_mem_cons.mpr ⟨hc.separator_notMem, hsep⟩),
      ← List.cons_append, List.forall_mem_append, and_iff_right fun y hy => (hds y hy).plain,
      List.forall_mem_singleton]
  rw [if_neg hroot]
  by_cases hplain : Plain x
  · rw [if_pos (hnormal.mpr hplain), beforeLastSeparator_absolutePath_concat hx]
    exact ⟨c :: cs, List.prefix_rfl, rfl, by simp⟩
  rw [if_neg (mt hnormal.mp hplain), lexicallyNormalized_cut hds hx hplain]
  obtain ⟨ds, hpre, heq, hnil⟩ := parentOfNormal_absolutePath hds
  by_cases hdots : x = ['.', '.']
  · obtain ⟨ds', hpre', heq', hnil'⟩ :=
      parentOfNormal_absolutePath fun y hy => hds y (hpre.subset hy)
    rw [normalizeStep, if_pos hdots, heq, heq']
    refine ⟨ds', hpre'.trans hpre, rfl, fun hempty => ?_⟩
    cases ds with
    | nil => exact hnil rfl c rfl
    | cons d ds => exact (List.cons_prefix_cons.mp hpre).1 ▸ hnil' hempty d rfl
  · have hdot : x = ['.'] := by
      by_contra hdot
      exact hplain ⟨hdot, hdots⟩
    rw [normalizeStep, if_neg hdots, if_pos hdot]
    exact ⟨ds, hpre, heq, fun hempty => hnil hempty c rfl⟩

/-- A component that starts with `..` goes on after that. -/
theorem Component.exists_of_dotted (hc : Component c) (h : Dotted c) :
    ∃ d, ['.', '.', d] <+: c := by
  obtain ⟨rest, rfl⟩ := h
  cases rest with
  | nil => exact absurd rfl hc.plain.2
  | cons d rest => exact ⟨d, rest, rfl⟩

/-- The parent of a path that was cut off is a start of it. It is empty only if the first component
starts with `..` and something after that. -/
theorem parentPath_prefix_self {p : Path} (hcs : ∀ y ∈ cs, Component y)
    (hp : p <+: absolutePath cs) :
    parentPath p <+: p ∧ (p ≠ [] → parentPath p = [] → ∃ d, ['/', '.', '.', d] <+: p) := by
  by_cases hne : p = []
  · subst hne
    exact ⟨by decide, by simp⟩
  obtain ⟨ds, x, rfl, hsub, _, hx⟩ := exists_components_of_prefix_path hcs hp hne
  have hds : ∀ y ∈ ds, Component y := fun y hy => hcs y (hsub.subset hy)
  cases ds with
  | nil =>
      by_cases hx' : Component x
      · rw [parentPath_absolutePath_concat (by simpa using hx')]
        split
        · exact ⟨List.prefix_rfl, by simp⟩
        · rename_i hdotted
          obtain ⟨d, hd⟩ := hx'.exists_of_dotted (by simpa using hdotted)
          refine ⟨List.nil_prefix, fun _ _ => ⟨d, List.cons_prefix_cons.mpr ⟨rfl, ?_⟩⟩⟩
          exact hd.trans (List.prefix_append _ _)
      · have hcases : x = [] ∨ x = ['.'] ∨ x = ['.', '.'] := by
          by_contra h
          rw [not_or, not_or] at h
          exact hx' ⟨h.1, hx, h.2.1, h.2.2⟩
        rcases hcases with rfl | rfl | rfl
        · exact ⟨by decide, fun _ h => absurd h (by decide)⟩
        · exact ⟨by decide, fun _ h => absurd h (by decide)⟩
        · exact ⟨by decide, fun _ h => absurd h (by decide)⟩
  | cons d ds =>
      obtain ⟨ds', hpre, heq, hnil⟩ := parentPath_cut hds hx
      rw [heq]
      refine ⟨absolutePath_mono (hpre.trans (List.prefix_append _ _)), fun _ hempty => ?_⟩
      have hds' : ds' = [] := by
        cases ds' with
        | nil => rfl
        | cons e ds' => exact absurd hempty (List.cons_ne_nil _ _)
      obtain ⟨e, he⟩ := (hds d List.mem_cons_self).exists_of_dotted (hnil hds')
      rw [List.cons_append, absolutePath_cons]
      exact ⟨e, List.cons_prefix_cons.mpr ⟨rfl, he.trans (List.prefix_append _ _)⟩⟩

/-! ## Paths below a first component that starts with `..` -/

/-- The first component starts with `..`, if there is one. -/
def Unrooted (cs : List Path) : Prop := ∀ c ∈ cs.head?, Dotted c

theorem Unrooted.of_prefix_of {ds : List Path} (h : Unrooted cs) (hds : ds <+: cs) :
    Unrooted ds := by
  intro c hc
  obtain ⟨ds, rfl⟩ := List.head?_eq_some_iff.mp hc
  obtain ⟨rest, rfl⟩ := hds
  exact h c rfl

theorem unrooted_of_dotted (hcs : ∀ y ∈ cs, Component y) {d : Char}
    (hd : ['/', '.', '.', d] <+: absolutePath cs) : Unrooted cs := by
  intro c hc
  obtain ⟨cs, rfl⟩ := List.head?_eq_some_iff.mp hc
  obtain ⟨_, hdots⟩ := List.cons_prefix_cons.mp hd
  exact (dots_prefix_append_iff (hcs c List.mem_cons_self) cs).mp
    (List.IsPrefix.trans ⟨[d], rfl⟩ hdots)

theorem absolutePath_eq_nil_iff : absolutePath cs = [] ↔ cs = [] := by
  cases cs <;> simp

theorem parentPath_of_unrooted (hcs : ∀ y ∈ cs, Component y) (h : Unrooted cs) :
    parentPath (absolutePath cs) = absolutePath cs.dropLast := by
  rcases List.eq_nil_or_concat' cs with rfl | ⟨ds, x, rfl⟩
  · decide
  · have hfirst : ¬ (ds = [] ∧ ¬ Dotted x) := by
      rintro ⟨rfl, hx⟩
      exact hx (h x rfl)
    rw [parentPath_absolutePath_concat hcs, if_neg hfirst, List.dropLast_concat]

/-- The parents become empty after as many steps as there are components. -/
theorem iterate_parentPath_eq_nil_iff (hcs : ∀ y ∈ cs, Component y) (h : Unrooted cs) (n : ℕ) :
    parentPath^[n] (absolutePath cs) = [] ↔ cs.length ≤ n := by
  induction n generalizing cs with
  | zero => rw [Function.iterate_zero_apply, absolutePath_eq_nil_iff, Nat.le_zero_eq,
      List.length_eq_zero_iff]
  | succ n ih =>
      have hpre := List.dropLast_prefix cs
      rw [Function.iterate_succ_apply, parentPath_of_unrooted hcs h,
        ih (fun y hy => hcs y (hpre.subset hy)) (h.of_prefix_of hpre), List.length_dropLast]
      omega

/-- A path that was cut off behind `/..` and one more character has fewer components than before
when its parent is taken. -/
theorem parentPath_cut_of_dotted {p : Path} (hcs : ∀ y ∈ cs, Component y)
    (hp : p <+: absolutePath cs) {d : Char} (hd : ['/', '.', '.', d] <+: p) :
    ∃ ds, ds <+: cs ∧ ds.length < cs.length ∧ parentPath p = absolutePath ds := by
  have hne : p ≠ [] := by
    rintro rfl
    simpa using hd.length_le
  obtain ⟨ds, x, rfl, hds, hlt, hx⟩ := exists_components_of_prefix_path hcs hp hne
  cases ds with
  | nil =>
      have hdots : ['.', '.', d] <+: x := by simpa using hd
      have hcomponent : Component x := by
        obtain ⟨rest, rfl⟩ := hdots
        exact ⟨by simp, hx, by simp [Plain]⟩
      have hdotted : Dotted x := List.IsPrefix.trans ⟨[d], rfl⟩ hdots
      rw [parentPath_absolutePath_concat (by simpa using hcomponent)]
      exact ⟨[], List.nil_prefix, hlt, by simp [hdotted]⟩
  | cons c ds =>
      obtain ⟨ds', hpre, heq, _⟩ := parentPath_cut (fun y hy => hcs y (hds.subset hy)) hx
      exact ⟨ds', hpre.trans hds, lt_of_le_of_lt hpre.length_le hlt, heq⟩

end TeenyPath

end JetLive

import JetLive.Live.UnitDiff
import JetLive.TeenyPath.Components

/-!
# The directory of all sources

The depfiles are read with a filter, the common directory of all source files. It is found in a
loop over the units, in no particular order: the directory found so far is cut at the first
byte that differs from the next path, and replaced by its parent if it is not a directory.

If the next path is a start of the directory found so far, nothing is cut. So a source file whose
path is the start of another one, as `/p/foo.c` and `/p/foo.c.d/x.c`, may be missed. `Branching`
says that the paths exclude this.

The parent of a directory such as `/..x` is empty, and with an empty directory the loop begins anew,
so that the paths before are forgotten. `Rooted` says that there are not enough paths with the same
beginning to get there before the last one, and `rooted_iff` that this is the exact condition.
-/

namespace JetLive

open Containers TeenyPath

namespace LiveWorld

/-! ## The loop -/

theorem commonStart_prefix_left (p q : Path) : commonStart p q <+: p := by
  induction p generalizing q with
  | nil => cases q <;> exact List.nil_prefix
  | cons c p ih =>
      cases q with
      | nil => exact List.prefix_rfl
      | cons d q =>
          rw [commonStart]
          split
          · exact List.cons_prefix_cons.mpr ⟨rfl, ih q⟩
          · exact List.nil_prefix

/-- The common start is one of the other path as well, unless that path ends first. -/
theorem commonStart_cases (p q : Path) :
    commonStart p q <+: q ∨ q <+: p ∧ commonStart p q = p := by
  induction p generalizing q with
  | nil => cases q <;> exact .inl List.nil_prefix
  | cons c p ih =>
      cases q with
      | nil => exact .inr ⟨List.nil_prefix, rfl⟩
      | cons d q =>
          rw [commonStart]
          split
          · rename_i hcd
            subst hcd
            rcases ih q with h | ⟨h, heq⟩
            · exact .inl (List.cons_prefix_cons.mpr ⟨rfl, h⟩)
            · exact .inr ⟨List.cons_prefix_cons.mpr ⟨rfl, h⟩, by rw [heq]⟩
          · exact .inl List.nil_prefix

/-- A start of both paths is a start of the common one. -/
theorem prefix_commonStart {x p q : Path} (hp : x <+: p) (hq : x <+: q) :
    x <+: commonStart p q := by
  induction x generalizing p q with
  | nil => exact List.nil_prefix
  | cons c x ih =>
      obtain ⟨p, rfl⟩ := hp
      obtain ⟨q, rfl⟩ := hq
      rw [List.cons_append, List.cons_append, commonStart, if_pos rfl]
      exact List.cons_prefix_cons.mpr ⟨rfl, ih (List.prefix_append _ _) (List.prefix_append _ _)⟩

theorem commonStart_of_prefix_left {p q : Path} (h : q <+: p) : commonStart p q = p := by
  induction q generalizing p with
  | nil => cases p <;> rfl
  | cons d q ih =>
      obtain ⟨rest, rfl⟩ := h
      rw [List.cons_append, commonStart, if_pos rfl, ih (List.prefix_append _ _)]

/-- A cut is made where both paths go on differently. -/
theorem commonStart_eq_of_ne {acc t q : Path} (hne : commonStart acc q ≠ acc) (hpre : acc <+: t) :
    commonStart t q = commonStart acc q ∧ ¬ t <+: q ∧ ¬ q <+: t := by
  induction acc generalizing t q with
  | nil => exact absurd (by cases q <;> rfl) hne
  | cons c acc ih =>
      obtain ⟨rest, rfl⟩ := hpre
      cases q with
      | nil => exact absurd rfl hne
      | cons d q =>
          by_cases hcd : c = d
          · subst hcd
            simp only [commonStart, if_true, ne_eq, List.cons.injEq, true_and] at hne
            obtain ⟨heq, hnot⟩ := ih hne (List.prefix_append acc rest)
            simpa [commonStart, List.cons_prefix_cons, heq] using hnot
          · simp [commonStart, List.cons_prefix_cons, hcd, Ne.symm hcd]

structure SourcePath (p : Path) : Prop where
  components : ∃ cs, (∀ c ∈ cs, Component c) ∧ p = absolutePath cs
  ne_nil : p ≠ []

namespace SourcePath

variable {acc p : Path}

theorem separator_prefix_path (h : SourcePath p) : ['/'] <+: p := by
  obtain ⟨cs, _, rfl⟩ := h.components
  cases cs with
  | nil => exact absurd rfl h.ne_nil
  | cons c cs => exact List.cons_prefix_cons.mpr ⟨rfl, List.nil_prefix⟩

theorem parentPath_prefix_self (h : SourcePath p) (hpre : acc <+: p) :
    parentPath acc <+: acc ∧
      (acc ≠ [] → parentPath acc = [] → ∃ d, ['/', '.', '.', d] <+: acc) := by
  obtain ⟨cs, hcs, rfl⟩ := h.components
  exact TeenyPath.parentPath_prefix_self hcs hpre

/-- None of `/`, `/.` and `/..` is such a path. -/
theorem four_le_length (h : SourcePath p) {d : Char} {rest : Path}
    (hpre : p <+: '/' :: '.' :: '.' :: d :: rest) : 4 ≤ p.length := by
  obtain ⟨cs, hcs, rfl⟩ := h.components
  have hsplit := splitOn_absolutePath fun y hy => (hcs y hy).separator_notMem
  by_contra hlt
  have htake := List.prefix_iff_eq_take.mp hpre
  have hcases : absolutePath cs = [] ∨ absolutePath cs = ['/'] ∨ absolutePath cs = ['/', '.'] ∨
      absolutePath cs = ['/', '.', '.'] := by
    generalize absolutePath cs = p at hlt htake
    generalize hn : p.length = n at hlt htake
    rw [htake]
    match n with
    | 0 | 1 | 2 | 3 => simp
    | n + 4 => exact absurd (Nat.le_add_left 4 n) hlt
  rcases hcases with heq | heq | heq | heq
  · exact h.ne_nil heq
  · rw [heq, show ['/'].splitOn '/' = [[], []] from rfl] at hsplit
    obtain rfl := (List.cons.inj hsplit).2
    exact (hcs [] (by simp)).ne_nil rfl
  · rw [heq, show ['/', '.'].splitOn '/' = [[], ['.']] from rfl] at hsplit
    obtain rfl := (List.cons.inj hsplit).2
    exact (hcs ['.'] (by simp)).plain.1 rfl
  · rw [heq, show ['/', '.', '.'].splitOn '/' = [[], ['.', '.']] from rfl] at hsplit
    obtain rfl := (List.cons.inj hsplit).2
    exact (hcs ['.', '.'] (by simp)).plain.2 rfl

end SourcePath

variable {acc p q : Path} {fs : FileSystem} {l : List String}

/-- The directory found so far is not empty, is a start of a path, and is comparable with all
paths. -/
structure Narrowed (l : List String) (acc : Path) : Prop where
  ne_nil : acc ≠ []
  exists_prefix_path : ∃ t ∈ l, acc <+: t.toList
  comparable : ∀ u ∈ l, acc <+: u.toList ∨ u.toList <+: acc

theorem Narrowed.of_prefix_of_ne (h : Narrowed l q) (hpre : acc <+: q) (hne : acc ≠ []) :
    Narrowed l acc where
  ne_nil := hne
  exists_prefix_path := by
    obtain ⟨t, ht, hq⟩ := h.exists_prefix_path
    exact ⟨t, ht, hpre.trans hq⟩
  comparable u hu := by
    rcases h.comparable u hu with hq | hq
    · exact .inl (hpre.trans hq)
    · exact List.prefix_or_prefix_of_prefix hpre hq

/-- The directory before it is asked whether it is one. -/
def cutDir (commonDir : Path) (sourceFilePath : String) : Path :=
  if commonDir = [] then sourceFilePath.toList else commonStart commonDir sourceFilePath.toList

theorem narrowDir_cases (fs : FileSystem) (acc : Path) (u : String) :
    narrowDir fs acc u = cutDir acc u ∨ narrowDir fs acc u = parentPath (cutDir acc u) := by
  have hnarrow : narrowDir fs acc u = if fs.isDirectory (String.ofList (cutDir acc u)) then
      cutDir acc u else parentPath (cutDir acc u) := rfl
  rw [hnarrow]
  split
  · exact .inl rfl
  · exact .inr rfl

/-- One more path. -/
theorem narrowed_cutDir {u : String} (h : l = [] ∧ acc = [] ∨ Narrowed l acc)
    (hl : ∀ p ∈ l ++ [u], SourcePath p.toList) : Narrowed (l ++ [u]) (cutDir acc u) := by
  have hu := hl u (by simp)
  rcases h with ⟨rfl, rfl⟩ | h
  · refine ⟨hu.ne_nil, ⟨u, by simp, List.prefix_rfl⟩, fun v hv => ?_⟩
    obtain rfl : v = u := by simpa using hv
    exact .inl List.prefix_rfl
  obtain ⟨t, ht, hpre⟩ := h.exists_prefix_path
  have hne : commonStart acc u.toList ≠ [] := by
    have hacc : ['/'] <+: acc := List.prefix_of_prefix_length_le (hl t
      (List.mem_append_left _ ht)).separator_prefix_path hpre (List.length_pos_of_ne_nil h.ne_nil)
    exact List.ne_nil_of_length_pos (prefix_commonStart hacc hu.separator_prefix_path).length_le
  obtain ⟨hne, hexists, hcomparable⟩ := h.of_prefix_of_ne (commonStart_prefix_left acc u.toList) hne
  obtain ⟨t, ht, hpre⟩ := hexists
  rw [cutDir, if_neg h.ne_nil]
  refine ⟨hne, ⟨t, List.mem_append_left _ ht, hpre⟩, fun v hv => ?_⟩
  rcases List.mem_append.mp hv with hv | hv
  · exact hcomparable v hv
  · rw [List.mem_singleton.mp hv]
    exact (commonStart_cases acc u.toList).imp_right fun hs => by rw [hs.2]; exact hs.1

/-! ## Paths that are forgotten -/

theorem iterate_parentPath_ne_nil {m n : ℕ} (h : parentPath^[n] acc ≠ []) (hmn : m ≤ n) :
    parentPath^[m] acc ≠ [] := by
  intro hnil
  obtain ⟨k, rfl⟩ := Nat.exists_eq_add_of_le' hmn
  rw [Function.iterate_add_apply, hnil, Function.iterate_fixed (by decide)] at h
  exact h rfl

/-- How many paths with the same first four bytes as `t` can be visited before the last path. -/
def reach (s : Finset String) (t : String) : ℕ :=
  min (s.filter fun u => u.toList.take 4 = t.toList.take 4).card (s.card - 1)

/-- No path is so short that taking parents, once for each of the other paths, makes it empty before
the last path; neither is the common start of two paths. -/
def Rooted (s : Finset String) : Prop :=
  ∀ t ∈ s, parentPath^[reach s t] t.toList ≠ [] ∧
    ∀ u ∈ s, ¬ t.toList <+: u.toList → ¬ u.toList <+: t.toList →
      parentPath^[reach s t - 1] (commonStart t.toList u.toList) ≠ []

instance (s : Finset String) : Decidable (Rooted s) := by
  unfold Rooted
  infer_instance

/-- If the directory could become empty, then all paths so far have the same first four bytes, and
it does not become empty before the last path. -/
def Spared (s : Finset String) (l : List String) (k : ℕ) (acc : Path) : Prop :=
  (∃ d, ['/', '.', '.', d] <+: acc) → ∀ t ∈ l,
    (∀ u ∈ l, u.toList.take 4 = t.toList.take 4) ∧ parentPath^[reach s t - k] acc ≠ []

variable {s : Finset String}

theorem reach_congr {t u : String} (h : u.toList.take 4 = t.toList.take 4) :
    reach s u = reach s t := by
  rw [reach, reach, h]

/-- There are more paths with the same first four bytes than were visited. -/
theorem length_le_reach (hl : ∀ u ∈ l, u ∈ s) (hnodup : l.Nodup) (hlt : l.length < s.card)
    {t : String} (ht : ∀ u ∈ l, u.toList.take 4 = t.toList.take 4) : l.length ≤ reach s t := by
  refine le_min ?_ (Nat.le_sub_one_of_lt hlt)
  rw [← List.toFinset_card_of_nodup hnodup]
  refine Finset.card_le_card fun u hu => ?_
  rw [List.mem_toFinset] at hu
  exact Finset.mem_filter.mpr ⟨hl u hu, ht u hu⟩

/-- A path that is comparable with a directory below `/..d` has the same first four bytes. -/
theorem take_four_eq {u : String} (hu : SourcePath u.toList) {d : Char}
    (hd : ['/', '.', '.', d] <+: acc) (hcomparable : acc <+: u.toList ∨ u.toList <+: acc) :
    u.toList.take 4 = ['/', '.', '.', d] := by
  obtain ⟨rest, rfl⟩ := hd
  rcases hcomparable with ⟨rest', hrest⟩ | hpre
  · rw [← hrest]
    rfl
  · have hlength := hu.four_le_length hpre
    rw [List.prefix_iff_eq_take.mp hpre, List.take_take, min_eq_left hlength]
    rfl

theorem spared_cutDir {u : String} (hs : Rooted s) (hnarrowed : l = [] ∧ acc = [] ∨ Narrowed l acc)
    (h : Spared s l l.length acc) (hl : ∀ p ∈ l ++ [u], SourcePath p.toList ∧ p ∈ s) :
    Spared s (l ++ [u]) l.length (cutDir acc u) := by
  rintro ⟨d, hd⟩
  have hu := hl u (by simp)
  have hcut := narrowed_cutDir hnarrowed fun p hp => (hl p hp).1
  have htake : ∀ v ∈ l ++ [u], v.toList.take 4 = ['/', '.', '.', d] := fun v hv =>
    take_four_eq (hl v hv).1 hd (hcut.comparable v hv)
  have hsame : ∀ t ∈ l ++ [u], ∀ v ∈ l ++ [u], v.toList.take 4 = t.toList.take 4 :=
    fun t ht v hv => (htake v hv).trans (htake t ht).symm
  -- one path decides for all of them
  suffices hlast : ∃ t ∈ l ++ [u], parentPath^[reach s t - l.length] (cutDir acc u) ≠ [] by
    obtain ⟨t, ht, hlast⟩ := hlast
    intro v hv
    refine ⟨hsame v hv, ?_⟩
    rwa [reach_congr (hsame t ht v hv)]
  rcases hnarrowed with ⟨rfl, rfl⟩ | hnarrowed
  · exact ⟨u, by simp, (hs u hu.2).1⟩
  obtain ⟨t, ht, hpre⟩ := hnarrowed.exists_prefix_path
  refine ⟨t, List.mem_append_left _ ht, ?_⟩
  rw [cutDir, if_neg hnarrowed.ne_nil] at hd ⊢
  by_cases heq : commonStart acc u.toList = acc
  · rw [heq] at hd ⊢
    exact (h ⟨d, hd⟩ t ht).2
  · obtain ⟨hcommon, hnot, hnot'⟩ := commonStart_eq_of_ne heq hpre
    have hroot := (hs t (hl t (List.mem_append_left _ ht)).2).2 u hu.2 hnot hnot'
    rw [hcommon] at hroot
    refine iterate_parentPath_ne_nil hroot (Nat.sub_le_sub_left ?_ _)
    exact List.length_pos_of_mem ht

/-- Before the last path, one more parent can be taken. -/
theorem Spared.iterate_succ_ne_nil {u : String} (h : Spared s (l ++ [u]) l.length acc)
    (hl : ∀ p ∈ l ++ [u], p ∈ s) (hnodup : (l ++ [u]).Nodup) (hlt : (l ++ [u]).length < s.card)
    (hdotted : ∃ d, ['/', '.', '.', d] <+: acc) {t : String} (ht : t ∈ l ++ [u]) :
    parentPath^[reach s t - (l ++ [u]).length + 1] acc ≠ [] := by
  obtain ⟨hsame, hroot⟩ := h hdotted t ht
  have hreach := length_le_reach hl hnodup hlt hsame
  rw [List.length_append, List.length_singleton] at hreach ⊢
  rwa [show reach s t - (l.length + 1) + 1 = reach s t - l.length by omega]

/-- One path before the last one. -/
theorem narrowed_narrowDir {u : String} (hs : Rooted s)
    (hnarrowed : l = [] ∧ acc = [] ∨ Narrowed l acc) (h : Spared s l l.length acc)
    (hl : ∀ p ∈ l ++ [u], SourcePath p.toList ∧ p ∈ s) (hnodup : (l ++ [u]).Nodup)
    (hlt : (l ++ [u]).length < s.card) :
    Narrowed (l ++ [u]) (narrowDir fs acc u) ∧
      Spared s (l ++ [u]) (l ++ [u]).length (narrowDir fs acc u) := by
  have hcut := narrowed_cutDir hnarrowed fun p hp => (hl p hp).1
  have hspared := spared_cutDir hs hnarrowed h hl
  have hlast := hspared.iterate_succ_ne_nil (fun p hp => (hl p hp).2) hnodup hlt
  rcases narrowDir_cases fs acc u with heq | heq
  · rw [heq]
    refine ⟨hcut, fun hdotted t ht => ⟨(hspared hdotted t ht).1, ?_⟩⟩
    exact iterate_parentPath_ne_nil (hlast hdotted ht) (Nat.le_succ _)
  · obtain ⟨t, ht, hpre⟩ := hcut.exists_prefix_path
    obtain ⟨hparent, hempty⟩ := (hl t ht).1.parentPath_prefix_self hpre
    have hne : parentPath (cutDir acc u) ≠ [] := by
      intro hnil
      have hroot := hlast (hempty hcut.ne_nil hnil) ht
      rw [Function.iterate_succ_apply, hnil, Function.iterate_fixed (by decide)] at hroot
      exact hroot rfl
    rw [heq]
    refine ⟨hcut.of_prefix_of_ne hparent hne, ?_⟩
    rintro ⟨d, hd⟩ v hv
    exact ⟨(hspared ⟨d, hd.trans hparent⟩ v hv).1, hlast ⟨d, hd.trans hparent⟩ hv⟩

/-- The directory does not become empty before the last path. -/
theorem narrowed_foldl_narrowDir (hs : Rooted s) (hne : l ≠ [])
    (hl : ∀ p ∈ l, SourcePath p.toList ∧ p ∈ s) (hnodup : l.Nodup) (hlt : l.length < s.card) :
    Narrowed l (l.foldl (narrowDir fs) []) ∧
      Spared s l l.length (l.foldl (narrowDir fs) []) := by
  induction l using List.reverseRecOn with
  | nil => exact absurd rfl hne
  | append_singleton l u ih =>
      rw [List.foldl_concat]
      by_cases hnil : l = []
      · subst hnil
        exact narrowed_narrowDir hs (.inl ⟨rfl, rfl⟩) (fun _ t ht => absurd ht List.not_mem_nil) hl
          hnodup hlt
      · obtain ⟨hnarrowed, hspared⟩ := ih hnil (fun p hp => hl p (List.mem_append_left _ hp))
          (List.Nodup.of_append_left hnodup) (by rw [List.length_append] at hlt; omega)
        exact narrowed_narrowDir hs (.inr hnarrowed) hspared hl hnodup hlt

/-- Only below `/..d` do parents become empty. -/
theorem SourcePath.exists_dotted {n : ℕ} (h : SourcePath p) (hpre : acc <+: p) (hne : acc ≠ [])
    (hnil : parentPath^[n] acc = []) : ∃ d, ['/', '.', '.', d] <+: acc := by
  induction n generalizing acc with
  | zero => exact absurd hnil hne
  | succ n ih =>
      obtain ⟨hparent, hempty⟩ := h.parentPath_prefix_self hpre
      by_cases hparentNil : parentPath acc = []
      · exact hempty hne hparentNil
      · obtain ⟨d, hd⟩ := ih (hparent.trans hpre) hparentNil hnil
        exact ⟨d, hd.trans hparent⟩

/-- If nothing on the way up is a directory, then every path that is visited costs a component. -/
theorem exists_foldl_narrowDir_eq_nil {cs : List Path} (hcs : ∀ y ∈ cs, Component y)
    (hunrooted : Unrooted cs)
    (hfs : ∀ x, x <+: absolutePath cs → fs.isDirectory (String.ofList x) = false)
    (hl : ∀ u ∈ l, ∀ d, ['/', '.', '.', d] <+: absolutePath cs → ['/', '.', '.', d] <+: u.toList)
    (hlength : cs.length ≤ l.length) :
    ∃ pre, pre <+: l ∧ pre.foldl (narrowDir fs) (absolutePath cs) = [] := by
  induction l generalizing cs with
  | nil =>
      obtain rfl := List.eq_nil_of_length_eq_zero (Nat.le_zero.mp hlength)
      exact ⟨[], List.prefix_rfl, rfl⟩
  | cons u l ih =>
      cases cs with
      | nil => exact ⟨[], List.nil_prefix, rfl⟩
      | cons c cs =>
          obtain ⟨hu, hl⟩ := List.forall_mem_cons.mp hl
          obtain ⟨d, hd⟩ := (hcs c List.mem_cons_self).exists_of_dotted (hunrooted c rfl)
          have hdots : ['/', '.', '.', d] <+: absolutePath (c :: cs) :=
            List.cons_prefix_cons.mpr ⟨rfl, hd.trans (List.prefix_append _ _)⟩
          have hcut := commonStart_prefix_left (absolutePath (c :: cs)) u.toList
          obtain ⟨ds, hds, hlt, hparent⟩ := parentPath_cut_of_dotted hcs hcut
            (prefix_commonStart hdots (hu d hdots))
          have hmono := absolutePath_mono hds
          have hstep : narrowDir fs (absolutePath (c :: cs)) u = absolutePath ds := by
            rw [narrowDir, if_neg (mt absolutePath_eq_nil_iff.mp (List.cons_ne_nil _ _)), hfs _ hcut,
              ← hparent]
            rfl
          obtain ⟨pre, hpre, hfold⟩ := ih (fun y hy => hcs y (hds.subset hy))
            (hunrooted.of_prefix_of hds) (fun x hx => hfs x (hx.trans hmono))
            (fun v hv e he => hl v hv e (he.trans hmono))
            (by simp only [List.length_cons] at hlt hlength; omega)
          refine ⟨u :: pre, List.cons_prefix_cons.mpr ⟨rfl, hpre⟩, ?_⟩
          rw [List.foldl_cons, hstep, hfold]

/-- So many paths can be visited after those in `l`. -/
theorem exists_visits {t : String} (hl : ∀ u ∈ l, u ∈ s ∧ u.toList.take 4 = t.toList.take 4)
    (hnodup : l.Nodup) {n : ℕ} (hn : l.length + n ≤ reach s t) :
    ∃ rest, rest.length = n ∧ (l ++ rest).Nodup ∧
      ∀ u ∈ rest, u ∈ s ∧ u.toList.take 4 = t.toList.take 4 := by
  let alike := s.filter fun u => u.toList.take 4 = t.toList.take 4
  have hsub : l.toFinset ⊆ alike := by
    intro u hu
    rw [List.mem_toFinset] at hu
    exact Finset.mem_filter.mpr (hl u hu)
  have hcard : n ≤ (alike \ l.toFinset).card := by
    have hle : l.length + n ≤ alike.card := hn.trans (min_le_left _ _)
    rw [Finset.card_sdiff_of_subset hsub, List.toFinset_card_of_nodup hnodup]
    omega
  obtain ⟨rest, hrest, rfl⟩ := Finset.exists_subset_card_eq hcard
  have hmem : ∀ u ∈ rest.toList, u ∈ alike ∧ u ∉ l := by
    intro u hu
    have hu' := Finset.mem_sdiff.mp (hrest (Finset.mem_toList.mp hu))
    rwa [List.mem_toFinset] at hu'
  refine ⟨rest.toList, rest.length_toList, ?_, fun u hu => Finset.mem_filter.mp (hmem u hu).1⟩
  refine hnodup.append rest.nodup_toList ?_
  exact fun u hu hu' => (hmem u hu').2 hu

def withDirectories (dirs : List String) : FileSystem :=
  { FileSystem.full with isDirectory := fun p => dirs.contains p }

/-- The loop visits some of the paths, and begins anew with another one. -/
def Restarts (s : Finset String) : Prop :=
  ∃ (fs : FileSystem) (l : List String), l ≠ [] ∧ l.Nodup ∧ (∀ u ∈ l, u ∈ s) ∧
    l.length < s.card ∧ l.foldl (narrowDir fs) [] = []

/-- If the paths in `l` lead to a directory that has no more components than paths with the same
first four bytes can be visited, then the loop begins anew. -/
theorem restarts_of_foldl (fs : FileSystem) {t : String} (cs : List Path)
    (hl : ∀ u ∈ l, u ∈ s ∧ u.toList.take 4 = t.toList.take 4) (hne : l ≠ []) (hnodup : l.Nodup)
    (hfold : l.foldl (narrowDir fs) [] = absolutePath cs) (hcs : ∀ y ∈ cs, Component y)
    (hunrooted : Unrooted cs) (hpre : absolutePath cs <+: t.toList)
    (hfs : ∀ x, x <+: absolutePath cs → fs.isDirectory (String.ofList x) = false)
    (hreach : l.length + cs.length ≤ reach s t) : Restarts s := by
  obtain ⟨rest, hlength, hnodup, hrest⟩ := exists_visits hl hnodup hreach
  have hvisits : ∀ u ∈ rest, ∀ d, ['/', '.', '.', d] <+: absolutePath cs →
      ['/', '.', '.', d] <+: u.toList := by
    intro u hu d hd
    have htake : t.toList.take 4 = ['/', '.', '.', d] :=
      (List.prefix_iff_eq_take.mp (hd.trans hpre)).symm
    exact ⟨u.toList.drop 4, by rw [← htake, ← (hrest u hu).2, List.take_append_drop]⟩
  obtain ⟨pre, hvisited, hnil⟩ :=
    exists_foldl_narrowDir_eq_nil hcs hunrooted hfs hvisits hlength.ge
  have hsub : (l ++ pre).Sublist (l ++ rest) := (List.Sublist.refl l).append hvisited.sublist
  refine ⟨fs, l ++ pre, List.append_ne_nil_of_left_ne_nil hne _, hnodup.sublist hsub, ?_, ?_, ?_⟩
  · intro u hu
    rcases List.mem_append.mp hu with hu | hu
    · exact (hl u hu).1
    · exact (hrest u (hvisited.subset hu)).1
  · have hle := hsub.length_le
    have hcard : reach s t ≤ s.card - 1 := min_le_right _ _
    have hpos := List.length_pos_of_ne_nil hne
    simp only [List.length_append] at hle ⊢
    omega
  · rw [List.foldl_append, hfold, hnil]

/-- Nothing is a directory, and a path is visited first that is too short. -/
theorem restarts_of_path {t : String} (ht : t ∈ s) (hsource : SourcePath t.toList)
    (hnil : parentPath^[reach s t] t.toList = []) : Restarts s := by
  obtain ⟨d, hd⟩ := hsource.exists_dotted List.prefix_rfl hsource.ne_nil hnil
  obtain ⟨⟨cs, hcs, htcs⟩, hne⟩ := hsource
  rw [htcs] at hd hnil hne
  have hunrooted := unrooted_of_dotted hcs hd
  have hreach := (iterate_parentPath_eq_nil_iff hcs hunrooted _).mp hnil
  have hpos := List.length_pos_of_ne_nil (mt absolutePath_eq_nil_iff.mpr hne)
  have hlast := List.dropLast_prefix cs
  refine restarts_of_foldl (withDirectories []) cs.dropLast (l := [t]) (t := t)
    (by simpa using ht) (by simp) (by simp) ?_ (fun y hy => hcs y (hlast.subset hy))
    (hunrooted.of_prefix_of hlast) (htcs ▸ absolutePath_mono hlast) (fun x hx => rfl) ?_
  · rw [← parentPath_of_unrooted hcs hunrooted, ← htcs]
    rfl
  · rw [List.length_singleton, List.length_dropLast]
    omega

/-- Only the path that is visited first is a directory, and the second one cuts it to a common
start that is too short. -/
theorem restarts_of_commonStart {t u : String} (ht : t ∈ s) (hu : u ∈ s)
    (htsource : SourcePath t.toList) (husource : SourcePath u.toList)
    (hnot : ¬ t.toList <+: u.toList) (hnot' : ¬ u.toList <+: t.toList)
    (hnil : parentPath^[reach s t - 1] (commonStart t.toList u.toList) = []) : Restarts s := by
  have hstart := commonStart_prefix_left t.toList u.toList
  have hstart' : commonStart t.toList u.toList <+: u.toList :=
    (commonStart_cases _ _).resolve_right fun h => hnot' h.1
  have hne : commonStart t.toList u.toList ≠ [] := List.ne_nil_of_length_pos
    (prefix_commonStart htsource.separator_prefix_path husource.separator_prefix_path).length_le
  obtain ⟨d, hd⟩ := htsource.exists_dotted hstart hne hnil
  obtain ⟨cs, hcs, htcs⟩ := htsource.components
  obtain ⟨ds, hds, _, hparent⟩ := parentPath_cut_of_dotted hcs (htcs ▸ hstart) hd
  have hunrooted := (unrooted_of_dotted hcs (htcs ▸ hd.trans hstart)).of_prefix_of hds
  obtain ⟨n, hn⟩ : ∃ n, reach s t - 1 = n + 1 :=
    Nat.exists_eq_succ_of_ne_zero fun hzero => hne (by simpa [hzero] using hnil)
  have hreach : ds.length ≤ n := by
    rw [hn, Function.iterate_succ_apply, hparent] at hnil
    exact (iterate_parentPath_eq_nil_iff (fun y hy => hcs y (hds.subset hy)) hunrooted n).mp hnil
  have hbelow : absolutePath ds <+: commonStart t.toList u.toList :=
    hparent ▸ (htsource.parentPath_prefix_self hstart).1
  have hother : ∀ x, x <+: commonStart t.toList u.toList →
      (withDirectories [t]).isDirectory (String.ofList x) = false := by
    intro x hx
    have hxt : String.ofList x ≠ t := by
      intro heq
      rw [← heq, String.toList_ofList] at hnot
      exact hnot (hx.trans hstart')
    simpa [withDirectories] using hxt
  refine restarts_of_foldl (withDirectories [t]) ds (l := [t, u]) (t := t) ?_ (by simp) ?_ ?_
    (fun y hy => hcs y (hds.subset hy)) hunrooted (hbelow.trans hstart)
    (fun x hx => hother x (hx.trans hbelow)) ?_
  · have htake : u.toList.take 4 = t.toList.take 4 :=
      (List.prefix_iff_eq_take.mp (hd.trans hstart')).symm.trans
        (List.prefix_iff_eq_take.mp (hd.trans hstart))
    simp [ht, hu, htake]
  · have htu : t ≠ u := fun heq => hnot (heq ▸ List.prefix_rfl)
    simpa using htu
  · have hfirst : narrowDir (withDirectories [t]) [] t = t.toList := by
      simp [narrowDir, withDirectories]
    rw [List.foldl_cons, hfirst, List.foldl_cons, narrowDir, if_neg htsource.ne_nil,
      hother _ List.prefix_rfl, ← hparent]
    rfl
  · rw [List.length_cons, List.length_singleton]
    omega

/-- `Rooted` says that the loop does not begin anew before the last path, in whatever order the
paths are visited and whatever is a directory. -/
theorem rooted_iff (hsource : ∀ t ∈ s, SourcePath t.toList) : Rooted s ↔ ¬ Restarts s := by
  constructor
  · rintro hs ⟨fs, l, hne, hnodup, hmem, hlt, hnil⟩
    exact (narrowed_foldl_narrowDir hs hne (fun u hu => ⟨hsource u (hmem u hu), hmem u hu⟩) hnodup
      hlt).1.ne_nil hnil
  · intro hrestarts t ht
    refine ⟨fun hnil => ?_, fun u hu hnot hnot' hnil => ?_⟩
    · exact hrestarts (restarts_of_path ht (hsource t ht) hnil)
    · exact hrestarts
        (restarts_of_commonStart ht hu (hsource t ht) (hsource u hu) hnot hnot' hnil)

/-- After the last path the directory is empty or comparable with all paths. -/
theorem foldl_narrowDir_cases (hs : Rooted s) (hne : l ≠ [])
    (hl : ∀ p ∈ l, SourcePath p.toList) (hnodup : l.Nodup) (hmem : ∀ p, p ∈ l ↔ p ∈ s) :
    l.foldl (narrowDir fs) [] = [] ∨ Narrowed l (l.foldl (narrowDir fs) []) := by
  obtain ⟨l, u, rfl⟩ := (List.eq_nil_or_concat' l).resolve_left hne
  have hcard : (l ++ [u]).length = s.card := by
    rw [← List.toFinset_card_of_nodup hnodup]
    congr 1
    ext p
    rw [List.mem_toFinset, hmem]
  have hbefore : l = [] ∧ l.foldl (narrowDir fs) [] = [] ∨
      Narrowed l (l.foldl (narrowDir fs) []) := by
    by_cases hnil : l = []
    · subst hnil
      exact .inl ⟨rfl, rfl⟩
    · refine .inr (narrowed_foldl_narrowDir hs hnil (fun p hp => ?_)
        (List.Nodup.of_append_left hnodup) ?_).1
      · exact ⟨hl p (List.mem_append_left _ hp), (hmem p).mp (List.mem_append_left _ hp)⟩
      · rw [← hcard, List.length_append]
        simp
  rw [List.foldl_concat]
  generalize l.foldl (narrowDir fs) [] = acc at hbefore
  have hcut := narrowed_cutDir hbefore hl
  rcases narrowDir_cases fs acc u with heq | heq
  · rw [heq]
    exact .inr hcut
  · obtain ⟨t, ht, hpre⟩ := hcut.exists_prefix_path
    rw [heq, or_iff_not_imp_left]
    exact hcut.of_prefix_of_ne ((hl t ht).parentPath_prefix_self hpre).1

/-! ## The filter -/

/-- If a source path is the start of another one, a third one branches off from the longer one, at
the latest with the first byte that the shorter one does not have. -/
def Branching (s : Finset String) : Prop :=
  ∀ p ∈ s, ∀ t ∈ s, p.toList <+: t.toList → p ≠ t →
    ∃ u ∈ s, ¬ u.toList <+: t.toList.take (p.toList.length + 1) ∧
      ¬ t.toList.take (p.toList.length + 1) <+: u.toList

instance (s : Finset String) : Decidable (Branching s) := by
  unfold Branching
  infer_instance

/-- A path that is not covered is the start of another one, and no path branches off there. -/
theorem Narrowed.covers {s : Finset String} (h : Narrowed l acc) (hs : Branching s)
    (hmem : ∀ p, p ∈ l ↔ p ∈ s) {p : String} (hp : p ∈ s) : acc <+: p.toList := by
  rcases h.comparable p ((hmem p).mpr hp) with hpre | ⟨rest, hrest⟩
  · exact hpre
  cases rest with
  | nil => exact (List.append_nil _).symm.trans hrest ▸ List.prefix_rfl
  | cons c rest =>
      have hlonger : p.toList ++ [c] <+: acc := ⟨rest, by rw [← hrest]; simp⟩
      obtain ⟨t, ht, hpre⟩ := h.exists_prefix_path
      have htake : t.toList.take (p.toList.length + 1) = p.toList ++ [c] := by
        simpa using (List.prefix_iff_eq_take.mp (hlonger.trans hpre)).symm
      have hpt : p ≠ t := by
        rintro rfl
        simpa using (hlonger.trans hpre).length_le
      obtain ⟨u, hu, hnot, hnot'⟩ := hs p hp t ((hmem t).mp ht)
        ((List.prefix_append _ [c]).trans (hlonger.trans hpre)) hpt
      rw [htake] at hnot hnot'
      rcases h.comparable u ((hmem u).mpr hu) with hacc | hacc
      · exact absurd (hlonger.trans hacc) hnot'
      · exact absurd ((List.prefix_or_prefix_of_prefix hlonger hacc).resolve_left hnot') hnot

/-- Where no path branches off, the loop gets stuck if everything is a directory. -/
theorem prefix_foldl_narrowDir {x : Path} (hfs : ∀ q, fs.isDirectory q = true) (hx : x ≠ [])
    (hl : ∀ u ∈ l, u.toList <+: x ∨ x <+: u.toList) (hacc : x <+: acc) :
    x <+: l.foldl (LiveWorld.narrowDir fs) acc := by
  induction l generalizing acc with
  | nil => exact hacc
  | cons u l ih =>
      obtain ⟨hu, hl⟩ := List.forall_mem_cons.mp hl
      refine ih hl ?_
      have hne : acc ≠ [] := by
        rintro rfl
        exact hx (List.prefix_nil.mp hacc)
      unfold LiveWorld.narrowDir
      rw [if_neg hne, if_pos (hfs _)]
      rcases hu with hu | hu
      · rwa [commonStart_of_prefix_left (hu.trans hacc)]
      · exact prefix_commonStart hacc hu

theorem unitList_sourceFilePaths {w : LiveWorld}
    (hkeyed : UnitsKeyed (unitsOf w.context.compilationUnits)) :
    w.unitList.map (fun unit => unit.2.sourceFilePath) =
      w.outside.unitOrder.toList w.context.compilationUnits.keys := by
  have hsource : ∀ p ∈ w.outside.unitOrder.toList w.context.compilationUnits.keys,
      ((w.context.compilationUnits.lookup p).map fun cu => (p, cu)).map
        (fun unit => unit.2.sourceFilePath) = some p := by
    intro p hp
    rw [Iteration.mem_toList, Finmap.mem_keys] at hp
    obtain ⟨cu, hcu⟩ := Finmap.mem_iff.mp hp
    rw [hcu, Option.map_some, Option.map_some, sourceFilePath_of_lookup hkeyed hcu]
  rw [unitList, List.map_filterMap, List.filterMap_congr hsource, List.filterMap_some]

/-- For units with these source paths, every order of the loop and all answers of the file system,
the filter is a single string, which is a start of every source path. -/
def FilterCovers (s : Finset String) : Prop :=
  ∀ w : LiveWorld, UnitsKeyed (unitsOf w.context.compilationUnits) →
    w.context.compilationUnits.keys = s →
      ∃ dir : String, w.updateDirectoryFilters.1.context.dirFilters = {dir} ∧
        ∀ p ∈ s, dir.toList <+: p.toList

theorem filterCovers_iff {s : Finset String} :
    FilterCovers s ↔ ∀ w : LiveWorld, UnitsKeyed (unitsOf w.context.compilationUnits) →
      w.context.compilationUnits.keys = s →
        ∀ p ∈ s, (w.outside.unitOrder.toList s).foldl (LiveWorld.narrowDir w.outside.fs) [] <+:
          p.toList := by
  refine forall_congr' fun w => forall_congr' fun hkeyed => forall_congr' fun hs => ?_
  rw [← hs, ← unitList_sourceFilePaths hkeyed]
  simp [updateDirectoryFilters]

def ofSources (fs : FileSystem) (l : List String) (hnodup : l.Nodup) : LiveWorld where
  outside :=
    { Outside.ofCommands [] with
      fs
      unitOrder := (Iteration.increasing).withOrder l.toFinset l hnodup fun _ =>
        List.mem_toFinset.symm }
  memory _ := 0
  context := { compilationUnits := collectUnits (l.map fun p => { sourceFilePath := p }) }

theorem keys_ofSources (hnodup : l.Nodup) :
    (ofSources fs l hnodup).context.compilationUnits.keys = l.toFinset := by
  ext p
  rw [Finmap.mem_keys, ← not_iff_not, ← Finmap.lookup_eq_none]
  change (collectUnits _).lookup p = none ↔ _
  rw [lookup_collectUnits]
  simpa using List.forall_mem_ne'

theorem FilterCovers.prefix_of_order (h : FilterCovers l.toFinset) (fs : FileSystem)
    (hnodup : l.Nodup) {p : String} (hp : p ∈ l) :
    l.foldl (LiveWorld.narrowDir fs) [] <+: p.toList := by
  have hcovers := filterCovers_iff.mp h (ofSources fs l hnodup) (collectUnits_keyed _)
    (keys_ofSources hnodup) p (List.mem_toFinset.mpr hp)
  have horder : (ofSources fs l hnodup).outside.unitOrder.toList l.toFinset = l := if_pos rfl
  rwa [horder] at hcovers

/-- Start with the longer path, where every path is a directory. -/
theorem FilterCovers.branching {s : Finset String} (h : FilterCovers s) : Branching s := by
  intro p hp t ht hpre hpt
  by_contra hnot
  simp only [not_exists, not_and, not_not] at hnot
  have hlength : p.toList.length < t.toList.length := by
    refine lt_of_le_of_ne hpre.length_le fun heq => hpt ?_
    exact String.toList_injective (hpre.eq_of_length heq)
  have hmem : ∀ u, u ∈ t :: (s.erase t).toList ↔ u ∈ s := by
    intro u
    rw [List.mem_cons, Finset.mem_toList, Finset.mem_erase]
    by_cases hu : u = t <;> simp [hu, ht]
  have hnodup : (t :: (s.erase t).toList).Nodup := by simp [Finset.nodup_toList]
  have hs : (t :: (s.erase t).toList).toFinset = s := by
    ext u
    rw [List.mem_toFinset, hmem]
  set x := t.toList.take (p.toList.length + 1) with hx
  have hxlength : x.length = p.toList.length + 1 := by
    rw [hx, List.length_take]
    omega
  have hcomparable : ∀ u ∈ (s.erase t).toList, u.toList <+: x ∨ x <+: u.toList := by
    intro u hu
    rw [or_iff_not_imp_left]
    exact hnot u ((hmem u).mp (List.mem_cons_of_mem _ hu))
  have hstuck : x <+: (t :: (s.erase t).toList).foldl (LiveWorld.narrowDir FileSystem.full) [] := by
    rw [List.foldl_cons]
    refine prefix_foldl_narrowDir (fun _ => rfl) ?_ hcomparable (List.take_prefix _ _)
    exact List.ne_nil_of_length_pos (by omega)
  rw [← hs] at h
  have hle := (hstuck.trans (h.prefix_of_order _ hnodup ((hmem p).mpr hp))).length_le
  omega

/-- If the loop does not forget paths, the filter covers all source paths exactly if some path
branches off where one of them is the start of another one. In any case this is necessary. -/
theorem filterCovers_branching {s : Finset String} (hs : ∀ p ∈ s, ∃ cs, cs ≠ [] ∧
    (∀ c ∈ cs, Component c) ∧ p.toList = absolutePath cs) :
    (FilterCovers s → Branching s) ∧ (Rooted s → Branching s → FilterCovers s) := by
  refine ⟨FilterCovers.branching, fun hrooted hbranching => filterCovers_iff.mpr ?_⟩
  intro w _ _ p hp
  have hmem := w.outside.unitOrder.mem_toList s
  have hnodup := w.outside.unitOrder.nodup s
  have hsource : ∀ q ∈ w.outside.unitOrder.toList s, SourcePath q.toList := by
    intro q hq
    obtain ⟨cs, hne, hcs, heq⟩ := hs q ((hmem q).mp hq)
    refine ⟨⟨cs, hcs, heq⟩, ?_⟩
    rw [heq]
    obtain ⟨c, cs, rfl⟩ := List.exists_cons_of_ne_nil hne
    exact List.cons_ne_nil _ _
  rcases foldl_narrowDir_cases hrooted (List.ne_nil_of_mem ((hmem p).mpr hp)) hsource hnodup hmem
    with hempty | hnarrowed
  · rw [hempty]
    exact List.nil_prefix
  · exact hnarrowed.covers hbranching hmem hp

/-- Sources of which one is the start of another one, and a third one. And sources of which one has
the first component `..x`, but cannot be forgotten. -/
theorem filterCovers_branching_three :
    FilterCovers {"/p/foo.c", "/p/foo.c.d/x.c", "/p/bar.c"} ∧
      FilterCovers {"/..x/a", "/q/c"} := by
  constructor
  · refine (filterCovers_branching ?_).2 (by decide +kernel) (by decide)
    intro p hp
    simp only [Finset.mem_insert, Finset.mem_singleton] at hp
    rcases hp with rfl | rfl | rfl
    · exact ⟨[['p'], "foo.c".toList], by decide⟩
    · exact ⟨[['p'], "foo.c.d".toList, "x.c".toList], by decide⟩
    · exact ⟨[['p'], "bar.c".toList], by decide⟩
  · refine (filterCovers_branching ?_).2 (by decide +kernel) (by decide)
    intro p hp
    simp only [Finset.mem_insert, Finset.mem_singleton] at hp
    rcases hp with rfl | rfl
    · exact ⟨["..x".toList, ['a']], by decide⟩
    · exact ⟨[['q'], ['c']], by decide⟩

/-- A directory whose name starts with the name of a source file next to it takes the place of the
directory of both. A path whose parent is empty is forgotten. The directories `aé` and `aè` do not
branch off from `a` with the first byte behind it. -/
theorem not_filterCovers :
    ¬ FilterCovers {"/p/foo.c", "/p/foo.c.d/x.c"} ∧ ¬ FilterCovers {"/..x", "/q/a.c"} ∧
      ¬ FilterCovers {"/p/a", "/p/a\u00c3\u00a9/x.c", "/p/a\u00c3\u00a8/y.c"} := by
  refine ⟨?_, ?_, fun h => absurd h.branching (by decide)⟩
  · intro h
    have hsources : ({"/p/foo.c", "/p/foo.c.d/x.c"} : Finset String) =
        ["/p/foo.c.d/x.c", "/p/foo.c"].toFinset := by decide
    rw [hsources] at h
    have hpre : "/p/foo.c.d".toList <+: "/p/foo.c".toList :=
      h.prefix_of_order (withDirectories ["/", "/p", "/p/foo.c.d"]) (by decide) (by decide)
    exact absurd hpre (by decide)
  · intro h
    have hsources : ({"/..x", "/q/a.c"} : Finset String) = ["/..x", "/q/a.c"].toFinset := by decide
    rw [hsources] at h
    have hpre : "/q".toList <+: "/..x".toList :=
      h.prefix_of_order (withDirectories ["/", "/q"]) (by decide) (by decide)
    exact absurd hpre (by decide)

end LiveWorld

end JetLive

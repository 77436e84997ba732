import Mathlib.Data.List.Nodup
import Mathlib.Logic.Function.Basic
import Mathlib.Logic.Relation
import Mathlib.Tactic.Common

/-!
# Operations behind locks, and interrupts

Threads perform operations on the parts of a shared state. Each part has a lock; an operation
enters the critical section, reads its part, and writes it back when it leaves. A thread can be
interrupted at any moment. The handler then performs operations of its own, on top of what the
thread was doing, and the thread goes on when the handler is done. The locks are not recursive: a
handler waits for a lock of its own thread as for any other, but nobody will release that one.

No update is lost in any case (`Reached.data_eq`). A thread that was interrupted with a lock that
the handler needs is stuck (`Reached.interrupted_steps`), and if the handler needs all locks, then
all threads can finish if and only if there is no such thread (`Reached.exists_finished_iff`).
-/

namespace Locks

/-- Operations on the parts of a shared state, each behind the lock of its part. -/
structure Guarded (Op L : Type*) (σ : L → Type*) where
  lock : Op → L
  effect : ∀ op, σ (lock op) → σ (lock op)

section

variable {Op L : Type*} {σ : L → Type*}

/-- Where a sequence of operations is: before the next one, or in the critical section of one that
has read `v`. -/
inductive Place (g : Guarded Op L σ)
  | outside (ops : List Op)
  | inside (op : Op) (v : σ (g.lock op)) (ops : List Op)

/-- A sequence of operations under way, of the thread itself or of a handler. -/
structure Frame (g : Guarded Op L σ) where
  handler : Bool := false
  place : Place g

/-- The state with all threads. The frame on top of a thread comes first. `done` are the operations
that have ended, in order. -/
structure Machine (g : Guarded Op L σ) (T : Type*) where
  data : ∀ l, σ l
  done : List Op := []
  frames : T → List (Frame g)

variable {g : Guarded Op L σ} {T : Type*}

def Place.left : Place g → List Op
  | .outside ops => ops
  | .inside op _ ops => op :: ops

def Place.held : Place g → Option L
  | .outside _ => none
  | .inside op _ _ => some (g.lock op)

@[simp]
theorem Place.held_outside (ops : List Op) : (Place.outside ops : Place g).held = none := rfl

@[simp]
theorem Place.held_inside (op : Op) (v : σ (g.lock op)) (ops : List Op) :
    (Place.inside op v ops : Place g).held = some (g.lock op) := rfl

namespace Machine

variable (s : Machine g T) (t : T)

def heldBy : List L := (s.frames t).filterMap fun f => f.place.held

def Free (l : L) : Prop := ∀ t, l ∉ s.heldBy t

/-- The locks are held by the frames on top only: nobody was interrupted in a critical section. -/
def Undisturbed : Prop := ∀ t, ∀ f ∈ (s.frames t).tail, f.place.held = none

def setFrames [DecidableEq T] (frames : List (Frame g)) : Machine g T :=
  { s with frames := Function.update s.frames t frames }

variable {s t}

@[simp]
theorem setFrames_frames [DecidableEq T] (frames : List (Frame g)) :
    (s.setFrames t frames).frames t = frames := by
  unfold setFrames
  exact Function.update_self t frames s.frames

theorem mem_heldBy {l : L} : l ∈ s.heldBy t ↔ ∃ f ∈ s.frames t, f.place.held = some l := by
  simp [heldBy]

theorem heldBy_release [DecidableEq T] {b : Bool} {op : Op} {v : σ (g.lock op)} {ops : List Op}
    {rest : List (Frame g)} (hframes : s.frames t = ⟨b, .inside op v ops⟩ :: rest) :
    s.heldBy t = g.lock op :: (s.setFrames t (⟨b, .outside ops⟩ :: rest)).heldBy t := by
  simp [heldBy, hframes, List.filterMap_cons]

/-- The holder of a lock can release it, if its frame is on top. -/
theorem Undisturbed.exists_release {l : L} (hs : s.Undisturbed) (hl : l ∈ s.heldBy t) :
    ∃ b op v ops rest, s.frames t = ⟨b, .inside op v ops⟩ :: rest ∧ g.lock op = l := by
  obtain ⟨f, hf, hheld⟩ := mem_heldBy.mp hl
  rcases hframes : s.frames t with _ | ⟨top, rest⟩
  · simp [hframes] at hf
  · have htop : f = top := by
      rcases List.mem_cons.mp (hframes ▸ hf) with rfl | hrest
      · rfl
      · have hnone := hs t f (by rwa [hframes])
        simp [hnone] at hheld
    subst htop
    obtain ⟨b, place⟩ := f
    cases place with
    | outside ops => simp at hheld
    | inside op v ops => exact ⟨b, op, v, ops, rest, rfl, by simpa using hheld⟩

end Machine

variable [DecidableEq L] [DecidableEq T]

/-- The steps of a thread. A handler is not interrupted itself. -/
inductive Step (handler : List Op) (t : T) : Machine g T → Machine g T → Prop
  | call (s : Machine g T) (ops : List Op) (hframes : s.frames t = []) :
      Step handler t s (s.setFrames t [{ place := .outside ops }])
  | interrupt (s : Machine g T) (hnot : ∀ f ∈ s.frames t, f.handler = false) :
      Step handler t s
        (s.setFrames t ({ handler := true, place := .outside handler } :: s.frames t))
  | acquire (s : Machine g T) (b : Bool) (op : Op) (ops : List Op) (rest : List (Frame g))
      (hframes : s.frames t = ⟨b, .outside (op :: ops)⟩ :: rest) (hfree : s.Free (g.lock op)) :
      Step handler t s (s.setFrames t (⟨b, .inside op (s.data (g.lock op)) ops⟩ :: rest))
  | release (s : Machine g T) (b : Bool) (op : Op) (v : σ (g.lock op)) (ops : List Op)
      (rest : List (Frame g)) (hframes : s.frames t = ⟨b, .inside op v ops⟩ :: rest) :
      Step handler t s
        { s.setFrames t (⟨b, .outside ops⟩ :: rest) with
          data := Function.update s.data (g.lock op) (g.effect op v)
          done := s.done ++ [op] }
  | leave (s : Machine g T) (b : Bool) (rest : List (Frame g))
      (hframes : s.frames t = ⟨b, .outside []⟩ :: rest) :
      Step handler t s (s.setFrames t rest)

def Steps (handler : List Op) : Machine g T → Machine g T → Prop :=
  Relation.ReflTransGen fun s s' => ∃ t, Step handler t s s'

/-- The states that are reached from one in which no operation is under way. -/
def Reached (handler : List Op) (data : ∀ l, σ l) (s : Machine g T) : Prop :=
  Steps handler { data, frames := fun _ => [] } s

/-- What the operations on a part make of it, one after another. -/
def Guarded.apply (g : Guarded Op L σ) (l : L) : List Op → σ l → σ l
  | [], v => v
  | op :: ops, v => g.apply l ops (if h : g.lock op = l then h ▸ g.effect op (h ▸ v) else v)

end

variable {Op L : Type*} {σ : L → Type*} {g : Guarded Op L σ} {T : Type*} [DecidableEq L]

theorem Guarded.apply_concat (l : L) (ops : List Op) (op : Op) (v : σ l) :
    g.apply l (ops ++ [op]) v =
      if h : g.lock op = l then h ▸ g.effect op (h ▸ g.apply l ops v) else g.apply l ops v := by
  induction ops generalizing v with
  | nil => rfl
  | cons op' ops ih => exact ih _

variable [DecidableEq T] {handler : List Op} {s s' : Machine g T} {t : T}

/-! ## One step -/

open Machine

namespace Step

theorem frames_of_ne (h : Step handler t s s') {t' : T} (hne : t' ≠ t) :
    s'.frames t' = s.frames t' := by
  cases h <;> exact Function.update_of_ne hne _ _

theorem heldBy_of_ne (h : Step handler t s s') {t' : T} (hne : t' ≠ t) :
    s'.heldBy t' = s.heldBy t' := by
  unfold heldBy
  rw [h.frames_of_ne hne]

/-- What a step changes of the locks of its thread. -/
theorem heldBy_cases (h : Step handler t s s') :
    s'.heldBy t = s.heldBy t ∨ (∃ l, s.Free l ∧ s'.heldBy t = l :: s.heldBy t) ∨
      ∃ l, s.heldBy t = l :: s'.heldBy t := by
  cases h with
  | call ops hframes => exact Or.inl (by simp [heldBy, hframes])
  | interrupt hnot => exact Or.inl (by simp [heldBy, List.filterMap_cons])
  | acquire b op ops rest hframes hfree =>
      exact Or.inr (.inl ⟨_, hfree, by simp [heldBy, hframes, List.filterMap_cons]⟩)
  | release b op v ops rest hframes => exact Or.inr (.inr ⟨g.lock op, heldBy_release hframes⟩)
  | leave b rest hframes => exact Or.inl (by simp [heldBy, hframes, List.filterMap_cons])

/-- Who is in a critical section after a step was there before, or has just read. -/
theorem mem_frames (h : Step handler t s s') {t' : T} {f : Frame g} {op : Op}
    {v : σ (g.lock op)} {ops : List Op} (hf : f ∈ s'.frames t')
    (hplace : f.place = .inside op v ops) : f ∈ s.frames t' ∨ v = s.data (g.lock op) := by
  by_cases ht : t' = t
  swap
  · exact Or.inl (h.frames_of_ne ht ▸ hf)
  subst ht
  cases h with
  | call ops hframes =>
      rw [setFrames_frames, List.mem_singleton] at hf
      subst hf
      cases hplace
  | interrupt hnot =>
      rw [setFrames_frames] at hf
      rcases List.mem_cons.mp hf with rfl | hf
      · cases hplace
      · exact Or.inl hf
  | acquire b op' ops' rest hframes hfree =>
      rw [setFrames_frames] at hf
      rcases List.mem_cons.mp hf with rfl | hf
      · cases hplace
        exact Or.inr rfl
      · exact Or.inl (hframes ▸ List.mem_cons_of_mem _ hf)
  | release b op' v' ops' rest hframes =>
      rcases List.mem_cons.mp (setFrames_frames (s := s) (t := t') _ ▸ hf) with rfl | hf
      · cases hplace
      · exact Or.inl (hframes ▸ List.mem_cons_of_mem _ hf)
  | leave b rest hframes =>
      rw [setFrames_frames] at hf
      exact Or.inl (hframes ▸ List.mem_cons_of_mem _ hf)

/-- Data change at the end of an operation only. -/
theorem data_cases (h : Step handler t s s') :
    (s'.data = s.data ∧ s'.done = s.done) ∨
      ∃ f ∈ s.frames t, ∃ op v ops, f.place = .inside op v ops ∧
        s'.data = Function.update s.data (g.lock op) (g.effect op v) ∧ s'.done = s.done ++ [op] ∧
        s.heldBy t = g.lock op :: s'.heldBy t := by
  cases h with
  | release b op v ops rest hframes =>
      exact Or.inr ⟨_, hframes ▸ List.mem_cons_self, op, v, ops, rfl, rfl, rfl,
        heldBy_release hframes⟩
  | call | interrupt | acquire | leave => exact Or.inl ⟨rfl, rfl⟩

end Step

/-! ## Mutual exclusion -/

/-- No lock is held twice, and who is in a critical section has read what is there now. -/
structure Machine.Exclusive (s : Machine g T) : Prop where
  nodup : ∀ t, (s.heldBy t).Nodup
  unique : ∀ t t' l, l ∈ s.heldBy t → l ∈ s.heldBy t' → t = t'
  current : ∀ t, ∀ f ∈ s.frames t, ∀ op v ops, f.place = .inside op v ops →
    v = s.data (g.lock op)

namespace Machine.Exclusive

theorem free_of_release {l : L} (hs : s.Exclusive) (h : Step handler t s s')
    (hheld : s.heldBy t = l :: s'.heldBy t) : s'.Free l := by
  intro t' hmem
  by_cases ht : t' = t
  · subst ht
    have hnodup := hs.nodup t'
    rw [hheld] at hnodup
    exact (List.nodup_cons.mp hnodup).1 hmem
  · rw [h.heldBy_of_ne ht] at hmem
    exact ht (hs.unique t' t l hmem (by rw [hheld]; exact List.mem_cons_self))

theorem step_unique (hs : s.Exclusive) (h : Step handler t s s') :
    (∀ t', (s'.heldBy t').Nodup) ∧
      ∀ t' t'' l, l ∈ s'.heldBy t' → l ∈ s'.heldBy t'' → t' = t'' := by
  have hbefore : ∀ t' l, l ∈ s'.heldBy t' → l ∈ s.heldBy t' ∨ (t' = t ∧ s.Free l) := by
    intro t' l hl
    by_cases ht : t' = t
    · subst ht
      rcases h.heldBy_cases with hsame | ⟨l', hfree, hadd⟩ | ⟨l', hdrop⟩
      · exact Or.inl (hsame ▸ hl)
      · rcases List.mem_cons.mp (hadd ▸ hl) with rfl | hl
        · exact Or.inr ⟨rfl, hfree⟩
        · exact Or.inl hl
      · exact Or.inl (hdrop ▸ List.mem_cons_of_mem l' hl)
    · rw [h.heldBy_of_ne ht] at hl
      exact Or.inl hl
  refine ⟨fun t' => ?_, fun t' t'' l hl hl' => ?_⟩
  · by_cases ht : t' = t
    · subst ht
      have hnodup := hs.nodup t'
      rcases h.heldBy_cases with hsame | ⟨l, hfree, hadd⟩ | ⟨l, hdrop⟩
      · rwa [hsame]
      · rw [hadd]
        exact List.nodup_cons.mpr ⟨hfree t', hnodup⟩
      · rw [hdrop] at hnodup
        exact (List.nodup_cons.mp hnodup).2
    · rw [h.heldBy_of_ne ht]
      exact hs.nodup t'
  · rcases hbefore t' l hl with hl | ⟨rfl, hfree⟩
    · rcases hbefore t'' l hl' with hl' | ⟨rfl, hfree⟩
      · exact hs.unique t' t'' l hl hl'
      · exact absurd hl (hfree t')
    · rcases hbefore t'' l hl' with hl' | ⟨rfl, _⟩
      · exact absurd hl' (hfree t'')
      · rfl

theorem step (hs : s.Exclusive) (h : Step handler t s s') : s'.Exclusive := by
  obtain ⟨hnodup, hunique⟩ := hs.step_unique h
  refine ⟨hnodup, hunique, ?_⟩
  intro t' f hf op v ops hplace
  have hread : v = s.data (g.lock op) := by
    rcases h.mem_frames hf hplace with hf | hread
    · exact hs.current t' f hf op v ops hplace
    · exact hread
  rcases h.data_cases with ⟨hdata, _⟩ | ⟨_, _, op', v', _, _, hdata, _, hheld⟩
  · rw [hdata, hread]
  · -- nobody else is in the critical section of the operation that ends
    have hne : g.lock op ≠ g.lock op' := by
      intro heq
      refine hs.free_of_release h hheld t' (mem_heldBy.mpr ⟨f, hf, ?_⟩)
      rw [hplace, ← heq]
      rfl
    rw [hdata, Function.update_of_ne hne, hread]

end Machine.Exclusive

namespace Reached

variable {data : ∀ l, σ l}

theorem exclusive (h : Reached handler data s) : s.Exclusive := by
  induction h with
  | refl => exact ⟨by simp [heldBy], by simp [heldBy], by simp⟩
  | tail _ hstep ih =>
      obtain ⟨t, hstep⟩ := hstep
      exact ih.step hstep

/-- No update is lost: every part is what the operations on it make of it, one after another. -/
theorem data_eq (h : Reached handler data s) (l : L) : s.data l = g.apply l s.done (data l) := by
  induction h with
  | refl => rfl
  | tail hbefore hstep ih =>
      obtain ⟨t, hstep⟩ := hstep
      rcases hstep.data_cases with ⟨hdata, hdone⟩ | ⟨f, hf, op, v, ops, hplace, hdata, hdone, _⟩
      · rw [hdata, hdone, ih]
      · rw [hdata, hdone, Guarded.apply_concat, ← ih]
        have hread := (exclusive hbefore).current t f hf op v ops hplace
        by_cases hl : g.lock op = l
        · subst hl
          rw [Function.update_self, dif_pos rfl, hread]
        · rw [Function.update_of_ne (Ne.symm hl), dif_neg hl]

end Reached

/-! ## Interrupts -/

namespace Machine

/-- A thread was interrupted in the critical section of a lock that its handler still needs. -/
def Interrupted (s : Machine g T) (t : T) (l : L) : Prop :=
  ∃ top f, s.frames t = [top, f] ∧ top.handler = true ∧ f.place.held = some l ∧
    ∃ op ∈ top.place.left, g.lock op = l

/-- The thread waits for its own lock. -/
theorem Interrupted.step {l : L} (h : s.Interrupted t l) (hs : s.Exclusive) {t' : T}
    (hstep : Step handler t' s s') : s'.Interrupted t l := by
  obtain ⟨top, f, hframes, htop, hheld, op, hop, hlock⟩ := h
  by_cases ht : t = t'
  swap
  · exact ⟨top, f, (hstep.frames_of_ne ht).trans hframes, htop, hheld, op, hop, hlock⟩
  subst ht
  cases hstep with
  | call ops hnone => simp [hframes] at hnone
  | interrupt hnot => simp [hnot top (by simp [hframes])] at htop
  | acquire b op' ops rest htail hfree =>
      rw [hframes] at htail
      obtain ⟨rfl, rfl⟩ := List.cons.inj htail
      exact ⟨_, f, setFrames_frames _, htop, hheld, op, hop, hlock⟩
  | release b op' v ops rest htail =>
      have hnodup := hs.nodup t
      rw [hframes] at htail
      obtain ⟨rfl, rfl⟩ := List.cons.inj htail
      -- the operation that ends is not behind the lock of the interrupted one
      have hne : g.lock op' ≠ l := by
        rintro rfl
        simp [heldBy, hframes, hheld] at hnodup
      have hop' : op ∈ ops := by
        rcases List.mem_cons.mp hop with rfl | hop
        · exact absurd hlock hne
        · exact hop
      exact ⟨_, f, setFrames_frames _, htop, hheld, op, hop', hlock⟩
  | leave b rest htail =>
      rw [hframes] at htail
      obtain ⟨rfl, rfl⟩ := List.cons.inj htail
      cases hop

/-- A thread is interrupted at most once at a time, and while a lock is held below a handler, the
handler still needs it. -/
def Layered (s : Machine g T) : Prop :=
  ∀ t, (s.frames t).length ≤ 1 ∨ ∃ top f, s.frames t = [top, f] ∧ top.handler = true ∧
    ∀ l, f.place.held = some l → s.Interrupted t l

theorem Layered.step (h : s.Layered) (hs : s.Exclusive)
    (hneeds : ∀ l, ∃ op ∈ handler, g.lock op = l) (hstep : Step handler t s s') :
    s'.Layered := by
  intro t'
  by_cases ht : t' = t
  swap
  · rcases h t' with hlength | ⟨top, f, hframes, htop, hinterrupted⟩
    · exact Or.inl (by rwa [hstep.frames_of_ne ht])
    · refine Or.inr ⟨top, f, (hstep.frames_of_ne ht).trans hframes, htop, fun l hl => ?_⟩
      exact (hinterrupted l hl).step hs hstep
  subst ht
  rcases h t' with hlength | ⟨top, f, hframes, htop, hinterrupted⟩
  · cases hstep with
    | call ops hframes => exact Or.inl (by simp)
    | interrupt hnot =>
        rcases hframes : s.frames t' with _ | ⟨f, rest⟩
        · exact Or.inl (by simp)
        · obtain rfl : rest = [] := by
            rw [hframes] at hlength
            simpa using hlength
          refine Or.inr ⟨_, f, setFrames_frames _, rfl, fun l hl => ?_⟩
          exact ⟨_, f, setFrames_frames _, rfl, hl, hneeds l⟩
    | acquire b op ops rest hframes hfree => exact Or.inl (by simpa [hframes] using hlength)
    | release b op v ops rest hframes =>
        exact Or.inl (by simpa [hframes, setFrames] using hlength)
    | leave b rest hframes =>
        rw [hframes] at hlength
        exact Or.inl (by simpa using Nat.le_of_succ_le hlength)
  · have hkept := fun l hl => (hinterrupted l hl).step hs hstep
    cases hstep with
    | call ops hnone => simp [hframes] at hnone
    | interrupt hnot => simp [hnot top (by simp [hframes])] at htop
    | acquire b op ops rest htail hfree =>
        rw [hframes] at htail
        obtain ⟨rfl, rfl⟩ := List.cons.inj htail
        exact Or.inr ⟨_, f, setFrames_frames _, htop, hkept⟩
    | release b op v ops rest htail =>
        rw [hframes] at htail
        obtain ⟨rfl, rfl⟩ := List.cons.inj htail
        exact Or.inr ⟨_, f, setFrames_frames _, htop, hkept⟩
    | leave b rest htail =>
        rw [hframes] at htail
        obtain ⟨rfl, rfl⟩ := List.cons.inj htail
        exact Or.inl (by simp)

end Machine

/-! ## Progress -/

/-- How many steps a sequence of operations is from its end. -/
def Place.stepsLeft : Place g → ℕ
  | .outside ops => 2 * ops.length + 1
  | .inside _ _ ops => 2 * ops.length + 2

def stepsLeft : List (Frame g) → ℕ
  | [] => 0
  | f :: frames => f.place.stepsLeft + stepsLeft frames

namespace Machine.Undisturbed

/-- A step of a thread that leaves its lower frames keeps the locks on top. -/
theorem of_tail (hs : s.Undisturbed) (hstep : Step handler t s s')
    (htail : ∀ f ∈ (s'.frames t).tail, f ∈ (s.frames t).tail) : s'.Undisturbed := by
  intro t' f hf
  by_cases ht : t' = t
  · subst ht
    exact hs t' f (htail f hf)
  · rw [hstep.frames_of_ne ht] at hf
    exact hs t' f hf

/-- A thread can take the lock that it needs, possibly after its holder has released it. -/
theorem exists_acquire (hs : s.Undisturbed) (hexclusive : s.Exclusive) {b : Bool} {op : Op}
    {ops : List Op} {rest : List (Frame g)}
    (hframes : s.frames t = ⟨b, .outside (op :: ops)⟩ :: rest) :
    ∃ s' v, Steps handler s s' ∧ s'.Undisturbed ∧ s'.Exclusive ∧
      s'.frames t = ⟨b, .inside op v ops⟩ :: rest := by
  have hacquire : ∀ s' : Machine g T, s'.Undisturbed → s'.Exclusive →
      s'.frames t = ⟨b, .outside (op :: ops)⟩ :: rest → s'.Free (g.lock op) →
      ∃ s'' v, Steps handler s' s'' ∧ s''.Undisturbed ∧ s''.Exclusive ∧
        s''.frames t = ⟨b, .inside op v ops⟩ :: rest := by
    intro s' hs' hexclusive' hframes' hfree
    have hstep : Step handler t s' _ := .acquire s' b op ops rest hframes' hfree
    exact ⟨_, _, .single ⟨t, hstep⟩, hs'.of_tail hstep (by simp [hframes']),
      hexclusive'.step hstep, setFrames_frames _⟩
  by_cases hfree : s.Free (g.lock op)
  · exact hacquire s hs hexclusive hframes hfree
  · obtain ⟨t', hheld⟩ := not_forall_not.mp hfree
    obtain ⟨b', op', v, ops', rest', hframes', hlock⟩ := hs.exists_release hheld
    have hne : t ≠ t' := by
      rintro rfl
      simp [hframes] at hframes'
    have hstep : Step handler t' s _ := .release s b' op' v ops' rest' hframes'
    have hfree' := hexclusive.free_of_release hstep (heldBy_release hframes')
    have hs' := hs.of_tail hstep (by simp [hframes', setFrames])
    obtain ⟨s'', v', hsteps, hend⟩ := hacquire _ hs' (hexclusive.step hstep)
      ((hstep.frames_of_ne hne).trans hframes) (hlock ▸ hfree')
    exact ⟨s'', v', .head ⟨t', hstep⟩ hsteps, hend⟩

/-- A thread that is not done can come nearer to its end. -/
theorem exists_nearer (hs : s.Undisturbed) (hexclusive : s.Exclusive) (hne : s.frames t ≠ []) :
    ∃ s', Steps handler s s' ∧ s'.Undisturbed ∧ s'.Exclusive ∧
      stepsLeft (s'.frames t) < stepsLeft (s.frames t) := by
  have hsingle : ∀ s', Step handler t s s' → (∀ f ∈ (s'.frames t).tail, f ∈ (s.frames t).tail) →
      stepsLeft (s'.frames t) < stepsLeft (s.frames t) →
      ∃ s', Steps handler s s' ∧ s'.Undisturbed ∧ s'.Exclusive ∧
        stepsLeft (s'.frames t) < stepsLeft (s.frames t) :=
    fun s' hstep htail hlt =>
      ⟨s', .single ⟨t, hstep⟩, hs.of_tail hstep htail, hexclusive.step hstep, hlt⟩
  obtain ⟨⟨b, place⟩, rest, hframes⟩ := List.exists_cons_of_ne_nil hne
  cases place with
  | inside op v ops =>
      refine hsingle _ (.release s b op v ops rest hframes) ?_ ?_
      · simp [hframes, setFrames]
      · simp [hframes, setFrames, stepsLeft, Place.stepsLeft]
  | outside ops =>
      cases ops with
      | nil =>
          refine hsingle _ (.leave s b rest hframes) ?_ ?_
          · intro f hf
            rw [setFrames_frames] at hf
            rw [hframes]
            exact List.mem_of_mem_tail hf
          · rw [setFrames_frames, hframes]
            simp [stepsLeft, Place.stepsLeft]
      | cons op ops =>
          obtain ⟨s', v, hsteps, hs', hexclusive', hframes'⟩ :=
            hs.exists_acquire hexclusive hframes
          refine ⟨s', hsteps, hs', hexclusive', ?_⟩
          rw [hframes', hframes]
          simp only [stepsLeft, Place.stepsLeft, List.length_cons]
          omega

/-- Every thread can come to the end of its operations. -/
theorem exists_finished (hs : s.Undisturbed) (hexclusive : s.Exclusive) (t : T) :
    ∃ s', Steps handler s s' ∧ s'.frames t = [] := by
  induction hn : stepsLeft (s.frames t) using Nat.strongRecOn generalizing s with
  | _ n ih =>
    by_cases hnil : s.frames t = []
    · exact ⟨s, .refl, hnil⟩
    · obtain ⟨s', hsteps, hs', hexclusive', hlt⟩ := hs.exists_nearer hexclusive hnil
      obtain ⟨s'', hsteps', hend⟩ := ih _ (hn ▸ hlt) hs' hexclusive' rfl
      exact ⟨s'', hsteps.trans hsteps', hend⟩

end Machine.Undisturbed

namespace Reached

variable {data : ∀ l, σ l}

theorem layered (h : Reached handler data s) (hneeds : ∀ l, ∃ op ∈ handler, g.lock op = l) :
    s.Layered := by
  induction h with
  | refl => exact fun t => Or.inl (Nat.zero_le _)
  | tail hbefore hstep ih =>
      obtain ⟨t, hstep⟩ := hstep
      exact ih.step (exclusive hbefore) hneeds hstep

/-- An interrupted thread stays where it is, with its lock. -/
theorem interrupted_steps {l : L} (h : Reached handler data s) (ht : s.Interrupted t l)
    (hsteps : Steps handler s s') : s'.Interrupted t l ∧ l ∈ s'.heldBy t := by
  have hboth : Reached handler data s' ∧ s'.Interrupted t l := by
    induction hsteps with
    | refl => exact ⟨h, ht⟩
    | tail _ hstep ih =>
        obtain ⟨t', hstep⟩ := hstep
        exact ⟨ih.1.tail ⟨t', hstep⟩, ih.2.step (exclusive ih.1) hstep⟩
  refine ⟨hboth.2, ?_⟩
  obtain ⟨top, f, hframes, _, hheld, _⟩ := hboth.2
  exact mem_heldBy.mpr ⟨f, by simp [hframes], hheld⟩

/-- A lock that is held below a handler is one that the handler needs. -/
theorem interrupted_of_held {l : L} (h : Reached handler data s)
    (hneeds : ∀ l, ∃ op ∈ handler, g.lock op = l) {f : Frame g} (hf : f ∈ (s.frames t).tail)
    (hheld : f.place.held = some l) : s.Interrupted t l := by
  rcases h.layered hneeds t with hlength | ⟨top, f', hframes, _, hinterrupted⟩
  · have htail : (s.frames t).tail = [] := by
      rw [← List.length_eq_zero_iff, List.length_tail]
      omega
    simp [htail] at hf
  · obtain rfl : f = f' := by simpa [hframes] using hf
    exact hinterrupted l hheld

/-- If the handler needs all locks: every thread can finish if and only if none was interrupted
in a critical section. -/
theorem exists_finished_iff (h : Reached handler data s)
    (hneeds : ∀ l, ∃ op ∈ handler, g.lock op = l) :
    (∀ t, ∃ s', Steps handler s s' ∧ s'.frames t = []) ↔ s.Undisturbed := by
  constructor
  · intro hfinish t f hf
    by_contra hheld
    obtain ⟨l, hl⟩ := Option.ne_none_iff_exists'.mp hheld
    obtain ⟨s', hsteps, hend⟩ := hfinish t
    obtain ⟨⟨_, _, hframes, _⟩, _⟩ :=
      h.interrupted_steps (h.interrupted_of_held hneeds hf hl) hsteps
    simp [hframes] at hend
  · exact fun hs t => hs.exists_finished h.exclusive t

end Reached

end Locks

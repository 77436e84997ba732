import Mathlib.Data.List.MinMax
import Mathlib.Algebra.Order.Group.Multiset

/-!
# Priority queues that are looked at before they are popped

A `PriorityQueue` is given by its operations and the laws they obey; nothing is said about
the order among elements of the same priority. A `Drain` works on such a queue: it looks at
the top, handles it and then pops. These are separate operations, and other elements can be
pushed in between. If the elements that come while the queue is drained are of the lowest
priority, then the element that is popped is the one that was handled.

The elements stand for objects, so each of them is pushed at most once.
-/

namespace Containers

/-- The operations of a priority queue and their laws. -/
structure PriorityQueue (α : Type*) (priority : α → ℕ) (Q : Type*) where
  empty : Q
  push : α → Q → Q
  top : Q → Option α
  pop : Q → Q
  contents : Q → Multiset α
  contents_empty : contents empty = 0
  contents_push : ∀ a q, contents (push a q) = a ::ₘ contents q
  contents_pop : ∀ a q, top q = some a → a ::ₘ contents (pop q) = contents q
  top_eq_none : ∀ q, top q = none ↔ contents q = 0
  top_max : ∀ a q, top q = some a → ∀ b ∈ contents q, priority b ≤ priority a
  top_push : ∀ a b q, top q = some a → ¬ priority a < priority b → top (push b q) = some a

namespace PriorityQueue

variable {α : Type*} {priority : α → ℕ} {Q : Type*}

theorem mem_contents_of_top (impl : PriorityQueue α priority Q) {a : α} {q : Q}
    (h : impl.top q = some a) : a ∈ impl.contents q := by
  rw [← impl.contents_pop a q h]
  exact Multiset.mem_cons_self a _

/-- A list as a priority queue: the first element of the highest priority is on top. -/
def list [DecidableEq α] (priority : α → ℕ) : PriorityQueue α priority (List α) where
  empty := []
  push a q := q ++ [a]
  top q := q.argmax priority
  pop q := (q.argmax priority).elim q q.erase
  contents q := q
  contents_empty := rfl
  contents_push a q := Multiset.coe_eq_coe.mpr (List.perm_append_singleton a q)
  contents_pop a q h := by
    rw [h]
    exact Multiset.coe_eq_coe.mpr (List.perm_cons_erase (List.argmax_mem h)).symm
  top_eq_none q := by
    rw [List.argmax_eq_none, Multiset.coe_eq_zero]
  top_max a q h b hb := List.le_of_mem_argmax hb h
  top_push a b q h hb := by
    rw [List.argmax_concat, h]
    exact if_neg hb

end PriorityQueue

/-! ## Draining -/

/-- Where a drain is: about to look at the top, handling an element, or about to pop after
it has handled one. -/
inductive DrainPhase (α : Type*)
  | idle
  | looking
  | handling (a : α)
  | popping (a : α)
  deriving DecidableEq

/-- The element that was on top at the last look and has not been popped since. -/
def DrainPhase.held {α : Type*} : DrainPhase α → Option α
  | .idle | .looking => none
  | .handling a | .popping a => some a

/-- The element that was handled and has not been popped yet. -/
def DrainPhase.returned {α : Type*} : DrainPhase α → List α
  | .idle | .looking | .handling _ => []
  | .popping a => [a]

theorem DrainPhase.mem_returned {α : Type*} {a : α} {phase : DrainPhase α} :
    a ∈ phase.returned ↔ phase = .popping a := by
  cases phase with
  | popping b => simp [returned, eq_comm]
  | idle | looking | handling b => simp [returned]

/-- A queue that is drained, with its history: the elements that were pushed, those whose
handling was completed, those that were popped, and those whose handling began since the
last drain began. -/
structure Drain (α Q : Type*) where
  queue : Q
  phase : DrainPhase α := .idle
  pushed : List α := []
  handled : List α := []
  popped : List α := []
  round : List α := []

/-- The operations on a queue that is drained. `abort` is an exception while an element is
handled. -/
inductive DrainCall (α : Type*)
  | push (a : α)
  | start
  | look
  | complete
  | abort
  | pop

namespace Drain

section

variable {α Q : Type*} {priority : α → ℕ} (impl : PriorityQueue α priority Q) (late : α → Prop)

/-- New elements may come at any time, but only the late ones while the queue is drained. -/
def Allows (d : Drain α Q) : DrainCall α → Prop
  | .push a => a ∉ d.pushed ∧ (d.phase ≠ .idle → late a)
  | .start => d.phase = .idle
  | .look => d.phase = .looking
  | .complete | .abort => ∃ a, d.phase = .handling a
  | .pop => ∃ a, d.phase = .popping a

/-- Look at the top of the queue; the drain ends if there is nothing. -/
def look (d : Drain α Q) : Drain α Q :=
  match impl.top d.queue with
  | none => { d with phase := .idle }
  | some a => { d with phase := .handling a, round := d.round ++ [a] }

def complete (d : Drain α Q) : Drain α Q :=
  match d.phase with
  | .handling a => { d with phase := .popping a, handled := d.handled ++ [a] }
  | _ => d

/-- Pop whatever is on top of the queue, if anything. -/
def pop (d : Drain α Q) : Drain α Q :=
  match impl.top d.queue with
  | none => { d with phase := .looking }
  | some a =>
      { d with phase := .looking, queue := impl.pop d.queue, popped := d.popped ++ [a] }

def perform (d : Drain α Q) : DrainCall α → Drain α Q
  | .push a => { d with queue := impl.push a d.queue, pushed := d.pushed ++ [a] }
  | .start => { d with phase := .looking, round := [] }
  | .look => d.look impl
  | .complete => d.complete
  | .abort => { d with phase := .idle }
  | .pop => d.pop impl

end

end Drain

/-- The runs that start with an empty queue. -/
inductive DrainRun {α Q : Type*} {priority : α → ℕ} (impl : PriorityQueue α priority Q)
    (late : α → Prop) : Drain α Q → Prop
  | start : DrainRun impl late { queue := impl.empty }
  | call {d : Drain α Q} (h : DrainRun impl late d) (call : DrainCall α)
      (hallowed : d.Allows late call) : DrainRun impl late (d.perform impl call)

namespace Drain

variable {α Q : Type*} {priority : α → ℕ} {impl : PriorityQueue α priority Q} {late : α → Prop}
  {d : Drain α Q}

/-- The element that is handled stays on top of the queue, what is popped is what was
handled, nothing is lost, and in one drain the priorities go down. -/
structure Orderly (impl : PriorityQueue α priority Q) (d : Drain α Q) : Prop where
  held_top : ∀ a, d.phase.held = some a → impl.top d.queue = some a
  handled_eq : d.handled = d.popped ++ d.phase.returned
  pushed_eq : (d.pushed : Multiset α) = d.popped + impl.contents d.queue
  pushed_nodup : d.pushed.Nodup
  round_sorted : d.round.Pairwise fun a b => priority b ≤ priority a
  round_above : d.phase ≠ .idle → ∀ a ∈ d.round, ∀ b ∈ impl.contents d.queue,
    priority b ≤ priority a

namespace Orderly

theorem push (hlate : ∀ a b, late b → priority b ≤ priority a) {a : α} (hd : d.Orderly impl)
    (hfresh : a ∉ d.pushed) (hpush : d.phase ≠ .idle → late a) :
    (d.perform impl (.push a)).Orderly impl where
  held_top b hb := by
    have hphase : d.phase ≠ .idle := by
      intro hidle
      change d.phase.held = some b at hb
      simp [hidle, DrainPhase.held] at hb
    have hle : priority a ≤ priority b := hlate b a (hpush hphase)
    exact impl.top_push b a _ (hd.held_top b hb) (Nat.not_lt.mpr hle)
  handled_eq := hd.handled_eq
  pushed_eq := by
    have hpushed : ((d.pushed ++ [a] : List α) : Multiset α) = d.pushed + {a} := rfl
    have hcontents : impl.contents (d.perform impl (.push a)).queue =
        {a} + impl.contents d.queue := impl.contents_push a d.queue
    rw [hcontents]
    refine hpushed.trans ?_
    rw [hd.pushed_eq, add_assoc, add_comm (impl.contents d.queue)]
    rfl
  pushed_nodup := List.nodup_append'.mpr
    ⟨hd.pushed_nodup, List.nodup_singleton a, List.disjoint_singleton.mpr hfresh⟩
  round_sorted := hd.round_sorted
  round_above hphase b hb c hc := by
    rcases Multiset.mem_cons.mp ((impl.contents_push a d.queue) ▸ hc) with rfl | hc
    · exact hlate b c (hpush hphase)
    · exact hd.round_above hphase b hb c hc

theorem look (hd : d.Orderly impl) (hphase : d.phase = .looking) : (d.look impl).Orderly impl := by
  have hhandled : d.handled = d.popped ++ [] := by
    rw [hd.handled_eq, hphase]
    rfl
  unfold Drain.look
  split
  · exact ⟨fun _ h => absurd h (by simp [DrainPhase.held]), hhandled, hd.pushed_eq,
      hd.pushed_nodup, hd.round_sorted, fun h => absurd rfl h⟩
  · rename_i a htop
    have habove := hd.round_above (by simp [hphase])
    refine ⟨?_, hhandled, hd.pushed_eq, hd.pushed_nodup, ?_, ?_⟩
    · intro b hb
      obtain rfl : a = b := Option.some.inj hb
      exact htop
    · refine List.pairwise_append.mpr ⟨hd.round_sorted, List.pairwise_singleton _ a, ?_⟩
      intro b hb c hc
      obtain rfl := List.mem_singleton.mp hc
      exact habove b hb c (impl.mem_contents_of_top htop)
    · intro _ b hb c hc
      rcases List.mem_append.mp hb with hb | hb
      · exact habove b hb c hc
      · obtain rfl := List.mem_singleton.mp hb
        exact impl.top_max b _ htop c hc

theorem complete {a : α} (hd : d.Orderly impl) (hphase : d.phase = .handling a) :
    d.complete.Orderly impl := by
  unfold Drain.complete
  rw [hphase]
  refine ⟨?_, ?_, hd.pushed_eq, hd.pushed_nodup, hd.round_sorted, ?_⟩
  · intro b hb
    exact hd.held_top b (by rw [hphase]; exact hb)
  · have hhandled := hd.handled_eq
    rw [hphase, DrainPhase.returned, List.append_nil] at hhandled
    exact congrArg (· ++ [a]) hhandled
  · exact fun _ => hd.round_above (by simp [hphase])

theorem top_of_popping {a : α} (hd : d.Orderly impl) (hphase : d.phase = .popping a) :
    impl.top d.queue = some a := by
  refine hd.held_top a ?_
  rw [hphase]
  rfl

/-- What is popped is what was handled. -/
theorem pop_eq {a : α} (hd : d.Orderly impl) (hphase : d.phase = .popping a) :
    d.pop impl =
      { d with phase := .looking, queue := impl.pop d.queue, popped := d.popped ++ [a] } := by
  unfold Drain.pop
  rw [hd.top_of_popping hphase]

theorem pop {a : α} (hd : d.Orderly impl) (hphase : d.phase = .popping a) :
    (d.pop impl).Orderly impl := by
  have hcontents := impl.contents_pop a d.queue (hd.top_of_popping hphase)
  rw [hd.pop_eq hphase]
  refine ⟨fun _ h => absurd h (by simp [DrainPhase.held]), ?_, ?_, hd.pushed_nodup,
    hd.round_sorted, ?_⟩
  · have hhandled := hd.handled_eq
    rw [hphase, DrainPhase.returned] at hhandled
    simpa [DrainPhase.returned] using hhandled
  · have hpopped : ((d.popped ++ [a] : List α) : Multiset α) = d.popped + {a} := rfl
    rw [hpopped, hd.pushed_eq, ← hcontents, add_assoc]
    rfl
  · intro _ b hb c hc
    refine hd.round_above (by simp [hphase]) b hb c ?_
    rw [← hcontents]
    exact Multiset.mem_cons_of_mem hc

theorem perform (hlate : ∀ a b, late b → priority b ≤ priority a) {call : DrainCall α}
    (hd : d.Orderly impl) (hallowed : d.Allows late call) :
    (d.perform impl call).Orderly impl := by
  cases call with
  | push a => exact hd.push hlate hallowed.1 hallowed.2
  | start =>
      have hphase : d.phase = .idle := hallowed
      have hhandled := hd.handled_eq
      rw [hphase] at hhandled
      exact ⟨fun _ h => absurd h (by simp [Drain.perform, DrainPhase.held]), hhandled,
        hd.pushed_eq, hd.pushed_nodup, .nil, fun _ _ h => absurd h List.not_mem_nil⟩
  | look => exact hd.look hallowed
  | complete =>
      obtain ⟨a, hphase⟩ := hallowed
      exact hd.complete hphase
  | abort =>
      obtain ⟨a, hphase⟩ := hallowed
      have hhandled := hd.handled_eq
      rw [hphase] at hhandled
      exact ⟨fun _ h => absurd h (by simp [Drain.perform, DrainPhase.held]), hhandled,
        hd.pushed_eq, hd.pushed_nodup, hd.round_sorted, fun h => absurd rfl h⟩
  | pop =>
      obtain ⟨a, hphase⟩ := hallowed
      exact hd.pop hphase

theorem handled_subset (hd : d.Orderly impl) : d.handled ⊆ d.pushed := by
  intro a ha
  rw [← Multiset.mem_coe, hd.pushed_eq, Multiset.mem_add, Multiset.mem_coe]
  rw [hd.handled_eq] at ha
  rcases List.mem_append.mp ha with ha | ha
  · exact Or.inl ha
  · exact Or.inr (impl.mem_contents_of_top (hd.top_of_popping (DrainPhase.mem_returned.mp ha)))

/-- Every element that was pushed is handled exactly once or still in the queue, and one
that was handled is in the queue only until it is popped. -/
theorem handled_once [DecidableEq α] {a : α} (hd : d.Orderly impl) (ha : a ∈ d.pushed) :
    (d.handled.count a = 1 ∧ (a ∈ impl.contents d.queue ↔ d.phase = .popping a)) ∨
      (d.handled.count a = 0 ∧ (impl.contents d.queue).count a = 1) := by
  have hcount : d.popped.count a + (impl.contents d.queue).count a = 1 := by
    have hpushed := congrArg (Multiset.count a) hd.pushed_eq
    rw [Multiset.count_add, Multiset.coe_count, Multiset.coe_count,
      List.count_eq_one_of_mem hd.pushed_nodup ha] at hpushed
    exact hpushed.symm
  have hhandled := congrArg (List.count a) hd.handled_eq
  rw [List.count_append] at hhandled
  by_cases hphase : d.phase = .popping a
  · have hmem := impl.mem_contents_of_top (hd.top_of_popping hphase)
    have hpos := Multiset.count_pos.mpr hmem
    rw [hphase, DrainPhase.returned, List.count_singleton_self] at hhandled
    exact Or.inl ⟨by omega, iff_of_true hmem hphase⟩
  · have hreturned : d.phase.returned.count a = 0 := by
      rw [List.count_eq_zero, DrainPhase.mem_returned]
      exact hphase
    rw [hreturned, add_zero] at hhandled
    rcases Nat.eq_zero_or_pos (d.popped.count a) with hzero | hpos
    · exact Or.inr ⟨hhandled.trans hzero, by omega⟩
    · refine Or.inl ⟨by omega, iff_of_false ?_ hphase⟩
      rw [← Multiset.count_eq_zero]
      omega

end Orderly

end Drain

theorem DrainRun.orderly {α Q : Type*} {priority : α → ℕ} {impl : PriorityQueue α priority Q}
    {late : α → Prop} {d : Drain α Q} (hlate : ∀ a b, late b → priority b ≤ priority a)
    (h : DrainRun impl late d) : d.Orderly impl := by
  induction h with
  | start =>
      exact ⟨fun _ h => absurd h (by simp [DrainPhase.held]), rfl,
        by simp [impl.contents_empty], .nil, .nil, fun h => absurd rfl h⟩
  | call _ call hallowed ih => exact ih.perform hlate hallowed

end Containers

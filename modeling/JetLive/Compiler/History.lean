import JetLive.Compiler.Operations

/-!
# What a trace says about the source files

`history t` reads off a trace what the calls and the finished compilations mean
for the source files: which of them are dirty, which have been removed, how the
latest compilation of each ended and which of them are broken. It is computed
from the trace alone, never from the state of the compiler.

Most events say nothing about any of this; `Event.Neutral` names them, and
`history_callback` is the consequence for a callback, whose own effects are
neutral.
-/

namespace JetLive

open EventTrace

/-- What is known about the source files after a trace. -/
structure History where
  /-- A call of `compile` makes a path dirty; `remove` and every link callback
  with status `0` end this. -/
  dirty : Finset String := ∅
  /-- Removed, and not compiled since. -/
  removed : Finset String := ∅
  /-- The most recently finished compilation failed, and the path was not removed
  since. -/
  broken : Finset String := ∅
  /-- The status of the most recently finished compilation. -/
  latest : String → Option ℤ := fun _ => none
  /-- The state in which the most recent link process was started. -/
  linkStart : Option Compiler := none

namespace History

/-- The effect of one event, which happened in the state `c`. -/
def next (h : History) (c : Compiler) : Event → History
  | .compile cu =>
      { h with
        dirty := insert cu.sourceFilePath h.dirty
        removed := h.removed.erase cu.sourceFilePath }
  | .remove p =>
      { h with
        dirty := h.dirty.erase p
        removed := insert p h.removed
        broken := h.broken.erase p }
  | .compileFinished _ status p _ =>
      { h with
        latest := Function.update h.latest p (some status)
        broken := if status = 0 then h.broken.erase p else insert p h.broken }
  | .linkStarted _ => { h with linkStart := some c }
  | .linkFinished _ status _ _ _ => if status = 0 then { h with dirty := ∅ } else h
  | _ => h

end History

def history : CompilerTrace → History
  | [] => {}
  | (c, e) :: t => (history t).next c e

@[simp] theorem history_nil : history [] = {} := rfl

@[simp] theorem history_cons (c : Compiler) (e : Event) (t : CompilerTrace) :
    history ((c, e) :: t) = (history t).next c e := rfl

/-- The events that leave the history alone and are not calls of the compiler. -/
def Event.Neutral : Event → Prop
  | .log .. | .compileStarted .. | .dlopen .. | .host _ => True
  | _ => False

theorem History.next_of_neutral (h : History) (c : Compiler) {e : Event} (he : e.Neutral) :
    h.next c e = h := by
  cases e <;> first | rfl | exact he.elim

namespace Session

variable {W : Type*}

theorem history_foldl_host (l : List HostEvent) (s : Session W) :
    history (l.foldl (fun s e => s.emit (.host e)) s).trace = history s.trace := by
  induction l generalizing s with
  | nil => rfl
  | cons e l ih =>
      rw [List.foldl_cons, ih, emit_trace, history_cons]
      exact History.next_of_neutral _ _ trivial

@[simp] theorem history_callback (e : Event) (effect : W → W × List HostEvent)
    (s : Session W) :
    history (s.callback e effect).trace = (history s.trace).next s.compiler e := by
  rw [callback, history_foldl_host]
  rfl

/-- The effects of the host do not change the history, so they are judged by the history
before them. -/
theorem always_foldl_host {P : Compiler → Event → CompilerTrace → Prop} {l : List HostEvent}
    {s : Session W} (hs : Always P s.trace)
    (hl : ∀ e ∈ l, ∀ t, history t = history s.trace → P s.compiler (.host e) t) :
    Always P (l.foldl (fun s e => s.emit (.host e)) s).trace := by
  induction l generalizing s with
  | nil => exact hs
  | cons e l ih =>
      obtain ⟨he, hl⟩ := List.forall_mem_cons.mp hl
      refine ih ((always_cons P _ _ _).mpr ⟨he s.trace rfl, hs⟩) ?_
      intro e' he' t ht
      refine hl e' he' t (ht.trans ?_)
      exact History.next_of_neutral _ _ trivial

theorem always_callback {P : Compiler → Event → CompilerTrace → Prop} {e : Event}
    {effect : W → W × List HostEvent} {s : Session W} (hs : Always P s.trace)
    (he : P s.compiler e s.trace)
    (hhost : ∀ e' ∈ (effect s.world).2, ∀ t,
      history t = (history s.trace).next s.compiler e → P s.compiler (.host e') t) :
    Always P (s.callback e effect).trace :=
  always_foldl_host (s := { s.emit e with world := (effect s.world).1 })
    ((always_cons P _ _ _).mpr ⟨he, hs⟩) hhost

@[simp] theorem history_addLog (severity : LogSeverity) (message : String) (s : Session W) :
    history (s.addLog severity message).trace = history s.trace := rfl

end Session

end JetLive

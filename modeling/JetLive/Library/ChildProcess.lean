import Mathlib.Data.String.Basic
import Mathlib.Logic.Relation

/-!
# Child processes and their readers

A `Child` is a process whose standard error stream is a pipe, together with the thread of
its parent that reads this pipe and hands what it has read to a callback. The callback is
cut in two by a mutex: the reader waits for it while `calling`, is `inside` once it has it
and gives it back when it is `leaving`. What the callback does with the bytes is the
business of the parent; here it is only recorded that they were delivered.

The process may write until the last holder of the pipe hangs up, which can be before or
after the process itself exits. The reader ends when there is nothing left to read, so a
parent that has joined the reader has seen everything (`Child.Conserves.delivered_of_ended`),
and nothing happens to the child from then on (`Child.Step.eq_of_ended`).
-/

namespace ChildProcesses

inductive Reader
  | reading
  | calling (bytes : String)
  | inside (bytes : String)
  | leaving
  | ended
  deriving DecidableEq, Repr

/-- What has been read and not yet delivered. -/
def Reader.held : Reader → String
  | .calling bytes | .inside bytes => bytes
  | .reading | .leaving | .ended => ""

@[simp] theorem Reader.held_reading : Reader.reading.held = "" := rfl

@[simp] theorem Reader.held_calling (bytes : String) : (Reader.calling bytes).held = bytes := rfl

@[simp] theorem Reader.held_inside (bytes : String) : (Reader.inside bytes).held = bytes := rfl

@[simp] theorem Reader.held_leaving : Reader.leaving.held = "" := rfl

@[simp] theorem Reader.held_ended : Reader.ended.held = "" := rfl

def Reader.HasMutex : Reader → Prop
  | .inside _ | .leaving => True
  | .reading | .calling _ | .ended => False

@[simp] theorem Reader.hasMutex_inside (bytes : String) : (Reader.inside bytes).HasMutex := trivial

@[simp] theorem Reader.hasMutex_leaving : Reader.leaving.HasMutex := trivial

@[simp] theorem Reader.not_hasMutex_reading : ¬ Reader.reading.HasMutex := id

@[simp] theorem Reader.not_hasMutex_calling (bytes : String) :
    ¬ (Reader.calling bytes).HasMutex := id

@[simp] theorem Reader.not_hasMutex_ended : ¬ Reader.ended.HasMutex := id

/-- A process and the reader of its pipe. `output` is what it has written so far and
`delivered` what the callback was given. -/
structure Child where
  pipe : String := ""
  hungUp : Bool := false
  exitStatus : Option ℤ := none
  reader : Reader := .reading
  output : String := ""
  delivered : String := ""
  deriving DecidableEq, Repr

namespace Child

/-- A process that was never started. -/
def unborn : Child where
  hungUp := true
  exitStatus := some (-1)
  reader := .ended

/-- What a process and its reader do without the callback. -/
inductive Step : Child → Child → Prop
  | write (c : Child) (bytes : String) (hopen : c.hungUp = false) :
      Step c { c with pipe := c.pipe ++ bytes, output := c.output ++ bytes }
  | exit (c : Child) (status : ℤ) (halive : c.exitStatus = none) :
      Step c { c with exitStatus := some status }
  | hangUp (c : Child) : Step c { c with hungUp := true }
  | read (c : Child) (bytes rest : String) (hreader : c.reader = .reading)
      (hpipe : c.pipe = bytes ++ rest) :
      Step c { c with pipe := rest, reader := .calling bytes }
  | close (c : Child) (hreader : c.reader = .reading) (hpipe : c.pipe = "")
      (hhungUp : c.hungUp = true) : Step c { c with reader := .ended }

def enter (bytes : String) (c : Child) : Child := { c with reader := .inside bytes }

def deliver (next : Reader) (bytes : String) (c : Child) : Child :=
  { c with reader := next, delivered := c.delivered ++ bytes }

def leave (c : Child) : Child := { c with reader := .reading }

/-- Nothing of the output is lost on the way, and the reader does not end before it has
read everything. -/
structure Conserves (c : Child) : Prop where
  output : c.output = c.delivered ++ (c.reader.held ++ c.pipe)
  ended : c.reader = .ended → c.hungUp = true ∧ c.pipe = ""

variable {c c' : Child}

namespace Conserves

theorem unborn : unborn.Conserves := ⟨rfl, fun _ => ⟨rfl, rfl⟩⟩

theorem start : ({} : Child).Conserves := ⟨rfl, fun h => absurd h (by simp)⟩

theorem step (h : c.Conserves) (hstep : Step c c') : c'.Conserves := by
  obtain ⟨houtput, hended⟩ := h
  cases hstep with
  | write bytes hopen =>
      refine ⟨?_, ?_⟩
      · simp only [houtput, String.append_assoc]
      · intro hr
        exact absurd ((hended hr).1.symm.trans hopen) (by simp)
  | exit status halive => exact ⟨houtput, hended⟩
  | hangUp => exact ⟨houtput, fun hr => ⟨rfl, (hended hr).2⟩⟩
  | read bytes rest hreader hpipe =>
      refine ⟨?_, fun hr => absurd hr (by simp)⟩
      simp [houtput, hreader, hpipe]
  | close hreader hpipe hhungUp =>
      refine ⟨?_, fun _ => ⟨hhungUp, hpipe⟩⟩
      simp [houtput, hreader, hpipe]

theorem enter {bytes : String} (h : c.Conserves) (hreader : c.reader = .calling bytes) :
    (c.enter bytes).Conserves := by
  refine ⟨?_, fun hr => absurd hr (by simp [Child.enter])⟩
  simpa [Child.enter, hreader] using h.output

theorem deliver {bytes : String} {next : Reader} (h : c.Conserves)
    (hheld : c.reader.held = bytes) (hnext : next = .reading ∨ next = .leaving) :
    (c.deliver next bytes).Conserves := by
  refine ⟨?_, ?_⟩
  · rcases hnext with rfl | rfl <;>
      simp [Child.deliver, h.output, hheld, String.append_assoc]
  · rcases hnext with rfl | rfl <;> simp [Child.deliver]

theorem leave (h : c.Conserves) (hreader : c.reader = .leaving) : c.leave.Conserves := by
  refine ⟨?_, fun hr => absurd hr (by simp [Child.leave])⟩
  simpa [Child.leave, hreader] using h.output

/-- A reader that has ended has delivered everything. -/
theorem delivered_of_ended (h : c.Conserves) (hreader : c.reader = .ended) :
    c.delivered = c.output := by
  simp [h.output, hreader, (h.ended hreader).2]

end Conserves

/-- Nothing happens to a child that has exited and whose reader has ended. -/
theorem Step.eq_of_ended (hstep : Step c c') (hc : c.Conserves) (hreader : c.reader = .ended)
    (hexit : c.exitStatus ≠ none) : c' = c := by
  obtain ⟨hhungUp, -⟩ := hc.ended hreader
  cases hstep with
  | write bytes hopen => exact absurd (hhungUp.symm.trans hopen) (by simp)
  | exit status halive => exact absurd halive hexit
  | hangUp =>
      obtain ⟨_, _, _, _, _, _⟩ := c
      simp only [Child.mk.injEq] at hhungUp ⊢
      simp [hhungUp]
  | read bytes rest hr => exact absurd (hreader.symm.trans hr) (by simp)
  | close hr => exact absurd (hreader.symm.trans hr) (by simp)

/-- A step without the callback delivers nothing and leaves a held mutex alone. -/
theorem Step.delivered_eq (hstep : Step c c') : c'.delivered = c.delivered := by
  cases hstep <;> rfl

theorem Step.hasMutex_iff (hstep : Step c c') : c'.reader.HasMutex ↔ c.reader.HasMutex := by
  cases hstep with
  | write | exit | hangUp => exact Iff.rfl
  | read bytes rest hreader => simp [hreader]
  | close hreader => simp [hreader]

theorem Step.reader_ne_ended (hstep : Step c c') (hc' : c'.reader ≠ .ended) :
    c.reader ≠ .ended := by
  cases hstep with
  | write | exit | hangUp => exact hc'
  | read bytes rest hreader => simp [hreader]
  | close hreader => simp [hreader]

theorem Step.exitStatus_of_some {status : ℤ} (hstep : Step c c')
    (hexit : c.exitStatus = some status) : c'.exitStatus = some status := by
  cases hstep with
  | exit _ halive => exact absurd (hexit.symm.trans halive) (by simp)
  | write | hangUp | read | close => exact hexit

end Child

end ChildProcesses

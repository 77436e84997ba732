import Mathlib.Data.List.DropRight

/-!
# Walks in a tree

A place in a tree is the list of the names on the way to it from the root. A walk goes up and down
from a start, and the parent of the root is the root.

A walk that never climbs above its start stays below it, and in general below the ancestor it
climbs to. So two walks with the same moves end at the same place exactly if they climb to the same
ancestor.
-/

namespace Walks

variable {α : Type*}

inductive Move (α : Type*)
  | stay
  | up
  | down (a : α)

def move (place : List α) : Move α → List α
  | .stay => place
  | .up => place.dropLast
  | .down a => place ++ [a]

/-- The course of a walk: how far it climbs above its start, and where it is below the ancestor it
has climbed to. -/
structure Course (α : Type*) where
  climbs : ℕ
  below : List α

def Course.next : Course α → Move α → Course α
  | c, .stay => c
  | ⟨n, []⟩, .up => ⟨n + 1, []⟩
  | ⟨n, b :: l⟩, .up => ⟨n, (b :: l).dropLast⟩
  | ⟨n, l⟩, .down a => ⟨n, l ++ [a]⟩

def course (l : List (Move α)) : Course α := l.foldl Course.next ⟨0, []⟩

def Course.place (c : Course α) (start : List α) : List α := start.rdrop c.climbs ++ c.below

end Walks

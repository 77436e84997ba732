import JetLive.Library.Unordered
import JetLive.Loader.SymbolsFilter
import Mathlib.Data.Finset.Max

/-!
# Symbols by their addresses

The relocations of an object file name no variables. The loaders enter the symbols of each
section into an ordered map under their addresses, and find the symbol at an address, or the
one that an address lies in, in this map. A symbol can only be entered under its own address.
-/

namespace JetLive

open Containers

/-- Symbols of an object file, with the place they take in their section. -/
class Extent (σ : Type) where
  virtualAddress : σ → Address
  size : σ → ℕ

instance : Extent ElfSymbol where
  virtualAddress := ElfSymbol.virtualAddress
  size := ElfSymbol.size

instance : Extent MachoSymbol where
  virtualAddress := MachoSymbol.virtualAddress
  size := MachoSymbol.size

/-- The symbols of a section by their addresses. -/
structure SymbolMap (σ : Type) [Extent σ] where
  symbols : UnorderedMap ℕ σ
  keyed : ∀ a sym, symbols.lookup a = some sym → (Extent.virtualAddress sym).toNat = a

namespace SymbolMap

variable {σ : Type} [Extent σ]

def empty : SymbolMap σ where
  symbols := ∅
  keyed := by simp

/-- A symbol takes the place of the one that was entered under its address. -/
def enter (m : SymbolMap σ) (sym : σ) : SymbolMap σ where
  symbols := m.symbols.insert (Extent.virtualAddress sym).toNat sym
  keyed := by
    intro a sym' h
    by_cases ha : a = (Extent.virtualAddress sym).toNat
    · subst ha
      rw [Finmap.lookup_insert, Option.some.injEq] at h
      rw [h]
    · rw [Finmap.lookup_insert_of_ne _ ha] at h
      exact m.keyed a sym' h

def find (m : SymbolMap σ) (a : Address) : Option σ := m.symbols.lookup a.toNat

theorem virtualAddress_of_find {m : SymbolMap σ} {a : Address} {sym : σ}
    (h : m.find a = some sym) : Extent.virtualAddress sym = a :=
  BitVec.eq_of_toNat_eq (m.keyed _ _ h)

/-- The symbol in front of `upper_bound`, or the first one if there is none in front. -/
def before (m : SymbolMap σ) (a : Address) : Option σ :=
  let keys := m.symbols.keys
  let below := keys.filter (· ≤ a.toNat)
  if h : below.Nonempty then m.symbols.lookup (below.max' h)
  else if h : keys.Nonempty then m.symbols.lookup (keys.min' h)
  else none

def enclosing (m : SymbolMap σ) (offset : Address) : Option σ :=
  (m.before offset).filter fun sym =>
    !(offset < Extent.virtualAddress sym ||
      Extent.virtualAddress sym + BitVec.ofNat 64 (Extent.size sym) ≤ offset)

end SymbolMap

/-! ## What the loops make of the entries -/

/-- A loop finds something at an entry, or goes on with these messages. -/
abbrev Outcome (ρ : Type) := Except (List LogEntry) ρ

/-- The relocations of some entries, with all messages. -/
def collect (outcomes : List (Outcome Relocation)) : List Relocation × List LogEntry :=
  (outcomes.filterMap Except.toOption, outcomes.flatMap fun
    | .ok _ => []
    | .error logs => logs)

theorem mem_collect {outcomes : List (Outcome Relocation)} {reloc : Relocation} :
    reloc ∈ (collect outcomes).1 ↔ .ok reloc ∈ outcomes := by
  unfold collect
  rw [List.mem_filterMap]
  constructor
  · rintro ⟨outcome, hmem, hreloc⟩
    cases outcome with
    | error logs => cases hreloc
    | ok found =>
        obtain rfl := Option.some.inj hreloc
        exact hmem
  · intro hmem
    exact ⟨_, hmem, rfl⟩

end JetLive

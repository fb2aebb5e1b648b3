/-!
# Counts of allocations

How often memory was asked for while something was computed. A computation that asks for
none, and lets nothing grow, is free of allocations.
-/

namespace Formula

/-- How often memory was asked for. -/
structure Allocations where
  /-- How many pieces of memory were asked for. -/
  fresh : Nat
  /-- How many pieces had to grow. -/
  grown : Nat
  /-- How many bytes the fresh pieces have together. -/
  bytes : Nat
  deriving DecidableEq

namespace Allocations

/-- No allocations. -/
def none : Allocations := ⟨0, 0, 0⟩

/-- Whether nothing was asked for and nothing had to grow. -/
def isFree (a : Allocations) : Bool := a.fresh == 0 && a.grown == 0

/-- What a computation comes to, with its allocations. No allocator is watched, so there
are none. -/
def measure {α : Type} (f : Unit → α) : α × Allocations := (f (), none)

end Allocations

end Formula

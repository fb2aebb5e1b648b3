/-!
# Approximate equality

Two computed numbers are taken as equal when they differ by little in relation to the sum
of their magnitudes. Near zero there is no relation to speak of, and the difference has to
be below a fixed floor. Numbers of opposite sign are never nearly equal, and nothing is
nearly equal to what is not a number.
-/

namespace Formula.Binary

/-- What approximate equality needs to know about a format. -/
structure Tolerance (α : Type) where
  /-- The difference allowed in relation to the magnitudes. -/
  relative : α
  /-- The least normal number. -/
  leastNormal : α
  /-- The greatest finite number. -/
  greatest : α
  zero : α
  abs : α → α

/-- Whether two numbers are equal within a tolerance. -/
def Tolerance.nearlyEqual {α : Type} [Add α] [Sub α] [Mul α] [Div α] [LT α] [DecidableLT α]
    [BEq α] (t : Tolerance α) (a b : α) : Bool :=
  let difference := t.abs (a - b)
  if a == b then true
  else if a == t.zero || b == t.zero || difference < t.leastNormal then
    difference < t.relative * t.leastNormal
  else
    let sum := t.abs a + t.abs b
    let norm := if sum < t.greatest then sum else t.greatest
    difference / norm < t.relative

/-- The tolerance of 64-bit numbers. -/
def tolerance64 : Tolerance Float where
  relative := 1e-9
  leastNormal := Float.ofBits 0x0010000000000000
  greatest := Float.ofBits 0x7fefffffffffffff
  zero := 0
  abs := Float.abs

/-- The tolerance of 32-bit numbers. -/
def tolerance32 : Tolerance Float32 where
  relative := 1e-5
  leastNormal := Float32.ofBits 0x00800000
  greatest := Float32.ofBits 0x7f7fffff
  zero := 0
  abs := Float32.abs

end Formula.Binary

import Formula.Decimal.Rounding

/-!
# Sums and products of decimals

Each operation gives the exact result, rounded when its digits do not fit, or none when it
is too large. What is decided beyond the value is the scale of the result : a sum has the
larger scale of its operands, and a product the sum of their scales. A zero operand is
passed over before that : a sum with zero is the other operand as it is, and a product with
zero is the zero with no places.

A product of two short factors that is rounded to nothing has no sign, and any other one
keeps the sign of what was rounded.
-/

namespace Formula.Decimal

-- Powers are those of the core library, whatever else is in scope.
attribute [local instance (20000)] instPowNat

/-- The sum. -/
def add? (a b : Decimal) : Option Decimal :=
  if a.isZero then some b
  else if b.isZero then some a
  else
    let scale := max a.scale b.scale
    let sum := a.signedAt scale + b.signedAt scale
    round? (decide (sum < 0)) sum.natAbs scale

/-- The difference : the sum with the other sign, which a zero keeps. -/
def sub? (a b : Decimal) : Option Decimal :=
  add? a (if b.isZero then b else b.neg)

/-- Whether the coefficient has 32 bits at most. -/
def isShort (d : Decimal) : Bool := d.coefficient < 2 ^ (32 : Nat)

/-- The most places that a product of two short factors may have before it counts as
nothing. -/
def shortScale : Nat := maxScale + 19

/-- The product. -/
def mul? (a b : Decimal) : Option Decimal :=
  let scale := a.scale + b.scale
  let product := round? (a.negative != b.negative) (a.coefficient * b.coefficient) scale
  if a.isZero || b.isZero then some zero
  else if a.isShort && b.isShort then
    if shortScale < scale then some zero else product.map plainZero
  else product

end Formula.Decimal

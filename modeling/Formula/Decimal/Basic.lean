import Formula.Text.Positional

/-!
# Decimal numbers of fixed point

A decimal is a sign, a coefficient below `2 ^ 96` and a scale of at most 28 places, and
stands for `± coefficient / 10 ^ scale`. The scale is part of the number and shows in its
text, so `1.5` and `1.50` are two decimals of one value. The order is the order of the
values.

`Decimal.ofParts?` is the only way into the type from a computed coefficient, and refuses
one that does not fit. A zero may have a minus sign, which shows in its text and not in its
order. It comes from a negation and from a product that is rounded to nothing. Whatever else
is computed goes through `Decimal.make?`, which gives zero no sign.
-/

namespace Formula

-- Powers are those of the core library, whatever else is in scope.
attribute [local instance (20000)] instPowNat

/-- A decimal number of fixed point. -/
structure Decimal where
  /-- Whether the number has a minus sign. -/
  negative : Bool
  /-- The digits, read as a whole number. -/
  coefficient : Nat
  /-- How many of the digits stand after the point. -/
  scale : Nat
  coefficient_lt : coefficient < 2 ^ (96 : Nat) := by decide
  scale_le : scale ≤ 28 := by decide
  deriving DecidableEq

namespace Decimal

/-- One more than the largest coefficient. -/
def bound : Nat := 2 ^ (96 : Nat)

/-- The most places after the point. -/
def maxScale : Nat := 28

/-- The number zero with no places. -/
def zero : Decimal := { negative := false, coefficient := 0, scale := 0 }

/-- The decimal with these parts, if they fit. -/
def ofParts? (negative : Bool) (coefficient scale : Nat) : Option Decimal :=
  if h : coefficient < 2 ^ (96 : Nat) ∧ scale ≤ 28 then
    some ⟨negative, coefficient, scale, h.1, h.2⟩
  else none

/-- The decimal with these parts, if they fit. A zero has no minus sign. -/
def make? (negative : Bool) (coefficient scale : Nat) : Option Decimal :=
  ofParts? (negative && coefficient != 0) coefficient scale

/-- A 64-bit whole number as a decimal with no places. -/
def ofInt64 (n : Int64) : Decimal :=
  { negative := decide (n.toInt < 0)
    coefficient := n.toInt.natAbs
    scale := 0
    coefficient_lt := by
      have h₁ := n.le_toInt
      have h₂ := n.toInt_lt
      omega }

/-- Whether the coefficient is zero, whatever the sign and the scale. -/
def isZero (d : Decimal) : Bool := d.coefficient == 0

/-- The number, but without the sign of a zero. -/
def plainZero (d : Decimal) : Decimal := { d with negative := d.negative && !d.isZero }

/-- The number with the other sign. A zero changes its sign too. -/
def neg (d : Decimal) : Decimal := { d with negative := !d.negative }

/-- The number without its sign. -/
def abs (d : Decimal) : Decimal := { d with negative := false }

/-- The coefficient with its sign. -/
def signed (d : Decimal) : Int := if d.negative then -d.coefficient else d.coefficient

/-- The signed coefficient at `scale`, which is not below the number's own. -/
def signedAt (d : Decimal) (scale : Nat) : Int := d.signed * 10 ^ (scale - d.scale)

/-- The order of the values. -/
def cmp (a b : Decimal) : Ordering :=
  let scale := max a.scale b.scale
  compare (a.signedAt scale) (b.signedAt scale)

/-- The decimal as text : the sign, the digits, and as many places as the scale says. -/
def text (d : Decimal) : String :=
  (if d.negative then "-" else "") ++ Text.positional d.coefficient d.scale

end Decimal

end Formula

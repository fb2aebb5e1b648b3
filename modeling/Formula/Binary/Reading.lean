import Formula.Numeral

/-!
# Reading binary floating point numbers

A numeral stands for the nearest number of the format. One that is far too large or far too
small for any format is told by the place of its first digit, without raising ten to its
exponent.
-/

namespace Formula

namespace Numeral

/-- How far the first digit that is not zero stands in front of the point. -/
def leading (n : Numeral) : Int :=
  ((n.whole ++ n.fraction).dropWhile (· == '0')).length + n.power

/-- A place of the first digit that is beyond every format. -/
def beyond : Int := 400

/-- The nearest number of a format, given how it makes one from a coefficient and a power
of ten. -/
def nearest {α : Type} (zero infinite : α) (ofScientific : Nat → Bool → Nat → α)
    (n : Numeral) : α :=
  if n.coefficient = 0 then zero
  else if beyond < n.leading then infinite
  else if n.leading < -beyond then zero
  else ofScientific n.coefficient (n.power < 0) n.power.natAbs

/-- The nearest 64-bit number. -/
def toFloat : Numeral → Float := nearest 0 (1 / 0) OfScientific.ofScientific

/-- The nearest 32-bit number. -/
def toFloat32 : Numeral → Float32 := nearest 0 (1 / 0) OfScientific.ofScientific

end Numeral

end Formula

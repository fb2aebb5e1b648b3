import Formula.Numeral

/-!
# Positional notation

A number is written with all its digits and a point, never with an exponent. The digits
are given as one whole number together with how many of them stand after the point.
-/

namespace Formula.Text

-- Powers are those of the core library, whatever else is in scope.
attribute [local instance (20000)] instPowNat

/-- `n` zeros. -/
def zeros (n : Nat) : String := String.ofList (List.replicate n '0')

/-- The number `coefficient / 10 ^ places`, with that many places. -/
def positional (coefficient places : Nat) : String :=
  if places = 0 then toString coefficient
  else
    let fraction := toString (coefficient % 10 ^ places)
    toString (coefficient / 10 ^ places) ++ "." ++ zeros (places - fraction.length) ++ fraction

/-- The same number without zeros at the end of its places. -/
def trim (coefficient : Nat) : Nat → Nat × Nat
  | 0 => (coefficient, 0)
  | places + 1 =>
    if coefficient % 10 = 0 then trim (coefficient / 10) places else (coefficient, places + 1)

/-- The number `coefficient * 10 ^ exponent`, with as few places as it needs. -/
def scientific (coefficient : Nat) (exponent : Int) : String :=
  if 0 ≤ exponent then toString coefficient ++ zeros exponent.toNat
  else
    let (c, places) := trim coefficient (-exponent).toNat
    positional c places

end Formula.Text

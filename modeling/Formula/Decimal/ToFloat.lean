import Formula.Decimal.Basic

/-!
# Decimals as binary floating point numbers

The whole part and the fraction are converted apart and added, and the sum is then rounded
to the places of the decimal, which takes away what the addition brought in. The conversion may
say that there is no such number, but it comes to one for every decimal.
-/

namespace Formula.Decimal

-- Powers are those of the core library, whatever else is in scope.
attribute [local instance (20000)] instPowNat

/-- `a ^ n` by repeated squaring, the factors multiplied up from the smallest. -/
def powFloat (r a : Float) : Nat → Float
  | 0 => r
  | n + 1 =>
    let r := if (n + 1) % 2 = 1 then r * a else r
    let half := (n + 1) / 2
    if half = 0 then r else powFloat r (a * a) half
  termination_by n => n
  decreasing_by omega

/-- The 64-bit number near the decimal. -/
def toFloat? (d : Decimal) : Option Float :=
  if d.scale = 0 then some (Float.ofInt d.signed)
  else
    let unit := 10 ^ d.scale
    let whole := Float.ofNat (d.coefficient / unit)
    let fraction := Float.ofNat (d.coefficient % unit) / Float.ofNat unit
    let magnitude :=
      if fraction == 0 then whole
      else
        let power := powFloat 1 10 d.scale
        ((whole + fraction) * power).round / power
    some (if d.negative then -magnitude else magnitude)

end Formula.Decimal

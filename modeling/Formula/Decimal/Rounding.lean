import Formula.Decimal.Basic

/-!
# Rounding a coefficient

A result with too many digits gives up places at its end until its coefficient fits. The
digits given up are rounded once, to the nearest coefficient and in the middle to the even
one. As few places are given up as will do.
-/

namespace Formula.Decimal

-- Powers are those of the core library, whatever else is in scope.
attribute [local instance (20000)] instPowNat

/-- The whole number nearest to `n / d`, and in the middle the even one. -/
def roundHalfEven (n d : Nat) : Nat :=
  let q := n / d
  let r := 2 * (n % d)
  if d < r ∨ d = r ∧ q % 2 = 1 then q + 1 else q

/-- The coefficient after `k` of `scale` places are given up, if it fits. -/
def giveUp? (coefficient scale k : Nat) : Option (Nat × Nat) :=
  let q := roundHalfEven coefficient (10 ^ k)
  if q < bound then some (q, scale - k) else none

/-- The coefficient and scale that stand for `coefficient / 10 ^ scale` with the fewest
places given up. There is none when giving up every place is not enough. -/
def fit? (coefficient scale : Nat) : Option (Nat × Nat) :=
  ((List.range (scale + 1)).drop (scale - maxScale)).findSome? (giveUp? coefficient scale)

/-- The decimal nearest to `± coefficient / 10 ^ scale`. It keeps the sign when nothing is
left but zero. -/
def round? (negative : Bool) (coefficient scale : Nat) : Option Decimal :=
  (fit? coefficient scale).bind fun p => ofParts? negative p.1 p.2

end Formula.Decimal

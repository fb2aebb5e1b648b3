import Formula.Text.Positional

/-!
# The shortest text of a binary floating point number

A finite number `m * 2 ^ e` is written with the fewest digits that read back as the same
number, and of those with the nearest to it. The numbers that read back as it form an
interval, reaching half way to its neighbours. The lower neighbour of a power of two is
nearer than the upper one. An end of the interval belongs to it when `m` is even.

On the grid of decimals with `n` digits only the two neighbours of the number can be the
nearest in the interval, so `n` is tried from one upward until one of them is in it.
-/

namespace Formula.Binary

-- Powers are those of the core library, whatever else is in scope.
attribute [local instance (20000)] instPowNat

open Float.Model (UnpackedFloat Format)

/-- The numbers that read back as `value / unit` : those between `low` and `high`, with
the ends if `closed`, all in the same unit. -/
structure Interval where
  low : Nat
  value : Nat
  high : Nat
  unit : Nat
  closed : Bool

/-- The interval of `m * 2 ^ e` in a format with `bits` bits of mantissa. -/
def Interval.of (bits m : Nat) (e : Int) : Interval :=
  let up := 2 ^ (e - 2).toNat
  let below := if m = 2 ^ (bits - 1) then 1 else 2
  { low := (4 * m - below) * up
    value := 4 * m * up
    high := (4 * m + 2) * up
    unit := 2 ^ (2 - e).toNat
    closed := m % 2 == 0 }

/-- The same numbers in a unit `10 ^ exponent` times as large. -/
def Interval.scale (i : Interval) (exponent : Int) : Interval :=
  let up := 10 ^ (-exponent).toNat
  { i with
    low := i.low * up
    value := i.value * up
    high := i.high * up
    unit := i.unit * 10 ^ exponent.toNat }

/-- Whether `n` units are above the lower end. -/
def Interval.reachesDown (i : Interval) (n : Nat) : Bool :=
  i.low < n * i.unit || i.closed && i.low == n * i.unit

/-- Whether `n` units are below the upper end. -/
def Interval.reachesUp (i : Interval) (n : Nat) : Bool :=
  n * i.unit < i.high || i.closed && i.high == n * i.unit

/-- The whole number of units nearest to the value that is in the interval, if there is
one. From the middle of two the upper one is taken. -/
def Interval.nearest? (i : Interval) : Option Nat :=
  let n := i.value / i.unit
  let below := i.reachesDown n
  let above := i.reachesUp (n + 1)
  if below && (!above || 2 * (i.value % i.unit) < i.unit) then some n
  else if above then some (n + 1)
  else none

/-- How many digits a whole number has. -/
def digitCount (n : Nat) : Nat := (toString n).length

/-- The position of the point in front of which the first digit of the value stands : the
value is below `10 ^ leading` and not below a tenth of that. -/
def Interval.leading (i : Interval) : Int :=
  if i.unit ≤ i.value then digitCount (i.value / i.unit)
  else 1 - (digitCount ((i.unit - 1) / i.value) : Int)

/-- The coefficient and the exponent of ten of the shortest decimal in the interval. No
format here needs more than 17 digits. -/
def Interval.shortest (i : Interval) : Nat × Int :=
  let top := i.leading
  let hit := (List.range 17).findSome? fun (n : Nat) =>
    let exponent := top - (n + 1)
    (i.scale exponent).nearest?.map fun c => (c, exponent)
  hit.getD (0, 0)

/-- The text of an unpacked number of a format. -/
def text (format : Format) : UnpackedFloat → String
  | .notANumber => "NaN"
  | .infinity s => sign s ++ "inf"
  | .zero s => sign s ++ "0"
  | .finite s m e _ =>
    let (c, exponent) := (Interval.of format.mantissaBits m e).shortest
    sign s ++ Text.scientific c exponent
where
  /-- The sign in front of a number. -/
  sign : UnpackedFloat.Sign → String
    | .positive => ""
    | .negative => "-"

/-- The text of a 64-bit number. -/
def text64 (x : Float) : String := text .binary64 x.toModel.unpack

/-- The text of a 32-bit number. -/
def text32 (x : Float32) : String := text .binary32 x.toModel.unpack

end Formula.Binary

import Formula.Numeral

/-!
# Remainders of binary floating point numbers

The remainder of `x / y`, with the quotient rounded toward zero, is a number of the format
itself : in units of the smaller of the two last places it is a remainder of whole numbers,
and it is below `y`. So it is computed exactly. It has the sign of `x`, also when it is zero.
-/

namespace Formula.Binary

-- Powers are those of the core library, whatever else is in scope.
attribute [local instance (20000)] instPowNat

open Float.Model (UnpackedFloat Format)

/-- The remainder of two unpacked numbers of a format. -/
def remainder (format : Format) : UnpackedFloat → UnpackedFloat → UnpackedFloat
  | .notANumber, _ => .notANumber
  | _, .notANumber => .notANumber
  | .infinity _, _ => .notANumber
  | _, .zero _ => .notANumber
  | x, .infinity _ => x
  | .zero s, _ => .zero s
  | .finite s m e _, .finite _ n f _ =>
    let unit := min e f
    let r := m * 2 ^ (e - unit).toNat % (n * 2 ^ (f - unit).toNat)
    if r = 0 then .zero s else .round format s r unit

/-- The remainder of 64-bit numbers. -/
def rem64 (x y : Float) : Float :=
  .ofModel (.pack (remainder .binary64 x.toModel.unpack y.toModel.unpack))

/-- The remainder of 32-bit numbers. -/
def rem32 (x y : Float32) : Float32 :=
  .ofModel (.pack (remainder .binary32 x.toModel.unpack y.toModel.unpack))

end Formula.Binary

import Formula.Value.Basic

/-!
# Promotion

Two numbers of different kinds meet in one of the two kinds. A whole number goes to the
wider of two whole kinds, and to the kind of any fractional number. A 32-bit floating point
number goes to 64 bits. A decimal meets no binary floating point number : that would lose
digits without being asked to.
-/

namespace Formula

namespace Kind

/-- The kind in which two numbers meet, if there is one. -/
def meet? : Kind → Kind → Option Kind
  | integer, integer => some integer
  | integer, long | long, integer | long, long => some long
  | float, float => some float
  | float, double | double, float | double, double => some double
  | decimal, decimal => some decimal
  | integer, k | long, k => if k.isFractional then some k else none
  | k, integer | k, long => if k.isFractional then some k else none
  | _, _ => none

/-- The kind of the result of an operation on two numbers. -/
def promote (a b : Kind) : Except Fault Kind :=
  if !a.isNumeric || !b.isNumeric then .error (.kind (.notNumericPair a b))
  else
    match meet? a b with
    | some k => .ok k
    | none => .error (.kind (.mixed a b))

end Kind

/-- Two numbers that have met in a kind. -/
inductive Pair where
  | integers (m n : Int32)
  | longs (m n : Int64)
  | floats (x y : Float32)
  | doubles (x y : Float)
  | decimals (d e : Decimal)

namespace Value

/-- A whole number, and zero for any other value. -/
def whole : Value → Int64
  | integer n => n.toInt64
  | long n => n
  | _ => 0

/-- A whole number or a 32-bit floating point number as the latter. -/
def toFloat32 : Value → Float32
  | float x => x
  | v => Float32.ofInt v.whole.toInt

/-- A number other than a decimal as a 64-bit floating point number. -/
def toFloat : Value → Float
  | float x => x.toFloat
  | double x => x
  | v => Float.ofInt v.whole.toInt

/-- A whole number or a decimal as the latter. -/
def toDecimal : Value → Decimal
  | decimal d => d
  | v => Decimal.ofInt64 v.whole

/-- Two numbers, taken to the kind in which they meet. -/
def align (a b : Value) : Except Fault Pair :=
  match Kind.promote a.kind b.kind with
  | .error e => .error e
  | .ok .integer =>
    match a, b with
    | integer m, integer n => .ok (.integers m n)
    | _, _ => .ok (.longs a.whole b.whole)
  | .ok .float => .ok (.floats a.toFloat32 b.toFloat32)
  | .ok .double => .ok (.doubles a.toFloat b.toFloat)
  | .ok .decimal => .ok (.decimals a.toDecimal b.toDecimal)
  | .ok _ => .ok (.longs a.whole b.whole)

/-- A number taken to a kind that it meets in. -/
def convert (v : Value) (target : Kind) : Except Fault Value :=
  if v.kind = target then .ok v
  else
    match Kind.promote v.kind target with
    | .error e => .error e
    | .ok k =>
      if k = target then
        match target with
        | .long => .ok (long v.whole)
        | .float => .ok (float v.toFloat32)
        | .double => .ok (double v.toFloat)
        | .decimal => .ok (decimal v.toDecimal)
        | _ => .ok v
      else .error (.kind (.inconvertible v.kind target))

end Value

end Formula

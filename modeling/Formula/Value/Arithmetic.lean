import Formula.Binary.Remainder
import Formula.Decimal.Arithmetic
import Formula.Decimal.Division
import Formula.Decimal.Remainder
import Formula.Value.Promotion

/-!
# Arithmetic on values

An operation on whole numbers is exact or a fault : a result that does not fit its kind is
never wrapped. Floating point operations are those of IEEE 754 and never fail, and decimals
have a fault for a result that is too large. Division by zero is a fault for the exact
kinds only.
-/

namespace Formula

-- Powers are those of the core library, whatever else is in scope.
attribute [local instance (20000)] instPowNat

/-- The whole number of 32 bits, if it fits. -/
def int32? (n : Int) : Option Int32 :=
  if -2 ^ (31 : Nat) ≤ n ∧ n < 2 ^ (31 : Nat) then some (Int32.ofInt n) else none

/-- The whole number of 64 bits, if it fits. -/
def int64? (n : Int) : Option Int64 :=
  if -2 ^ (63 : Nat) ≤ n ∧ n < 2 ^ (63 : Nat) then some (Int64.ofInt n) else none

namespace ArithOp

/-- Whether the operation divides. -/
def divides : ArithOp → Bool
  | div | rem => true
  | _ => false

/-- The operation on whole numbers. Division rounds toward zero, and the remainder has the
sign of the dividend. -/
def onInt : ArithOp → Int → Int → Int
  | add, m, n => m + n
  | sub, m, n => m - n
  | mul, m, n => m * n
  | div, m, n => Int.tdiv m n
  | rem, m, n => Int.tmod m n

/-- The operation on whole numbers of a width, given how a number fits it. A remainder is
refused where its quotient does not fit. -/
def onWhole {α : Type} (fit? : Int → Option α) (op : ArithOp) (m n : Int) : Option α :=
  match op with
  | rem => (fit? (div.onInt m n)).bind fun _ => fit? (rem.onInt m n)
  | op => fit? (op.onInt m n)

/-- The operation on 32-bit floating point numbers. -/
def onFloat32 : ArithOp → Float32 → Float32 → Float32
  | add, x, y => x + y
  | sub, x, y => x - y
  | mul, x, y => x * y
  | div, x, y => x / y
  | rem, x, y => Binary.rem32 x y

/-- The operation on 64-bit floating point numbers. -/
def onFloat : ArithOp → Float → Float → Float
  | add, x, y => x + y
  | sub, x, y => x - y
  | mul, x, y => x * y
  | div, x, y => x / y
  | rem, x, y => Binary.rem64 x y

/-- The operation on decimals. -/
def onDecimal? : ArithOp → Decimal → Decimal → Option Decimal
  | add, d, e => d.add? e
  | sub, d, e => d.sub? e
  | mul, d, e => d.mul? e
  | div, d, e => d.div? e
  | rem, d, e => d.rem? e

/-- The operation on an exact kind, with its two faults. -/
def checked {α : Type} (op : ArithOp) (kind : Kind) (divisorIsZero : Bool)
    (result : Option α) : Except Fault α :=
  if op.divides && divisorIsZero then .error (.runtime (.divisionByZero op))
  else
    match result with
    | some r => .ok r
    | none => .error (.runtime (.overflow kind op))

/-- The operation on two numbers that have met. -/
def onPair (op : ArithOp) : Pair → Except Fault Value
  | .integers m n =>
    (op.checked .integer (n == 0) (op.onWhole int32? m.toInt n.toInt)).map .integer
  | .longs m n =>
    (op.checked .long (n == 0) (op.onWhole int64? m.toInt n.toInt)).map .long
  | .floats x y => .ok (.float (op.onFloat32 x y))
  | .doubles x y => .ok (.double (op.onFloat x y))
  | .decimals d e => (op.checked .decimal e.isZero (op.onDecimal? d e)).map .decimal

end ArithOp

namespace Value

/-- The operation on two values. -/
def arith (op : ArithOp) (a b : Value) : Except Fault Value :=
  if !a.isNumeric || !b.isNumeric then .error (.kind (.arithOperands op a.kind b.kind))
  else
    match align a b with
    | .error e => .error e
    | .ok p => op.onPair p

/-- A whole number of the kind, or the fault of a sign that does not fit. -/
def signed {α : Type} (kind : Kind) : Option α → Except Fault α
  | some n => .ok n
  | none => .error (.runtime (.signOverflow kind))

/-- The number with the other sign. -/
def negate : Value → Except Fault Value
  | integer n => (signed .integer (int32? (-n.toInt))).map integer
  | long n => (signed .long (int64? (-n.toInt))).map long
  | float x => .ok (float (-x))
  | double x => .ok (double (-x))
  | decimal d => .ok (decimal d.neg)
  | v => .error (.kind (.signOperand .minus v.kind))

/-- The number without its sign. -/
def abs : Value → Except Fault Value
  | integer n => if n.toInt < 0 then negate (integer n) else .ok (integer n)
  | long n => if n.toInt < 0 then negate (long n) else .ok (long n)
  | float x => .ok (float x.abs)
  | double x => .ok (double x.abs)
  | decimal d => .ok (decimal d.abs)
  | v => .error (.kind (.absOperand v.kind))

end Value

end Formula

import Formula.Binary.Shortest
import Formula.Decimal.ToFloat
import Formula.Fault

/-!
# Values

A value is of one of eight kinds and carries what that kind calls for. Equality of values
is that of the kinds : two decimals are equal when their numbers are, whatever their scale,
and two floating point numbers as IEEE 754 has it.
-/

namespace Formula

/-- What a formula computes with. -/
inductive Value where
  | integer (n : Int32)
  | long (n : Int64)
  | float (x : Float32)
  | double (x : Float)
  | decimal (d : Decimal)
  | boolean (b : Bool)
  | string (s : String)
  | null
  deriving DecidableEq

namespace Value

/-- The kind of a value. -/
def kind : Value → Kind
  | integer _ => .integer
  | long _ => .long
  | float _ => .float
  | double _ => .double
  | decimal _ => .decimal
  | boolean _ => .boolean
  | string _ => .string
  | null => .null

/-- Whether the value is a number. -/
def isNumeric (v : Value) : Bool := v.kind.isNumeric

/-- The value as text. -/
def text : Value → String
  | integer n => toString n.toInt
  | long n => toString n.toInt
  | float x => Binary.text32 x
  | double x => Binary.text64 x
  | decimal d => d.text
  | boolean b => if b then "true" else "false"
  | string s => s
  | null => "null"

/-- The truth value, where `what` asks for one. -/
def asBool (what : String) : Value → Except Fault Bool
  | boolean b => .ok b
  | v => .error (.kind (.notBoolean what v.kind))

/-- The number as one of 64 bits. -/
def asDouble : Value → Except Fault Float
  | integer n => .ok (Float.ofInt n.toInt)
  | long n => .ok (Float.ofInt n.toInt)
  | float x => .ok x.toFloat
  | double x => .ok x
  | decimal d =>
    match d.toFloat? with
    | some x => .ok x
    | none => .error (.runtime (.notDouble d.text))
  | v => .error (.kind (.notNumeric v.kind))

/-- Equality of values of one kind. Values of two kinds are never equal. -/
def equal : Value → Value → Bool
  | integer m, integer n => m == n
  | long m, long n => m == n
  | float x, float y => x == y
  | double x, double y => x == y
  | decimal d, decimal e => d.cmp e == .eq
  | boolean b, boolean c => b == c
  | string s, string t => s == t
  | null, null => true
  | _, _ => false

end Value

end Formula

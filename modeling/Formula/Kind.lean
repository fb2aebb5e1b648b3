/-!
# Kinds

Every value has one of eight kinds. Five are numeric : the whole numbers `integer` and
`long`, and the fractional numbers `float`, `double` and `decimal`. A kind is what a
compiled expression can know about a value before there is one.
-/

namespace Formula

/-- What a value is, apart from which one it is. -/
inductive Kind where
  /-- A whole number of 32 bits. -/
  | integer
  /-- A whole number of 64 bits. -/
  | long
  /-- A binary floating point number of 32 bits. -/
  | float
  /-- A binary floating point number of 64 bits. -/
  | double
  /-- A decimal number of fixed point. -/
  | decimal
  /-- A truth value. -/
  | boolean
  /-- A text. -/
  | string
  /-- The absence of a value. -/
  | null
  deriving DecidableEq

namespace Kind

/-- The two kinds of whole numbers. -/
def isWhole : Kind → Bool
  | integer | long => true
  | _ => false

/-- The three kinds of numbers with a fraction. -/
def isFractional : Kind → Bool
  | float | double | decimal => true
  | _ => false

/-- The five kinds of numbers. -/
def isNumeric (k : Kind) : Bool := k.isWhole || k.isFractional

/-- The name of the kind in messages. -/
def name : Kind → String
  | integer => "Integer"
  | long => "Long"
  | float => "Float"
  | double => "Double"
  | decimal => "Decimal"
  | boolean => "Boolean"
  | string => "String"
  | null => "Null"

end Kind

end Formula

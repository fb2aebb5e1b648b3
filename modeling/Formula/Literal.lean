import Formula.Binary.Reading
import Formula.Element.Basic
import Formula.Settings.Basic
import Formula.Token.Unescape
import Formula.Value.Arithmetic

/-!
# Literals

The settings decide of which kind the value of a number literal is. A number that does not
fit its kind is a fault of the text, found before anything is run.
-/

namespace Formula

namespace Token

/-- A fault of a literal that does not fit. -/
def overflow (t : Token) (cause : OverflowCause) : Fault := .overflow t.place cause

/-- The whole number that the token is written as. -/
def wholeNumber (t : Token) : Except Fault Nat :=
  let cs := t.lexeme.toList
  if cs.isEmpty || !cs.all Char.isDigit then .error (t.fault .malformedInteger)
  else .ok (digitsValue cs)

/-- The number that the token is written as. -/
def numeral (t : Token) : Except Fault Numeral :=
  match Numeral.ofChars? t.lexeme.toList with
  | some n => .ok n
  | none => .error (t.fault .malformedFloat)

/-- The whole number of 32 or 64 bits. -/
def integerValue (t : Token) (precision : IntPrecision) : Except Fault Value :=
  match t.wholeNumber with
  | .error e => .error e
  | .ok n =>
    match precision with
    | .i32 =>
      match int32? n with
      | some n => .ok (.integer n)
      | none => .error (t.overflow (.integer 32))
    | .i64 =>
      match int64? n with
      | some n => .ok (.long n)
      | none => .error (t.overflow (.integer 64))

/-- The decimal. -/
def decimalValue (t : Token) (n : Numeral) : Except Fault Value :=
  match Decimal.ofNumeral false n with
  | .ok d => .ok (.decimal d)
  | .error .outOfRange => .error (t.overflow .decimal)
  | .error reason => .error (t.fault (.malformedDecimal reason))

/-- The number with a fraction. -/
def floatValue (t : Token) (precision : FloatPrecision) : Except Fault Value :=
  match t.numeral with
  | .error e => .error e
  | .ok n =>
    match precision with
    | .f32 =>
      let x := n.toFloat32
      if x.isInf then .error (t.overflow (.float 32)) else .ok (.float x)
    | .f64 =>
      let x := n.toFloat
      if x.isInf then .error (t.overflow (.float 64)) else .ok (.double x)
    | .decimal => t.decimalValue n

/-- The value of a literal. -/
def literalValue (t : Token) (settings : Settings) : LiteralKind → Except Fault Value
  | .integer => t.integerValue settings.intPrecision
  | .float => t.floatValue settings.floatPrecision
  | .string => t.unescape.map .string
  | .boolean => .ok (.boolean (t.lexeme == "true"))
  | .null => .ok .null

end Token

end Formula

/-!
# Numerals

A numeral is a number as it is written : digits before the point, digits after it, and
possibly an exponent of ten. `Numeral.ofChars?` reads one and keeps the digits as they
are, since the kind of number that is wanted decides what becomes of them.
-/

namespace Formula

/-- The digit that a character stands for. -/
def digitValue (c : Char) : Nat := c.toNat - '0'.toNat

/-- The whole number that a run of digits stands for. -/
def digitsValue (cs : List Char) : Nat :=
  cs.foldl (fun n c => 10 * n + digitValue c) 0

/-- A number as it is written. -/
structure Numeral where
  /-- The digits before the point. -/
  whole : List Char
  /-- The digits after the point. -/
  fraction : List Char
  /-- Whether the exponent is negative, and its digits. -/
  exponent : Option (Bool × List Char)
  deriving DecidableEq

namespace Numeral

/-- The sign and the digits of an exponent, after its letter. -/
def exponentOfChars? (cs : List Char) : Option (Bool × List Char) :=
  let (negative, digits) :=
    match cs with
    | '-' :: ds => (true, ds)
    | '+' :: ds => (false, ds)
    | ds => (false, ds)
  if !digits.isEmpty && digits.all Char.isDigit then some (negative, digits) else none

/-- The numeral written by the characters : digits on at least one side of the point, and
an exponent after the letter `e` if there is that letter. -/
def ofChars? (cs : List Char) : Option Numeral :=
  let (whole, rest) := cs.span Char.isDigit
  let (fraction, rest) :=
    match rest with
    | '.' :: ds => ds.span Char.isDigit
    | ds => ([], ds)
  if whole.isEmpty && fraction.isEmpty then none
  else
    match rest with
    | [] => some ⟨whole, fraction, none⟩
    | c :: ds =>
      if c == 'e' || c == 'E' then
        (exponentOfChars? ds).map fun e => ⟨whole, fraction, some e⟩
      else none

/-- All the digits, read as one whole number. -/
def coefficient (n : Numeral) : Nat := digitsValue (n.whole ++ n.fraction)

/-- The power of ten that the coefficient is multiplied by. -/
def power (n : Numeral) : Int :=
  let written : Int :=
    match n.exponent with
    | none => 0
    | some (negative, ds) => if negative then -(digitsValue ds : Int) else digitsValue ds
  written - n.fraction.length

end Numeral

end Formula

import Formula.Decimal.Basic
import Formula.Numeral

/-!
# Reading decimals

The digits of a numeral are taken one by one as long as the coefficient has room for them.
A digit before the point that finds no room is an error. The first one after the point that
finds none rounds the digits before it, upward from five, and the rest are not looked at. An
exponent then moves the point.

This follows the decimal library as far as its answers are known. It takes for granted that the
library adds a negative exponent to the places that are there without starting over at 32 bits, so
that the sum has too many places wherever it is that large.
-/

namespace Formula.Decimal

-- Powers are those of the core library, whatever else is in scope.
attribute [local instance (20000)] instPowNat

/-- Why a numeral does not stand for a decimal. -/
inductive Unreadable where
  /-- The digits before the point do not fit. -/
  | tooManyDigits
  /-- The digits fit until the last of them is rounded. -/
  | roundedTooLarge
  /-- The exponent does not fit 32 bits. -/
  | exponentTooLarge
  /-- The number is too large, or has too many places. -/
  | outOfRange
  deriving DecidableEq

/-- The reason in words. -/
def Unreadable.message : Unreadable → String
  | tooManyDigits => "Invalid decimal: overflow from too many digits"
  | roundedTooLarge => "Invalid decimal: overflow from mantissa after rounding"
  | exponentTooLarge => "Failed to parse"
  | outOfRange => "Number out of range"

/-- Takes the digits before the point. -/
def takeWhole (coefficient : Nat) : List Char → Except Unreadable Nat
  | [] => .ok coefficient
  | c :: cs =>
    let next := coefficient * 10 + digitValue c
    if next < bound then takeWhole next cs else .error .tooManyDigits

/-- Rounds at a digit that finds no room. -/
def roundAt (coefficient scale digit : Nat) : Except Unreadable (Nat × Nat) :=
  if digit < 5 then .ok (coefficient, scale)
  else if coefficient + 1 < bound then .ok (coefficient + 1, scale)
  else if scale = 0 then .error .roundedTooLarge
  else .ok ((coefficient + 5) / 10, scale - 1)

/-- Takes the digits after the point. -/
def takeFraction (coefficient scale : Nat) : List Char → Except Unreadable (Nat × Nat)
  | [] => .ok (coefficient, scale)
  | c :: cs =>
    let next := coefficient * 10 + digitValue c
    if scale < maxScale ∧ next < bound then takeFraction next (scale + 1) cs
    else roundAt coefficient scale (digitValue c)

/-- Moves the point by an exponent. -/
def movePoint (coefficient scale : Nat) (negative : Bool) (exponent : Nat) :
    Except Unreadable (Nat × Nat) :=
  if 2 ^ (32 : Nat) ≤ exponent then .error .exponentTooLarge
  else if negative then .ok (coefficient, scale + exponent)
  else if exponent ≤ scale then .ok (coefficient, scale - exponent)
  else if maxScale < exponent then .error .outOfRange
  else .ok (coefficient * 10 ^ (exponent - scale), 0)

/-- The decimal that a numeral stands for. -/
def ofNumeral (negative : Bool) (n : Numeral) : Except Unreadable Decimal := do
  let whole ← takeWhole 0 n.whole
  let (coefficient, scale) ← takeFraction whole 0 n.fraction
  let (coefficient, scale) ←
    match n.exponent with
    | none => .ok (coefficient, scale)
    | some (below, digits) => movePoint coefficient scale below (digitsValue digits)
  match make? negative coefficient scale with
  | some d => .ok d
  | none => .error .outOfRange

/-- The decimal that a text stands for : a sign if there is one, digits, and places. -/
def ofText? (s : String) : Option Decimal :=
  let (negative, digits) :=
    match s.toList with
    | '-' :: ds => (true, ds)
    | '+' :: ds => (false, ds)
    | ds => (false, ds)
  match Numeral.ofChars? digits with
  | some ⟨whole, fraction, none⟩ => (ofNumeral negative ⟨whole, fraction, none⟩).toOption
  | _ => none

end Formula.Decimal

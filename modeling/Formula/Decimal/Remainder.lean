import Formula.Decimal.Basic

/-!
# Remainders of decimals

The remainder has the larger scale of the operands. A dividend below the divisor is its own
remainder, as it is, and a remainder that starts from zero or from equal magnitudes is the
zero with no places.

A divisor of up to 64 bits leaves the exact remainder. A longer one has three words of 32
bits, and is divided by word by word. Both numbers are shifted first so that the divisor
fills its words, and then the dividend is taken in from its leading word on. In each step a
digit of one word is estimated from the leading words of what remains and of the divisor.
Where these are the same word the digit would have to be longer than a word. Then what
remains loses its leading word, and the remainder is that of a smaller number.
-/

namespace Formula.Decimal

-- Powers are those of the core library, whatever else is in scope.
attribute [local instance (20000)] instPowNat

/-- What remains after one more word of the dividend is taken in. -/
def takeWord (divisor word rest : Nat) : Nat :=
  let taken := rest * 2 ^ (32 : Nat) + word
  if taken / bound < divisor / 2 ^ (64 : Nat) then taken % divisor else taken % bound % divisor

/-- The remainder by a divisor of three words. The shifted dividend has seven words at
most. -/
def longRemainder (m n : Nat) : Nat :=
  let shift := 95 - n.log2
  let dividend := m * 2 ^ shift
  let rest := (List.range 7).foldr
    (fun i rest => takeWord (n * 2 ^ shift) (dividend / 2 ^ (32 * i) % 2 ^ (32 : Nat)) rest) 0
  rest / 2 ^ shift

/-- The remainder of two coefficients. -/
def remainder (m n : Nat) : Nat := if n < 2 ^ (64 : Nat) then m % n else longRemainder m n

/-- The remainder of a division that rounds toward zero, with the sign of `a`. The divisor
is not zero. -/
def rem? (a b : Decimal) : Option Decimal :=
  let scale := max a.scale b.scale
  let m := (a.signedAt scale).natAbs
  let n := (b.signedAt scale).natAbs
  if a.isZero || m == n then some zero
  else if m < n then some a
  else make? a.negative (remainder m n) scale

end Formula.Decimal

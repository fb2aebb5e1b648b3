import Formula.Decimal.Rounding

/-!
# Quotients of decimals

A quotient starts as the whole part at the difference of the scales and is drawn out by up
to nine places at a time, as many as its coefficient has room for, until nothing remains or
there is no room. What still remains then rounds the last place, to the even one in the
middle. A quotient that was drawn out may have more places than it needs, and sheds zeros
at its end : eight at a time as long as the low 32 bits of its coefficient are zero, then
four, two and one.
-/

namespace Formula.Decimal

-- Powers are those of the core library, whatever else is in scope.
attribute [local instance (20000)] instPowNat

/-- A quotient being drawn out : `quotient + remainder / divisor` at `scale` places, which
is negative while the quotient still lacks digits before the point. -/
structure Quotient where
  quotient : Nat
  remainder : Nat
  scale : Int

/-- The most places up to nine that a coefficient can be drawn out by, and still fit, and
not pass the largest scale. -/
def room (quotient : Nat) (scale : Int) : Nat :=
  let most := min 9 (maxScale - scale).toNat
  ((List.range (most + 1)).filter fun p => quotient * 10 ^ p < bound).length - 1

theorem room_le (quotient : Nat) (scale : Int) :
    room quotient scale ≤ (maxScale - scale).toNat := by
  have h := List.length_filter_le (fun p => decide (quotient * 10 ^ p < bound))
    (List.range (min 9 (maxScale - scale).toNat + 1))
  rw [List.length_range] at h
  simp only [room]
  omega

/-- The quotient rounded at its last place by what remains. One that grows out of its
bits by that gives up a place. -/
def settle? (q : Quotient) (divisor : Nat) : Option (Nat × Int) :=
  let up := divisor < 2 * q.remainder ∨ divisor = 2 * q.remainder ∧ q.quotient % 2 = 1
  let rounded := if up then q.quotient + 1 else q.quotient
  if rounded < bound then some (rounded, q.scale)
  else if q.scale < 1 then none
  else some (roundHalfEven rounded 10, q.scale - 1)

/-- The quotient drawn out until nothing remains or there is no room. -/
def drawOut? (divisor : Nat) (q : Quotient) : Option (Nat × Int) :=
  if q.remainder = 0 then
    if 0 ≤ q.scale then some (q.quotient, q.scale)
    else
      let shifted := q.quotient * 10 ^ (-q.scale).toNat
      if shifted < bound then some (shifted, 0) else none
  else
    let places := room q.quotient q.scale
    if places < 9 ∧ places + q.scale < 0 then none
    else if places = 0 then settle? q divisor
    else
      let drawn := q.remainder * 10 ^ places
      let whole := q.quotient * 10 ^ places + drawn / divisor
      let next : Quotient := ⟨whole, drawn % divisor, q.scale + places⟩
      if whole < bound then drawOut? divisor next
      else if next.scale < 1 then none
      else
        let spill := whole % 10 * divisor + next.remainder
        let tens := whole / 10
        let up := 10 * divisor < 2 * spill ∨ 10 * divisor = 2 * spill ∧ tens % 2 = 1
        some (if up then tens + 1 else tens, next.scale - 1)
  termination_by (maxScale - q.scale).toNat
  decreasing_by
    have := room_le q.quotient q.scale
    simp only [maxScale] at *
    omega

/-- Sheds `places` zeros, if the number of places allows it and they are zeros. -/
def shed (places : Nat) (p : Nat × Nat) : Nat × Nat :=
  if places ≤ p.2 ∧ p.1 % 10 ^ places = 0 then (p.1 / 10 ^ places, p.2 - places) else p

/-- Sheds eight zeros at a time, `n` times at most, while the low 32 bits are zero. -/
def shedEights : Nat → Nat × Nat → Nat × Nat
  | 0, p => p
  | n + 1, p =>
    if p.1 % 2 ^ (32 : Nat) = 0 ∧ 8 ≤ p.2 ∧ p.1 % 10 ^ (8 : Nat) = 0 then
      shedEights n (shed 8 p)
    else p

/-- Sheds the zeros that drawing out may have left at the end. -/
def shedZeros (p : Nat × Nat) : Nat × Nat :=
  shed 1 (shed 2 (shed 4 (shedEights 3 p)))

/-- The quotient. The divisor is not zero. -/
def div? (a b : Decimal) : Option Decimal :=
  if a.isZero then some zero
  else
    let start : Quotient :=
      ⟨a.coefficient / b.coefficient, a.coefficient % b.coefficient, (a.scale : Int) - b.scale⟩
    (drawOut? b.coefficient start).bind fun p =>
      let q := (p.1, p.2.toNat)
      let q := if start.remainder = 0 then q else shedZeros q
      make? (a.negative != b.negative) q.1 q.2

end Formula.Decimal

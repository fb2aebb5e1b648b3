import Formula.Proofs.Kinds

/-!
# Whole numbers are exact or refused

An operation on two whole numbers comes to the exact result, as a value of the wider of the two
kinds, whenever there is an exact result and it fits that kind, and to the fault of a run
otherwise (`IsExactly`). Division rounds toward zero and a remainder has the sign of the dividend,
which says all there is to say of them (`IsDivision`). What a width has to provide for this is
said once (`IsWidth`), and both widths do.

There is one exception : the least number by minus one leaves the remainder zero, but is refused,
since the quotient, which nobody has asked for, does not fit (`ArithOp.IsOutcome`).
-/

namespace Formula

-- Powers are those of the core library, whatever else is in scope.
attribute [local instance (20000)] instPowNat

/-! ## Exact results -/

/-- Division of `m` by `n` with a remainder : the quotient is rounded toward zero, so that the
remainder has the sign of `m`. -/
structure IsDivision (m n quotient remainder : Int) : Prop where
  eq : n * quotient + remainder = m
  lt : remainder.natAbs < n.natAbs
  nonneg : 0 ≤ m → 0 ≤ remainder
  nonpos : m ≤ 0 → remainder ≤ 0

theorem isDivision_iff {m n q r : Int} :
    IsDivision m n q r ↔ n ≠ 0 ∧ q = m.tdiv n ∧ r = m.tmod n := by
  constructor
  · intro h
    have hlt := h.lt
    have hn : n ≠ 0 := by omega
    have heq : r + n * q = m := by
      rw [Int.add_comm]
      exact h.eq
    obtain hm | hm := Int.le_total 0 m
    · have hr := h.nonneg hm
      obtain ⟨hq, hr⟩ := (Int.tdiv_tmod_unique hm hn).2 ⟨heq, hr, by omega⟩
      exact ⟨hn, hq.symm, hr.symm⟩
    · have hr := h.nonpos hm
      obtain ⟨hq, hr⟩ := (Int.tdiv_tmod_unique' hm hn).2 ⟨heq, by omega, hr⟩
      exact ⟨hn, hq.symm, hr.symm⟩
  · rintro ⟨hn, rfl, rfl⟩
    refine ⟨Int.mul_tdiv_add_tmod m n, ?_, Int.tmod_nonneg n, fun hm => ?_⟩
    · rw [Int.natAbs_tmod]
      exact Nat.mod_lt _ (by omega)
    · exact ((Int.tdiv_tmod_unique' hm hn).1 ⟨rfl, rfl⟩).2.2

/-- The number `r` is the exact result of the operation on `m` and `n`. There is none if the
operation divides and `n` is zero. -/
def ArithOp.IsExact : ArithOp → Int → Int → Int → Prop
  | add, m, n, r => r = m + n
  | sub, m, n, r => r = m - n
  | mul, m, n, r => r = m * n
  | div, m, n, r => ∃ remainder, IsDivision m n r remainder
  | rem, m, n, r => ∃ quotient, IsDivision m n quotient r

theorem ArithOp.isExact_iff {op : ArithOp} {m n r : Int} :
    op.IsExact m n r ↔ (op.divides = true → n ≠ 0) ∧ r = op.onInt m n := by
  cases op <;> simp [IsExact, divides, onInt, isDivision_iff]

/-! ## Kinds of whole numbers -/

namespace Kind

/-- A kind of whole numbers has those from the bound below zero to the bound, without it. -/
def bound : Kind → Int
  | integer => 2 ^ (31 : Nat)
  | long => 2 ^ (63 : Nat)
  | _ => 0

/-- Whether the kind has the number. -/
def Fits (k : Kind) (n : Int) : Prop := -k.bound ≤ n ∧ n < k.bound

/-- The kind of what comes of two whole numbers. -/
def wider : Kind → Kind → Kind
  | integer, integer => integer
  | _, _ => long

/-- The dividend and the divisor whose quotient is too large. -/
def IsExtreme (k : Kind) (m n : Int) : Prop := m = -k.bound ∧ n = -1

theorem Fits.tdiv_iff {k : Kind} {m : Int} (hm : k.Fits m) {n : Int} :
    k.Fits (m.tdiv n) ↔ ¬ k.IsExtreme m n := by
  have habs : (m.tdiv n).natAbs = m.natAbs / n.natAbs := Int.natAbs_tdiv m n
  unfold Fits IsExtreme at *
  obtain rfl | rfl | rfl | hn : n = 0 ∨ n = 1 ∨ n = -1 ∨ 2 ≤ n.natAbs := by omega
  · rw [Int.tdiv_zero]
    omega
  · rw [Int.tdiv_one]
    omega
  · rw [Int.tdiv_neg, Int.tdiv_one]
    omega
  -- any other divisor halves the dividend at least, so that its quotient is well inside the range
  · have : m.natAbs / n.natAbs ≤ m.natAbs / 2 := Nat.div_le_div_left hn Nat.two_pos
    omega

end Kind

namespace Value

/-- The whole number that the value is, and zero for any other value. -/
def number : Value → Int
  | integer n => n.toInt
  | long n => n.toInt
  | _ => 0

theorem toInt_whole (v : Value) : v.whole.toInt = v.number := by
  cases v with
  | integer n => exact Int32.toInt_toInt64 n
  | long n => rfl
  | float | double | decimal | boolean | string | null => rfl

theorem fits_number {v : Value} (h : v.kind.isWhole = true) : v.kind.Fits v.number := by
  cases v with
  | integer n => exact ⟨n.le_toInt, n.toInt_lt⟩
  | long n => exact ⟨n.le_toInt, n.toInt_lt⟩
  | float | double | decimal | boolean | string | null => cases h

end Value

/-! ## Outcomes -/

/-- The outcome is the number with `p`, as a value of the kind `k`, if there is one and it fits
the kind, and the fault of a run otherwise. -/
structure IsExactly (k : Kind) (p : Int → Prop) (r : Except Fault Value) : Prop where
  value : ∀ v, r = .ok v → v.kind = k ∧ p v.number
  ok_iff : (∃ v, r = .ok v) ↔ ∃ n, p n ∧ k.Fits n
  fault : ∀ e, r = .error e → ∃ cause, e = .runtime cause

namespace IsExactly

variable {k : Kind} {p : Int → Prop}

theorem of_value {v : Value} (h : v.kind.isWhole = true) (hp : p v.number) :
    IsExactly v.kind p (.ok v) where
  value := by
    rintro w ⟨⟩
    exact ⟨rfl, hp⟩
  ok_iff := iff_of_true ⟨v, rfl⟩ ⟨v.number, hp, v.fits_number h⟩
  fault := nofun

theorem of_fault {cause : RuntimeCause} (h : ∀ n, p n → ¬ k.Fits n) :
    IsExactly k p (.error (.runtime cause)) where
  value := nofun
  ok_iff := iff_of_false nofun fun ⟨n, hn, hfits⟩ => h n hn hfits
  fault := by
    rintro e ⟨⟩
    exact ⟨cause, rfl⟩

end IsExactly

/-- What takes a number to the width of the kind : a number that fits is there, as a value of the
kind, and others are not. -/
structure IsWidth {α : Type} (k : Kind) (fit? : Int → Option α) (toValue : α → Value) : Prop where
  isWhole : k.isWhole = true
  kind : ∀ a, (toValue a).kind = k
  fits : ∀ {n}, k.Fits n → ∃ a, fit? n = some a ∧ (toValue a).number = n
  misfits : ∀ {n}, ¬ k.Fits n → fit? n = none

theorem isWidth_integer : IsWidth .integer int32? .integer where
  isWhole := rfl
  kind _ := rfl
  fits h := ⟨_, if_pos h, Int32.toInt_ofInt_of_le h.1 h.2⟩
  misfits h := if_neg h

theorem isWidth_long : IsWidth .long int64? .long where
  isWhole := rfl
  kind _ := rfl
  fits h := ⟨_, if_pos h, Int64.toInt_ofInt_of_le h.1 h.2⟩
  misfits h := if_neg h

namespace IsWidth

variable {α : Type} {k : Kind} {fit? : Int → Option α} {toValue : α → Value}

/-- What takes the exact result to the width, or has a fault of its own, is exact. -/
theorem isExactly (hw : IsWidth k fit? toValue) {p : Int → Prop} {x : Int} (hp : ∀ n, p n ↔ n = x)
    {r : Except Fault α} (hok : ∀ a, fit? x = some a → r = .ok a)
    (hfault : fit? x = none → ∃ cause, r = .error (.runtime cause)) :
    IsExactly k p (r.map toValue) := by
  by_cases hfits : k.Fits x
  · obtain ⟨a, ha, hnumber⟩ := hw.fits hfits
    obtain rfl := hok a ha
    obtain rfl := hw.kind a
    exact .of_value hw.isWhole ((hp _).2 hnumber)
  · obtain ⟨cause, rfl⟩ := hfault (hw.misfits hfits)
    exact .of_fault fun n hn hn' => hfits ((hp n).1 hn ▸ hn')

theorem isExactly_signed (hw : IsWidth k fit? toValue) (x : Int) :
    IsExactly k (· = x) ((Value.signed k (fit? x)).map toValue) :=
  hw.isExactly (fun _ => .rfl) (fun a ha => by rw [ha]; rfl) fun hnone => ⟨_, by rw [hnone]; rfl⟩

end IsWidth

/-- The outcome of an operation on whole numbers that have met in the kind `k` : it is exact but
for the remainder whose quotient does not fit, which is refused. -/
structure ArithOp.IsOutcome (op : ArithOp) (k : Kind) (m n : Int) (r : Except Fault Value) :
    Prop where
  exact : ¬ (op = .rem ∧ k.IsExtreme m n) → IsExactly k (op.IsExact m n) r
  refused : op = .rem ∧ k.IsExtreme m n → r = .error (.runtime (.overflow k .rem))

namespace IsWidth

variable {α : Type} {k : Kind} {fit? : Int → Option α} {toValue : α → Value}

/-- That the quotient fits changes nothing but for the one that does not. -/
theorem onWhole_eq (hw : IsWidth k fit? toValue) {op : ArithOp} {m n : Int} (hm : k.Fits m)
    (hne : ¬ (op = .rem ∧ k.IsExtreme m n)) :
    op.onWhole fit? m n = fit? (op.onInt m n) := by
  cases op with
  | add | sub | mul | div => rfl
  | rem =>
    obtain ⟨q, hq, -⟩ := hw.fits (hm.tdiv_iff.2 fun hextreme => hne ⟨rfl, hextreme⟩)
    have hquotient : fit? (ArithOp.div.onInt m n) = some q := hq
    rw [ArithOp.onWhole, hquotient, Option.bind_some]

theorem isOutcome (hw : IsWidth k fit? toValue) (op : ArithOp) {m n : Int} (hm : k.Fits m)
    {zero : Bool} (hzero : zero = true ↔ n = 0) :
    op.IsOutcome k m n ((op.checked k zero (op.onWhole fit? m n)).map toValue) where
  exact hne := by
    unfold ArithOp.checked
    split
    case isTrue hdivides =>
      obtain ⟨hdivides, hz⟩ := Bool.and_eq_true_iff.1 hdivides
      exact .of_fault fun r hr => absurd (hzero.1 hz) ((ArithOp.isExact_iff.1 hr).1 hdivides)
    case isFalse hdivides =>
      have hn : op.divides = true → n ≠ 0 := fun hd h0 =>
        hdivides (Bool.and_eq_true_iff.2 ⟨hd, hzero.2 h0⟩)
      rw [hw.onWhole_eq hm hne]
      refine hw.isExactly (fun r => ArithOp.isExact_iff.trans (and_iff_right hn)) ?_ ?_
      · intro a ha
        rw [ha]
      · intro hnone
        exact ⟨_, by rw [hnone]⟩
  refused := by
    rintro ⟨rfl, hextreme⟩
    -- the remainder is never looked at : its quotient fails to fit before
    have hquotient : fit? (ArithOp.div.onInt m n) = none :=
      hw.misfits fun hfits => hm.tdiv_iff.1 hfits hextreme
    have hz : zero = false := by
      obtain ⟨-, rfl⟩ := hextreme
      exact Bool.eq_false_iff.2 fun hz => absurd (hzero.1 hz) (by decide)
    rw [ArithOp.onWhole, hquotient, hz]
    rfl

end IsWidth

/-! ## Operations -/

namespace ArithOp

theorem isOutcome_integers (op : ArithOp) (m n : Int32) :
    op.IsOutcome .integer m.toInt n.toInt (op.onPair (.integers m n)) := by
  refine isWidth_integer.isOutcome op ⟨m.le_toInt, m.toInt_lt⟩ ?_
  rw [beq_iff_eq, ← Int32.toInt_inj]
  rfl

theorem isOutcome_longs (op : ArithOp) (m n : Int64) :
    op.IsOutcome .long m.toInt n.toInt (op.onPair (.longs m n)) := by
  refine isWidth_long.isOutcome op ⟨m.le_toInt, m.toInt_lt⟩ ?_
  rw [beq_iff_eq, ← Int64.toInt_inj]
  rfl

end ArithOp

namespace Value

theorem isOutcome_arith (op : ArithOp) {a b : Value} (ha : a.kind.isWhole = true)
    (hb : b.kind.isWhole = true) :
    op.IsOutcome (a.kind.wider b.kind) a.number b.number (a.arith op b) := by
  have hlongs := op.isOutcome_longs a.whole b.whole
  rw [toInt_whole, toInt_whole] at hlongs
  cases a with
  | integer m =>
    cases b with
    | integer n => exact op.isOutcome_integers m n
    | long n => exact hlongs
    | float | double | decimal | boolean | string | null => cases hb
  | long m =>
    cases b with
    | integer | long => exact hlongs
    | float | double | decimal | boolean | string | null => cases hb
  | float | double | decimal | boolean | string | null => cases ha

theorem isExactly_negate {v : Value} (h : v.kind.isWhole = true) :
    IsExactly v.kind (· = -v.number) v.negate := by
  cases v with
  | integer n => exact isWidth_integer.isExactly_signed _
  | long n => exact isWidth_long.isExactly_signed _
  | float | double | decimal | boolean | string | null => cases h

theorem abs_eq {v : Value} (h : v.kind.isWhole = true) :
    v.abs = if v.number < 0 then v.negate else .ok v := by
  cases v with
  | integer n => rfl
  | long n => rfl
  | float | double | decimal | boolean | string | null => cases h

theorem isExactly_abs {v : Value} (h : v.kind.isWhole = true) :
    IsExactly v.kind (· = v.number.natAbs) v.abs := by
  rw [abs_eq h]
  split
  case isTrue hneg =>
    have habs : (v.number.natAbs : Int) = -v.number := by omega
    rw [habs]
    exact isExactly_negate h
  case isFalse hneg => exact .of_value h (by omega)

/-- Arithmetic on whole numbers is exact, and has a fault where the exact result does not fit,
but for the remainder of the least number by minus one. Signs are changed and left away
likewise, without an exception. -/
theorem whole_arithmetic (op : ArithOp) {a b : Value} (ha : a.kind.isWhole = true)
    (hb : b.kind.isWhole = true) :
    op.IsOutcome (a.kind.wider b.kind) a.number b.number (a.arith op b) ∧
      IsExactly a.kind (· = -a.number) a.negate ∧
      IsExactly a.kind (· = a.number.natAbs) a.abs :=
  ⟨isOutcome_arith op ha hb, isExactly_negate ha, isExactly_abs ha⟩

/-- The remainder has the sign of the dividend. -/
theorem whole_arithmetic_negative_dividend :
    (integer (-7)).kind.isWhole = true ∧ (long 3).kind.isWhole = true ∧
      IsExactly .long (ArithOp.rem.IsExact (-7) 3) ((integer (-7)).arith .rem (long 3)) ∧
      (integer (-7)).arith .rem (long 3) = .ok (long (-1)) := by
  have hne : ¬ (ArithOp.rem = .rem ∧ Kind.long.IsExtreme (-7) 3) := by
    unfold Kind.IsExtreme
    omega
  have ha : (integer (-7)).kind.isWhole = true := rfl
  have hb : (long 3).kind.isWhole = true := rfl
  exact ⟨ha, hb, (whole_arithmetic .rem ha hb).1.exact hne, rfl⟩

/-- The least number by minus one leaves zero, which fits, but is refused. -/
theorem whole_arithmetic_least :
    ArithOp.rem.IsExact (-2147483648) (-1) 0 ∧ Kind.integer.Fits 0 ∧
      (integer (-2147483648)).arith .rem (integer (-1)) =
        .error (.runtime (.overflow .integer .rem)) ∧
      ¬ IsExactly .integer (ArithOp.rem.IsExact (-2147483648) (-1))
        ((integer (-2147483648)).arith .rem (integer (-1))) := by
  have hexact : ArithOp.rem.IsExact (-2147483648) (-1) 0 :=
    ⟨2147483648, isDivision_iff.2 ⟨by decide, by decide, by decide⟩⟩
  have hfits : Kind.integer.Fits 0 := ⟨by decide, by decide⟩
  have hrefused : (integer (-2147483648)).arith .rem (integer (-1)) =
      .error (.runtime (.overflow .integer .rem)) := rfl
  refine ⟨hexact, hfits, hrefused, fun h => ?_⟩
  obtain ⟨v, hv⟩ := h.ok_iff.2 ⟨0, hexact, hfits⟩
  cases hrefused.symm.trans hv

end Value

end Formula

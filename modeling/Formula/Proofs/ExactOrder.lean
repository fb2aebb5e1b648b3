import Mathlib.Algebra.Order.Field.Basic
import Mathlib.Algebra.Order.Ring.Rat
import Mathlib.Tactic.FieldSimp
import Mathlib.Tactic.Ring
import Formula.Proofs.ByteOrder
import Formula.Proofs.WholeNumbers

/-!
# Exact comparison

Whole numbers and decimals are compared as the rational numbers that they are, in whatever kinds
they come, and texts as their bytes are, one after the other (`Value.compare_exactly`).

Each comparison takes two values to one `Ordering` and asks the operator about it. That the
ordering is the one of two keys (`Ordering.Compares`) is shown in the kind in which the values
meet, and carried to rational numbers and to bytes by strict monotony. What the laws of an order
then say of the operators does not depend on what the keys are (`ComparedBy.of_compares`).
-/

namespace Formula

-- Powers are those of the core library, whatever else is in scope.
attribute [local instance (20000)] instPowNat

/-! ## Operators as relations -/

namespace CompareOp

variable {α : Type} [LinearOrder α]

/-- The relation that the operator stands for. -/
def Relates : CompareOp → α → α → Prop
  | eq, a, b => a = b
  | ne, a, b => a ≠ b
  | lt, a, b => a < b
  | le, a, b => a ≤ b
  | gt, a, b => b < a
  | ge, a, b => b ≤ a

instance : (op : CompareOp) → (a b : α) → Decidable (op.Relates a b)
  | eq, a, b => inferInstanceAs (Decidable (a = b))
  | ne, a, b => inferInstanceAs (Decidable (a ≠ b))
  | lt, a, b => inferInstanceAs (Decidable (a < b))
  | le, a, b => inferInstanceAs (Decidable (a ≤ b))
  | gt, a, b => inferInstanceAs (Decidable (b < a))
  | ge, a, b => inferInstanceAs (Decidable (b ≤ a))

/-- The operator that holds where this one does not. -/
def opposite : CompareOp → CompareOp
  | eq => ne
  | ne => eq
  | lt => ge
  | le => gt
  | gt => le
  | ge => lt

/-- An operator holds of the order of two things exactly when they are so related. -/
theorem holds_eq_decide (op : CompareOp) {o : Ordering} {a b : α} (h : o.Compares a b) :
    op.holds o = decide (op.Relates a b) := by
  rw [Bool.eq_iff_iff, decide_eq_true_iff]
  cases op with
  | eq => simpa [holds, Relates] using h.eq_eq
  | ne => simpa [holds, Relates] using h.eq_eq.not
  | lt => simpa [holds, Relates] using h.eq_lt
  | le => simpa [holds, Relates] using h.ne_gt
  | gt => simpa [holds, Relates] using h.eq_gt
  | ge => simpa [holds, Relates] using h.ne_lt

theorem holds_opposite (op : CompareOp) (o : Ordering) : op.opposite.holds o = !op.holds o := by
  cases op <;> cases o <;> rfl

/-- Exactly one of `<`, `==` and `>` holds of an order. -/
theorem existsUnique_holds (o : Ordering) :
    ∃! op : CompareOp, op ∈ [lt, eq, gt] ∧ op.holds o = true := by
  have unique : ∀ op o, op ∈ [lt, eq, gt] → op.holds o = true →
      op = match o with | .lt => lt | .eq => eq | .gt => gt := by
    intro op o
    cases op <;> cases o <;> decide
  cases o with
  | lt => exact ⟨lt, by decide, fun op h => unique op .lt h.1 h.2⟩
  | eq => exact ⟨eq, by decide, fun op h => unique op .eq h.1 h.2⟩
  | gt => exact ⟨gt, by decide, fun op h => unique op .gt h.1 h.2⟩

theorem Relates.trans {op : CompareOp} (hop : op ≠ ne) {a b c : α} (hab : op.Relates a b)
    (hbc : op.Relates b c) : op.Relates a c := by
  cases op with
  | ne => contradiction
  | eq => exact Eq.trans hab hbc
  | lt => exact lt_trans hab hbc
  | le => exact le_trans hab hbc
  | gt => exact lt_trans hbc hab
  | ge => exact le_trans hbc hab

end CompareOp

/-! ## The laws of a comparison by keys -/

/-- Values are compared as their keys are, without a fault, and so by the laws of an order. -/
structure ComparedBy {ι α : Type} [LinearOrder α] (value : ι → Value) (key : ι → α) : Prop where
  compare_eq : ∀ op i j,
    (value i).compare op (value j) = .ok (decide (op.Relates (key i) (key j)))
  existsUnique : ∀ i j, ∃! op : CompareOp,
    op ∈ [.lt, .eq, .gt] ∧ (value i).compare op (value j) = .ok true
  trans : ∀ op : CompareOp, op ≠ .ne → ∀ i j k, (value i).compare op (value j) = .ok true →
    (value j).compare op (value k) = .ok true → (value i).compare op (value k) = .ok true
  opposite : ∀ op i j,
    (value i).compare op.opposite (value j) = ((value i).compare op (value j)).map not

namespace ComparedBy

variable {ι α : Type} [LinearOrder α] {value : ι → Value} {key : ι → α}

/-- The laws follow where the operators are asked about the order of the keys. -/
theorem of_compares
    (h : ∀ i j, ∃ o : Ordering, o.Compares (key i) (key j) ∧
      ∀ op, (value i).compare op (value j) = .ok (op.holds o)) : ComparedBy value key := by
  have compare_eq : ∀ op i j,
      (value i).compare op (value j) = .ok (decide (op.Relates (key i) (key j))) := by
    intro op i j
    obtain ⟨o, ho, hcompare⟩ := h i j
    rw [hcompare, op.holds_eq_decide ho]
  have compare_true : ∀ op i j,
      (value i).compare op (value j) = .ok true ↔ op.Relates (key i) (key j) := by
    intro op i j
    rw [compare_eq, Except.ok.injEq, decide_eq_true_iff]
  -- transitivity is about the keys, the other two laws hold of any `Ordering`
  refine ⟨compare_eq, fun i j => ?_, fun op hop i j k hij hjk => ?_, fun op i j => ?_⟩
  · obtain ⟨o, -, hcompare⟩ := h i j
    simpa only [hcompare, Except.ok.injEq] using CompareOp.existsUnique_holds o
  · rw [compare_true] at hij hjk ⊢
    exact hij.trans hop hjk
  · obtain ⟨o, -, hcompare⟩ := h i j
    rw [hcompare, hcompare, op.holds_opposite]
    rfl

end ComparedBy

/-! ## Decimals -/

namespace Decimal

/-- The number that the decimal stands for. -/
def rational (d : Decimal) : ℚ := d.signed / 10 ^ d.scale

theorem signedAt_div {d : Decimal} {scale : Nat} (h : d.scale ≤ scale) :
    (d.signedAt scale : ℚ) / 10 ^ scale = d.rational := by
  obtain ⟨more, rfl⟩ := Nat.exists_eq_add_of_le h
  rw [signedAt, rational]
  push_cast
  rw [Nat.add_sub_cancel_left, pow_add]
  field_simp

/-- Decimals are ordered as the numbers that they stand for, whatever their scales are. -/
theorem cmp_compares_rational (d e : Decimal) : (d.cmp e).Compares d.rational e.rational := by
  -- over the same power of ten, the coefficients are whole numbers in the same order
  have hmono : StrictMono fun n : ℤ => (n : ℚ) / 10 ^ max d.scale e.scale := fun m n h =>
    div_lt_div_of_pos_right (Int.cast_lt.2 h) (pow_pos rfl _)
  rw [← signedAt_div (Nat.le_max_left d.scale e.scale),
    ← signedAt_div (Nat.le_max_right d.scale e.scale)]
  exact hmono.compares.2 ((compare_iff _ _).1 rfl)

theorem rational_ofInt64 (n : Int64) : (ofInt64 n).rational = n.toInt := by
  have hsigned : (ofInt64 n).signed = n.toInt := by
    simp only [signed, ofInt64, decide_eq_true_eq]
    split_ifs <;> omega
  rw [rational, hsigned]
  simp [ofInt64]

end Decimal

/-! ## Values -/

/-- The kinds of numbers without rounding : whole numbers and decimals. -/
def Kind.isExact (k : Kind) : Bool := k.isWhole || k == .decimal

namespace Value

/-- The number that a value of an exact kind is, and zero for any other value. -/
def exact : Value → ℚ
  | decimal d => d.rational
  | v => v.number

theorem rational_toDecimal (v : Value) : v.toDecimal.rational = v.exact := by
  have hwhole (w : Value) : (Decimal.ofInt64 w.whole).rational = w.number := by
    rw [Decimal.rational_ofInt64, toInt_whole]
  cases v with
  | decimal d => rfl
  | integer | long | float | double | boolean | string | null => exact hwhole _

theorem exact_of_isWhole {v : Value} (h : v.kind.isWhole = true) : v.exact = v.number := by
  cases v <;> first | rfl | cases h

/-- Two whole numbers meet as whole numbers. -/
theorem compare_whole {a b : Value} (ha : a.kind.isWhole = true) (hb : b.kind.isWhole = true)
    (op : CompareOp) : a.compare op b = .ok (op.holds (Ord.compare a.number b.number)) := by
  rw [← toInt_whole, ← toInt_whole]
  cases a <;> cases ha <;> cases b <;> cases hb
  · rw [whole, whole, Int32.toInt_toInt64, Int32.toInt_toInt64]
    rfl
  all_goals rfl

/-- Two numbers of exact kinds that are not both whole numbers meet as decimals. -/
theorem compare_decimals {a b : Value} (ha : a.kind.isExact = true) (hb : b.kind.isExact = true)
    (h : ¬(a.kind.isWhole = true ∧ b.kind.isWhole = true)) (op : CompareOp) :
    a.compare op b = .ok (op.holds (a.toDecimal.cmp b.toDecimal)) := by
  cases a <;> cases ha <;> cases b <;> cases hb <;> first | rfl | exact absurd ⟨rfl, rfl⟩ h

/-- The order of two numbers of exact kinds decides what their comparison comes to. -/
theorem exists_compares {a b : Value} (ha : a.kind.isExact = true) (hb : b.kind.isExact = true) :
    ∃ o : Ordering, o.Compares a.exact b.exact ∧ ∀ op, a.compare op b = .ok (op.holds o) := by
  by_cases h : a.kind.isWhole = true ∧ b.kind.isWhole = true
  · refine ⟨Ord.compare a.number b.number, ?_, compare_whole h.1 h.2⟩
    rw [exact_of_isWhole h.1, exact_of_isWhole h.2]
    exact Int.cast_strictMono.compares.2 ((compare_iff _ _).1 rfl)
  · refine ⟨a.toDecimal.cmp b.toDecimal, ?_, compare_decimals ha hb h⟩
    rw [← rational_toDecimal, ← rational_toDecimal]
    exact Decimal.cmp_compares_rational _ _

/-- Whole numbers and decimals are compared as the rational numbers that they are, texts as their
bytes are, one after the other. -/
theorem compare_exactly :
    ComparedBy (fun v : {v : Value // v.kind.isExact = true} => v.1) (fun v => v.1.exact) ∧
      ComparedBy string bytes := by
  refine ⟨.of_compares fun a b => exists_compares a.2 b.2, .of_compares fun s t => ?_⟩
  exact ⟨stringOrder s t, stringOrder_compares_bytes s t, fun _ => rfl⟩

/-- A number above the largest of 32 bits by one in the last of eighteen places is between two
whole numbers of different widths. -/
theorem compare_exactly_across_kinds :
    (integer 2147483647).compare .lt
      (decimal ⟨false, 2147483647000000000000000001, 18, by decide, by decide⟩) = .ok true ∧
    (decimal ⟨false, 2147483647000000000000000001, 18, by decide, by decide⟩).compare .lt
      (long 2147483648) = .ok true ∧
    (integer 2147483647).compare .lt (long 2147483648) = .ok true := by
  have hbelow : (integer 2147483647).compare .lt
      (decimal ⟨false, 2147483647000000000000000001, 18, by decide, by decide⟩) = .ok true := rfl
  have habove : (decimal ⟨false, 2147483647000000000000000001, 18, by decide, by decide⟩).compare
      .lt (long 2147483648) = .ok true := rfl
  exact ⟨hbelow, habove, compare_exactly.1.trans .lt (by decide) ⟨_, rfl⟩ ⟨_, rfl⟩ ⟨_, rfl⟩
    hbelow habove⟩

end Value

end Formula

import Formula.Node.Execute
import Formula.Proofs.Evaluation
import Formula.Proofs.Results

/-!
# The kinds of what operations come to

What is known of kinds before a run is right about the run. Where two kinds meet, an
operation on two values of these kinds comes to a value of the kind in which they meet, or to
a fault that depends on the values (`Value.arith_spec`). Kinds that can be compared, signed
or used as truth values never fail to be (`Value.compare_spec`, `Node.applySign_spec`,
`Value.asBool_of_kind`). And the faults of operations on values are never of the sort that slots
have, or scopes that can only be read (`Fault.OfValues`).
-/

namespace Formula

/-- The fault of a slot that refuses a value. -/
def IsRefusal (e : Fault) : Prop := ∃ fixed produced, e = .kind (.changed fixed produced)

/-- The fault of a variable that cannot be bound while compiling. -/
def IsSealed (e : Fault) : Prop := ∃ name, e = .runtime (.sealed name)

/-- A fault that an operation on values can have : it comes neither from a slot nor from a scope
that can only be read. -/
structure Fault.OfValues (e : Fault) : Prop where
  not_isRefusal : ¬IsRefusal e
  not_isSealed : ¬IsSealed e

theorem Fault.ofValues_kind {c : KindCause} (h : ∀ fixed produced, c ≠ .changed fixed produced) :
    (Fault.kind c).OfValues :=
  ⟨by simpa [IsRefusal] using h, by simp [IsSealed]⟩

theorem Fault.ofValues_runtime {c : RuntimeCause} (h : ∀ name, c ≠ .sealed name) :
    (Fault.runtime c).OfValues :=
  ⟨by simp [IsRefusal], by simpa [IsSealed] using h⟩

/-! ## Truth values -/

namespace Value

/-- Only truth values pass for truth values. -/
theorem asBool_eq_ok {what : String} {v : Value} {b : Bool} :
    v.asBool what = .ok b ↔ v = .boolean b := by
  cases v <;> simp [asBool]

theorem asBool_of_kind {v : Value} (h : v.kind = .boolean) (what : String) :
    ∃ b, v.asBool what = .ok b := by
  cases v <;> simp_all [kind, asBool]

theorem asBool_error {what : String} {v : Value} {e : Fault} (h : v.asBool what = .error e) :
    e = .kind (.notBoolean what v.kind) := by
  cases v <;> simp_all [asBool]

theorem faultsIn_asBool (what : String) (v : Value) :
    FaultsIn Fault.OfValues (v.asBool what) :=
  ⟨fun _ he => asBool_error he ▸ Fault.ofValues_kind (by simp)⟩

end Value

/-! ## Promotion -/

namespace Kind

/-- Kinds that meet are kinds of numbers. -/
theorem isNumeric_of_promote {a b k : Kind} (h : promote a b = .ok k) :
    a.isNumeric = true ∧ b.isNumeric = true ∧ k.isNumeric = true := by
  rw [promote] at h
  split at h
  · simp at h
  · rename_i hab
    simp only [Bool.or_eq_true, Bool.not_eq_true', not_or, Bool.not_eq_false] at hab
    refine ⟨hab.1, hab.2, ?_⟩
    cases a <;> cases b <;> cases k <;> simp_all [meet?, isNumeric, isWhole, isFractional]

/-- Only kinds of 32 bits meet in 32 bits. -/
theorem eq_integer_of_promote {a b : Kind} (h : promote a b = .ok .integer) :
    a = .integer ∧ b = .integer := by
  cases a <;> cases b <;> simp_all [promote, meet?, isNumeric, isWhole, isFractional]

/-- Two kinds do not meet if one is not numeric, or if one is decimal and the other binary. -/
theorem promote_error {a b : Kind} {e : Fault} (h : promote a b = .error e) :
    e = .kind (.notNumericPair a b) ∨ e = .kind (.mixed a b) := by
  rw [promote] at h
  split at h
  · exact .inl (by simpa using h.symm)
  · split at h
    · simp at h
    · exact .inr (by simpa using h.symm)

end Kind

/-! ## Arithmetic -/

/-- The kind in which two numbers have met. -/
def Pair.kind : Pair → Kind
  | integers _ _ => .integer
  | longs _ _ => .long
  | floats _ _ => .float
  | doubles _ _ => .double
  | decimals _ _ => .decimal

namespace ArithOp

theorem checked_spec {α : Type} (op : ArithOp) (k : Kind) (z : Bool) (r : Option α) :
    (∃ a, op.checked k z r = .ok a) ∨ ∃ c, op.checked k z r = .error (.runtime c) := by
  unfold checked
  split
  · exact .inr ⟨_, rfl⟩
  · cases r with
    | none => exact .inr ⟨_, rfl⟩
    | some a => exact .inl ⟨a, rfl⟩

/-- Two numbers that have met give one of the same kind, or a fault that depends on them. -/
theorem onPair_spec (op : ArithOp) (p : Pair) :
    (∃ v, op.onPair p = .ok v ∧ v.kind = p.kind) ∨ ∃ c, op.onPair p = .error (.runtime c) := by
  have mapped : ∀ {α : Type} (k : Kind) (z : Bool) (r : Option α) (f : α → Value),
      (∀ a, (f a).kind = p.kind) →
        (∃ v, (op.checked k z r).map f = .ok v ∧ v.kind = p.kind) ∨
          ∃ c, (op.checked k z r).map f = .error (.runtime c) := by
    intro α k z r f hf
    rcases checked_spec op k z r with ⟨a, ha⟩ | ⟨c, hc⟩
    · exact .inl ⟨f a, by rw [ha]; rfl, hf a⟩
    · exact .inr ⟨c, by rw [hc]; rfl⟩
  cases p with
  | integers m n => exact mapped _ _ _ _ fun _ => rfl
  | longs m n => exact mapped _ _ _ _ fun _ => rfl
  | floats x y => exact .inl ⟨_, rfl, rfl⟩
  | doubles x y => exact .inl ⟨_, rfl, rfl⟩
  | decimals d e => exact mapped _ _ _ _ fun _ => rfl

end ArithOp

namespace Value

/-- Numbers whose kinds meet are brought to the kind that they meet in. -/
theorem align_spec {a b : Value} {k : Kind} (h : Kind.promote a.kind b.kind = .ok k) :
    ∃ p, a.align b = .ok p ∧ p.kind = k := by
  unfold align
  rw [h]
  have hk := (Kind.isNumeric_of_promote h).2.2
  cases k with
  | integer =>
    obtain ⟨ha, hb⟩ := Kind.eq_integer_of_promote h
    cases a <;> simp [kind] at ha
    cases b <;> simp [kind] at hb
    exact ⟨_, rfl, rfl⟩
  | long | float | double | decimal => exact ⟨_, rfl, rfl⟩
  | boolean | string | null => simp [Kind.isNumeric, Kind.isWhole, Kind.isFractional] at hk

/-- Where two kinds meet, an operation gives a value of the kind in which they meet, or a
fault that depends on the values. -/
theorem arith_spec (op : ArithOp) {a b : Value} {k : Kind}
    (h : Kind.promote a.kind b.kind = .ok k) :
    (∃ v, a.arith op b = .ok v ∧ v.kind = k) ∨ ∃ c, a.arith op b = .error (.runtime c) := by
  obtain ⟨p, hp, rfl⟩ := align_spec h
  obtain ⟨ha, hb, -⟩ := Kind.isNumeric_of_promote h
  have harith : a.arith op b = op.onPair p := by
    simp [arith, isNumeric, ha, hb, hp]
  rw [harith]
  exact op.onPair_spec p

theorem align_of_promote_error {a b : Value} {e : Fault}
    (h : Kind.promote a.kind b.kind = .error e) : a.align b = .error e := by
  unfold align
  rw [h]

/-- An operation on kinds that do not meet is a kind fault that names both. -/
theorem arith_of_promote_error (op : ArithOp) {a b : Value} {e : Fault}
    (h : Kind.promote a.kind b.kind = .error e) :
    a.arith op b = .error (.kind (.arithOperands op a.kind b.kind)) ∨
      a.arith op b = .error (.kind (.mixed a.kind b.kind)) := by
  unfold arith
  split
  · exact .inl rfl
  · rename_i hab
    rw [align_of_promote_error h]
    rcases Kind.promote_error h with rfl | rfl
    · rw [Kind.promote, if_neg (by simpa [isNumeric] using hab)] at h
      split at h <;> simp at h
    · exact .inr rfl

/-- An operation comes to a value of the kind that its operands meet in. -/
theorem arith_kind {op : ArithOp} {a b v : Value} (h : a.arith op b = .ok v) :
    Kind.promote a.kind b.kind = .ok v.kind := by
  cases hp : Kind.promote a.kind b.kind with
  | error e => rcases arith_of_promote_error op hp with h' | h' <;> simp [h'] at h
  | ok k =>
    rcases arith_spec op hp with ⟨w, hw, rfl⟩ | ⟨c, hc⟩
    · rw [hw] at h
      obtain rfl := Except.ok.inj h
      rfl
    · simp [hc] at h

/-- The kind of an operation that is known before a run is the one that it has. -/
theorem static_of_arith {op : ArithOp} {a b v : Value} {k l : Option Kind}
    (hk : k = none ∨ k = some a.kind) (hl : l = none ∨ l = some b.kind)
    (h : a.arith op b = .ok v) : Kind.static? k l = none ∨ Kind.static? k l = some v.kind := by
  rcases hk with rfl | rfl
  · exact .inl rfl
  · rcases hl with rfl | rfl
    · exact .inl rfl
    · exact .inr (by rw [Kind.static?, arith_kind h]; rfl)

theorem faultsIn_align (a b : Value) : FaultsIn Fault.OfValues (a.align b) := by
  cases hp : Kind.promote a.kind b.kind with
  | error e =>
    rw [align_of_promote_error hp]
    rcases Kind.promote_error hp with rfl | rfl
    · exact .error (Fault.ofValues_kind (by simp))
    · exact .error (Fault.ofValues_kind (by simp))
  | ok k =>
    obtain ⟨p, hp, -⟩ := align_spec hp
    rw [hp]
    exact .ok p

theorem faultsIn_arith (op : ArithOp) (a b : Value) :
    FaultsIn Fault.OfValues (a.arith op b) := by
  have hchecked : ∀ {α : Type} (k : Kind) (z : Bool) (r : Option α),
      FaultsIn Fault.OfValues (op.checked k z r) := by
    intro α k z r
    unfold ArithOp.checked
    split
    · exact .error (Fault.ofValues_runtime (by simp))
    · cases r with
      | none => exact .error (Fault.ofValues_runtime (by simp))
      | some a => exact .ok a
  unfold arith
  split
  · exact .error (Fault.ofValues_kind (by simp))
  split
  · exact .error ((faultsIn_align a b).fault _ ‹_›)
  rename_i p _
  cases p with
  | integers | longs | decimals => exact (hchecked ..).map _
  | floats | doubles => exact .ok _

end Value

/-! ## Signs -/

namespace Value

theorem signed_spec {α : Type} (k : Kind) (r : Option α) :
    (∃ a, signed k r = .ok a) ∨ ∃ c, signed k r = .error (.runtime c) := by
  cases r with
  | none => exact .inr ⟨_, rfl⟩
  | some a => exact .inl ⟨a, rfl⟩

theorem negate_spec {v : Value} (h : v.isNumeric = true) :
    (∃ w, v.negate = .ok w ∧ w.kind = v.kind) ∨ ∃ c, v.negate = .error (.runtime c) := by
  cases v with
  | integer n =>
    rcases signed_spec .integer (int32? (-n.toInt)) with ⟨a, ha⟩ | ⟨c, hc⟩
    · exact .inl ⟨.integer a, by rw [negate, ha]; rfl, rfl⟩
    · exact .inr ⟨c, by rw [negate, hc]; rfl⟩
  | long n =>
    rcases signed_spec .long (int64? (-n.toInt)) with ⟨a, ha⟩ | ⟨c, hc⟩
    · exact .inl ⟨.long a, by rw [negate, ha]; rfl, rfl⟩
    · exact .inr ⟨c, by rw [negate, hc]; rfl⟩
  | float x => exact .inl ⟨_, rfl, rfl⟩
  | double x => exact .inl ⟨_, rfl, rfl⟩
  | decimal d => exact .inl ⟨_, rfl, rfl⟩
  | boolean | string | null =>
    simp [isNumeric, kind, Kind.isNumeric, Kind.isWhole, Kind.isFractional] at h

theorem negate_of_not_isNumeric {v : Value} (h : v.isNumeric = false) :
    v.negate = .error (.kind (.signOperand .minus v.kind)) := by
  cases v <;>
    simp_all [isNumeric, kind, Kind.isNumeric, Kind.isWhole, Kind.isFractional, negate]

end Value

namespace Node

/-- A number with a sign in front is of the same kind, or a fault that depends on it. -/
theorem applySign_spec (s : Sign) {v : Value} (h : v.isNumeric = true) :
    (∃ w, applySign s v = .ok w ∧ w.kind = v.kind) ∨
      ∃ c, applySign s v = .error (.runtime c) := by
  cases s with
  | plus => exact .inl ⟨v, by simp [applySign, h], rfl⟩
  | minus => exact Value.negate_spec h

theorem applySign_of_not_isNumeric (s : Sign) {v : Value} (h : v.isNumeric = false) :
    applySign s v = .error (.kind (.signOperand s v.kind)) := by
  cases s with
  | plus => simp [applySign, h]
  | minus => exact Value.negate_of_not_isNumeric h

/-- A sign is for numbers, and keeps their kind. -/
theorem applySign_kind {s : Sign} {v w : Value} (h : applySign s v = .ok w) :
    v.isNumeric = true ∧ w.kind = v.kind := by
  cases hv : v.isNumeric with
  | false => simp [applySign_of_not_isNumeric s hv] at h
  | true =>
    rcases applySign_spec s hv with ⟨w', hw, hk⟩ | ⟨c, hc⟩
    · rw [hw] at h
      exact ⟨rfl, Except.ok.inj h ▸ hk⟩
    · simp [hc] at h

/-- A sign `+` changes nothing. -/
theorem applySign_plus {v w : Value} (h : applySign .plus v = .ok w) : v = w := by
  unfold applySign at h
  simp only at h
  split at h
  · exact Except.ok.inj h
  · simp at h

theorem faultsIn_applySign (g : Sign) (v : Value) : FaultsIn Fault.OfValues (applySign g v) := by
  have hsigned : ∀ {α : Type} (k : Kind) (r : Option α),
      FaultsIn Fault.OfValues (Value.signed k r) := by
    rintro α k (_ | a)
    · exact .error (Fault.ofValues_runtime (by simp))
    · exact .ok a
  cases g with
  | plus => exact .check _ _ (Fault.ofValues_kind (by simp))
  | minus =>
    cases v with
    | integer n => exact (hsigned ..).map _
    | long n => exact (hsigned ..).map _
    | float | double | decimal => exact .ok _
    | boolean | string | null => exact .error (Fault.ofValues_kind (by simp))

end Node

/-! ## Comparison -/

namespace Value

theorem compare_of_isNumeric {op : CompareOp} {a b : Value}
    (h : (a.isNumeric && b.isNumeric) = true) :
    a.compare op b = (a.align b).map op.onPair := by
  unfold compare
  rw [if_pos h]
  cases a.align b <;> rfl

/-- Values that are not both numbers are compared if their kinds can be. -/
theorem compare_of_not_isNumeric {op : CompareOp} {a b : Value}
    (h : (a.isNumeric && b.isNumeric) = false) :
    (∃ c, a.compare op b = .ok c) ∧ Kind.checkComparison op a.kind b.kind = .ok () ∨
      a.compare op b = .error (.kind (.incomparable op a.kind b.kind)) ∧
        Kind.checkComparison op a.kind b.kind =
          .error (.kind (.incomparable op a.kind b.kind)) := by
  have h' : (a.kind.isNumeric && b.kind.isNumeric) = false := h
  unfold compare Kind.checkComparison
  rw [if_neg (by simp [h]), if_neg (by simp [h'])]
  cases op.isEquality <;> cases a <;> cases b <;> first
    | exact .inl ⟨⟨_, rfl⟩, rfl⟩
    | exact .inr ⟨rfl, rfl⟩

/-- Values of kinds that can be compared are compared without a fault. -/
theorem compare_spec {op : CompareOp} {a b : Value}
    (h : Kind.checkComparison op a.kind b.kind = .ok ()) : ∃ c, a.compare op b = .ok c := by
  cases hab : a.isNumeric && b.isNumeric with
  | true =>
    have hab' : (a.kind.isNumeric && b.kind.isNumeric) = true := hab
    unfold Kind.checkComparison at h
    rw [if_pos hab'] at h
    rw [compare_of_isNumeric hab]
    cases hp : Kind.promote a.kind b.kind with
    | error e => simp [hp, Except.map] at h
    | ok k =>
      obtain ⟨p, hp, -⟩ := align_spec hp
      exact ⟨op.onPair p, by rw [hp]; rfl⟩
  | false =>
    rcases compare_of_not_isNumeric hab with ⟨hc, -⟩ | ⟨-, hc⟩
    · exact hc
    · simp [hc] at h

/-- Comparing fails over the values alone. -/
theorem faultsIn_compare (op : CompareOp) (a b : Value) :
    FaultsIn Fault.OfValues (a.compare op b) := by
  cases hab : a.isNumeric && b.isNumeric with
  | true =>
    rw [compare_of_isNumeric hab]
    exact (faultsIn_align a b).map _
  | false =>
    rcases @compare_of_not_isNumeric op a b hab with ⟨⟨c, hc⟩, -⟩ | ⟨hc, -⟩
    · rw [hc]
      exact .ok c
    · rw [hc]
      exact .error (Fault.ofValues_kind (by simp))

end Value

end Formula

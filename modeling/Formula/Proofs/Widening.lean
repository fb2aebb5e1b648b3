import Formula.Literal
import Formula.Proofs.Builtins
import Mathlib.Data.List.Forall2

/-!
# Values with wider whole numbers

A value widens to itself, and a whole number of 32 bits also to the same number of 64 bits
(`Value.Widens`). Operations on values take the widening along : where they come to a value,
they come to a wider one if their operands are wider (`Value.arith_widens`,
`Value.compare_widens`), and so do the functions that are always there
(`Registry.widening_builtins`).

Numbers with a fraction are never widened. A whole number that meets one is taken to its kind,
and what it is taken to depends on the number alone and not on how many bits it has.
-/

namespace Formula

/-- Where the first comes to something, the second does, and the two are related. -/
def Leads {α β : Type} (P : α → β → Prop) (r : Except Fault α) (r' : Except Fault β) : Prop :=
  ∀ a, r = .ok a → ∃ b, r' = .ok b ∧ P a b

namespace Leads

variable {α α' β β' γ γ' : Type} {P : α → β → Prop} {Q : α' → β' → Prop} {r : Except Fault α}
  {r' : Except Fault β}

theorem ok {a : α} {b : β} (h : P a b) : Leads P (.ok a) (.ok b) := by
  intro a' ha
  obtain rfl := Except.ok.inj ha
  exact ⟨b, rfl, h⟩

theorem refl {P : α → α → Prop} (hP : ∀ a, P a a) (r : Except Fault α) : Leads P r r :=
  fun a ha => ⟨a, ha, hP a⟩

theorem error {e : Fault} : Leads P (.error e) r' := fun a ha => by cases ha

theorem map {f : α → α'} {g : β → β'} (h : Leads P r r') (hf : ∀ a b, P a b → Q (f a) (g b)) :
    Leads Q (r.map f) (r'.map g) := by
  intro a' ha'
  obtain ⟨a, ha, rfl⟩ := Except.map_eq_ok.1 ha'
  obtain ⟨b, rfl, hab⟩ := h a ha
  exact ⟨g b, rfl, hf a b hab⟩

theorem bind {f : α → Except Fault α'} {g : β → Except Fault β'} (h : Leads P r r')
    (hf : ∀ a b, P a b → Leads Q (f a) (g b)) : Leads Q (r.bind f) (r'.bind g) := by
  intro a' ha'
  obtain ⟨a, ha, ha'⟩ := Except.bind_eq_ok.1 ha'
  obtain ⟨b, rfl, hab⟩ := h a ha
  exact hf a b hab a' ha'

/-- Steps that keep the relation, taken along two lists, lead to related ends. -/
theorem foldlM {f : α → γ → Except Fault α} {g : β → γ' → Except Fault β} {R : γ → γ' → Prop}
    {l : List γ} {l' : List γ'} {a : α} {b : β} (hl : List.Forall₂ R l l') (ha : P a b)
    (hf : ∀ a b c d, P a b → R c d → Leads P (f a c) (g b d)) :
    Leads P (l.foldlM f a) (l'.foldlM g b) := by
  induction hl generalizing a b with
  | nil => exact .ok ha
  | cons hcd _ ih =>
    rw [List.foldlM_cons, List.foldlM_cons]
    exact (hf _ _ _ _ ha hcd).bind fun _ _ h => ih h

end Leads

/-! ## Kinds -/

/-- The same kind, or that of whole numbers of 64 bits for that of 32 bits. -/
inductive Kind.Widens : Kind → Kind → Prop
  | refl (k : Kind) : Widens k k
  | whole : Widens .integer .long

namespace Kind

variable {a a' b b' : Kind}

/-- Wider kinds meet in a wider kind. -/
theorem promote_widens (ha : a.Widens a') (hb : b.Widens b') :
    Leads Widens (promote a b) (promote a' b') := by
  cases ha with
  | refl =>
    cases hb with
    | refl => exact .refl .refl _
    | whole =>
      cases a with
      | integer => exact .ok .whole
      | long | float | double | decimal => exact .ok (.refl _)
      | boolean | string | null => exact .error
  | whole =>
    cases hb with
    | refl =>
      cases b with
      | integer => exact .ok .whole
      | long | float | double | decimal => exact .ok (.refl _)
      | boolean | string | null => exact .error
    | whole => exact .ok .whole

/-- A wider kind is one of numbers if the kind is. -/
theorem Widens.isNumeric (h : a.Widens a') : a'.isNumeric = a.isNumeric := by
  cases h with
  | refl => rfl
  | whole => rfl

end Kind

/-! ## Numbers -/

/-- A number that fits into 32 bits fits into 64 bits, as the same number. -/
theorem int64?_of_int32? {x : Int} {n : Int32} (h : int32? x = some n) :
    int64? x = some n.toInt64 := by
  unfold int32? at h
  split at h
  · rename_i hx
    obtain rfl := Option.some.inj h
    rw [int64?, if_pos (by omega)]
    refine congrArg some (Int64.toInt_inj.1 ?_)
    rw [Int32.toInt_toInt64, Int32.toInt_ofInt_of_le hx.1 hx.2,
      Int64.toInt_ofInt_of_le (by omega) (by omega)]
  · cases h

theorem toInt64_beq_zero (n : Int32) : (n.toInt64 == 0) = (n == 0) := by
  have h : n.toInt64 = 0 ↔ n = 0 := by
    rw [← Int64.toInt_inj, ← Int32.toInt_inj, Int32.toInt_toInt64]
    rfl
  rw [Bool.eq_iff_iff, beq_iff_eq, beq_iff_eq, h]

/-- Two numbers that have met, and the same in 64 bits if they are whole. -/
inductive Pair.Widens : Pair → Pair → Prop
  | refl (p : Pair) : Widens p p
  | whole (m n : Int32) : Widens (.integers m n) (.longs m.toInt64 n.toInt64)

/-- The same value, or the same whole number in 64 bits. -/
inductive Value.Widens : Value → Value → Prop
  | refl (v : Value) : Widens v v
  | whole (n : Int32) : Widens (.integer n) (.long n.toInt64)

namespace ArithOp

/-- What fits 32 bits fits 64. -/
theorem onWhole_widens (op : ArithOp) {x y : Int} {n : Int32}
    (h : op.onWhole int32? x y = some n) : op.onWhole int64? x y = some n.toInt64 := by
  cases op with
  | rem =>
    obtain ⟨q, hq, hr⟩ := Option.bind_eq_some_iff.1 h
    exact Option.bind_eq_some_iff.2 ⟨_, int64?_of_int32? hq, int64?_of_int32? hr⟩
  | add | sub | mul | div => exact int64?_of_int32? h

/-- A checked operation comes to its result if there is one, and no divisor is zero. -/
theorem checked_eq_ok {α : Type} {op : ArithOp} {k : Kind} {z : Bool} {r : Option α} {a : α} :
    op.checked k z r = .ok a ↔ (op.divides && z) = false ∧ r = some a := by
  unfold checked
  cases op.divides && z with
  | true => simp
  | false => cases r <;> simp

/-- An operation on two numbers of a wider kind comes to the result of the narrower one, widened. -/
theorem onPair_widens (op : ArithOp) {p p' : Pair} (h : p.Widens p') :
    Leads Value.Widens (op.onPair p) (op.onPair p') := by
  cases h with
  | refl => exact .refl .refl _
  | whole m n =>
    refine Leads.map (P := fun k l => l = k.toInt64) (fun k hk => ?_) ?_
    · obtain ⟨hzero, hk⟩ := checked_eq_ok.1 hk
      refine ⟨k.toInt64, checked_eq_ok.2 ⟨?_, ?_⟩, rfl⟩
      · rwa [toInt64_beq_zero]
      · rw [Int32.toInt_toInt64, Int32.toInt_toInt64]
        exact op.onWhole_widens hk
    · rintro k _ rfl
      exact .whole k

end ArithOp

namespace Value

variable {a a' b b' v v' : Value} {k k' : Kind}

namespace Widens

/-- The kind of a wider value is wider. -/
theorem kind (h : v.Widens v') : v.kind.Widens v'.kind := by
  cases h with
  | refl => exact .refl _
  | whole n => exact .whole

/-- What is of 32 bits was not widened. -/
theorem eq_of_kind (h : v.Widens v') (hk : v'.kind = .integer) : v' = v := by
  cases h with
  | refl => rfl
  | whole n => cases hk

theorem isNumeric (h : v.Widens v') : v'.isNumeric = v.isNumeric := h.kind.isNumeric

theorem asBool (h : v.Widens v') (what : String) : Leads Eq (v.asBool what) (v'.asBool what) := by
  cases h with
  | refl => exact .refl (fun _ => rfl) _
  | whole n => exact .error

/-- A number of either width is taken to the same double. -/
theorem asDouble (h : v.Widens v') : v'.asDouble = v.asDouble := by
  cases h with
  | refl => rfl
  | whole n => rw [Value.asDouble, Value.asDouble, Int32.toInt_toInt64]

end Widens

/-- Two numbers meet in the same kind if they are widened, or both as whole numbers. -/
theorem align_widens (ha : a.Widens a') (hb : b.Widens b') :
    Leads Pair.Widens (a.align b) (a'.align b') := by
  cases ha with
  | refl =>
    cases hb with
    | refl => exact .refl .refl _
    | whole n =>
      cases a with
      | integer m => exact .ok (.whole m n)
      | long m | float x | double x | decimal d => exact .ok (.refl _)
      | boolean c | string s | null => exact .error
  | whole m =>
    cases hb with
    | refl =>
      cases b with
      | integer n => exact .ok (.whole m n)
      | long n | float x | double x | decimal d => exact .ok (.refl _)
      | boolean c | string s | null => exact .error
    | whole n => exact .ok (.whole m n)

/-- Where an operation comes to a value, it comes to a wider one for wider operands. -/
theorem arith_widens (op : ArithOp) (ha : a.Widens a') (hb : b.Widens b') :
    Leads Widens (a.arith op b) (a'.arith op b') := by
  unfold arith
  rw [ha.isNumeric, hb.isNumeric]
  split
  · exact .error
  · cases hp : a.align b with
    | error e => exact .error
    | ok p =>
      obtain ⟨p', hp', h⟩ := align_widens ha hb p hp
      rw [hp']
      exact op.onPair_widens h

theorem signed_eq_ok {α : Type} {k : Kind} {r : Option α} {n : α} :
    signed k r = .ok n ↔ r = some n := by
  cases r <;> simp [signed]

theorem negate_widens (h : v.Widens v') : Leads Widens v.negate v'.negate := by
  cases h with
  | refl => exact .refl .refl _
  | whole n =>
    refine Leads.map (P := fun k l => l = k.toInt64) (fun k hk => ?_) ?_
    · refine ⟨k.toInt64, signed_eq_ok.2 ?_, rfl⟩
      rw [Int32.toInt_toInt64]
      exact int64?_of_int32? (signed_eq_ok.1 hk)
    · rintro k _ rfl
      exact .whole k

theorem abs_widens (h : v.Widens v') : Leads Widens v.abs v'.abs := by
  cases h with
  | refl => exact .refl .refl _
  | whole n =>
    rw [abs, abs, Int32.toInt_toInt64]
    split
    · exact negate_widens (.whole n)
    · exact .ok (.whole n)

/-- A sign in front of a wider number gives a wider number. -/
theorem applySign_widens (s : Sign) (h : v.Widens v') :
    Leads Widens (Node.applySign s v) (Node.applySign s v') := by
  cases s with
  | minus => exact negate_widens h
  | plus =>
    rw [Node.applySign, Node.applySign, h.isNumeric]
    split
    · exact .ok h
    · exact .error

/-! ## Comparison -/

theorem onPair_eq_of_widens (op : CompareOp) {p p' : Pair} (h : p.Widens p') :
    op.onPair p' = op.onPair p := by
  cases h with
  | refl => rfl
  | whole m n =>
    rw [CompareOp.onPair, CompareOp.onPair, Int32.toInt_toInt64, Int32.toInt_toInt64]

/-- Where a comparison comes to a truth value, it comes to the same one for wider operands. -/
theorem compare_widens (op : CompareOp) (ha : a.Widens a') (hb : b.Widens b') :
    Leads Eq (a.compare op b) (a'.compare op b') := by
  cases hnum : a.isNumeric && b.isNumeric with
  | true =>
    have hnum' : (a'.isNumeric && b'.isNumeric) = true := by rwa [ha.isNumeric, hb.isNumeric]
    rw [compare_of_isNumeric hnum, compare_of_isNumeric hnum']
    exact (align_widens ha hb).map fun _ _ h => (onPair_eq_of_widens op h).symm
  | false =>
    cases ha with
    | refl =>
      cases hb with
      | refl => exact .refl (fun _ => rfl) _
      | whole n =>
        cases a with
        | integer m | long m | float x | double x | decimal d => cases hnum
        | boolean c | string s => exact .error
        | null =>
          cases op with
          | eq | ne => exact .refl (fun _ => rfl) _
          | lt | le | gt | ge => exact .error
    | whole m =>
      cases hb with
      | refl =>
        cases b with
        | integer n | long n | float x | double x | decimal d => cases hnum
        | boolean c | string s => exact .error
        | null =>
          cases op with
          | eq | ne => exact .refl (fun _ => rfl) _
          | lt | le | gt | ge => exact .error
      | whole n => cases hnum

/-! ## Conversion -/

/-- Only what is of 32 bits already is taken to 32 bits. -/
theorem kind_of_convert_integer {u : Value} (h : v.convert .integer = .ok u) :
    v.kind = .integer := by
  unfold convert at h
  split at h
  · assumption
  · split at h
    · cases h
    · rename_i k hk
      split at h
      · rename_i hmeet
        exact (Kind.eq_integer_of_promote (hmeet ▸ hk)).1
      · cases h

/-- A value is taken to the wider kind, if that is not one of 32 bits. -/
theorem convert_widens (hv : v.Widens v') (hk : k.Widens k') (hne : k' ≠ .integer) :
    Leads Widens (v.convert k) (v'.convert k') := by
  cases hk with
  | whole =>
    intro u hu
    have hinteger := kind_of_convert_integer hu
    cases v with
    | integer n =>
      obtain rfl := Except.ok.inj hu
      cases hv with
      | refl => exact ⟨_, rfl, .whole n⟩
      | whole => exact ⟨_, rfl, .whole n⟩
    | _ => cases hinteger
  | refl =>
    cases hv with
    | refl => exact .refl .refl _
    | whole n =>
      cases k with
      | integer => exact (hne rfl).elim
      | long | float | double | decimal => exact .ok (.refl _)
      | boolean | string | null => exact .error

end Value

/-! ## The functions that are always there -/

namespace Builtin

variable {op : CompareOp} {v v' best best' : Value} {vs vs' args args' : List Value}
  {k k' : Kind}

/-- Each argument is wider, and one that is left out is the same on both sides. -/
theorem arg_widens (h : List.Forall₂ Value.Widens args args') (i : Nat) :
    (arg args i).Widens (arg args' i) := by
  induction h generalizing i with
  | nil => exact .refl _
  | cons hv _ ih =>
    cases i with
    | zero => exact hv
    | succ i => exact ih i

/-- Wider values meet in a wider kind. -/
theorem meetAll_widens (hv : v.Widens v') (hvs : List.Forall₂ Value.Widens vs vs') :
    Leads Kind.Widens (meetAll v vs) (meetAll v' vs') :=
  .foldlM hvs hv.kind fun _ _ _ _ hk hw => Kind.promote_widens hk hw.kind

/-- Values that are of 32 bits after widening were not widened. -/
theorem eq_of_kinds (h : List.Forall₂ Value.Widens vs vs') (hk : ∀ w ∈ vs', w.kind = .integer) :
    vs' = vs := by
  induction h with
  | nil => rfl
  | cons hv _ ih =>
    rw [List.forall_mem_cons] at hk
    rw [hv.eq_of_kind hk.1, ih hk.2]

/-- Only values of 32 bits meet in 32 bits. -/
theorem kinds_of_meetAll_integer (h : meetAll v vs = .ok .integer) :
    v.kind = .integer ∧ ∀ w ∈ vs, w.kind = .integer := by
  have hfold : ∀ (vs : List Value) (k : Kind),
      vs.foldlM (fun k w => Kind.promote k w.kind) k = .ok .integer →
        k = .integer ∧ ∀ w ∈ vs, w.kind = .integer := by
    intro vs
    induction vs with
    | nil => exact fun k hk => ⟨Except.ok.inj hk, by simp⟩
    | cons w vs ih =>
      intro k hk
      rw [List.foldlM_cons, Except.bind_eq_ok] at hk
      obtain ⟨j, hj, hk⟩ := hk
      obtain ⟨rfl, hall⟩ := ih j hk
      obtain ⟨hk, hw⟩ := Kind.eq_integer_of_promote hj
      exact ⟨hk, List.forall_mem_cons.2 ⟨hw, hall⟩⟩
  exact hfold vs v.kind h

/-- The better one of two wider values is wider than the better one of the two. -/
theorem better_widens (hk : k.Widens k') (hne : k' ≠ .integer) (hbest : best.Widens best')
    (hv : v.Widens v') : Leads Value.Widens (better op k best v) (better op k' best' v') := by
  intro w hw
  unfold better at hw ⊢
  cases hu : v.convert k with
  | error e => simp [hu] at hw
  | ok u =>
    obtain ⟨u', hu', hwide⟩ := Value.convert_widens hv hk hne u hu
    simp only [hu] at hw
    cases hc : u.compare op best with
    | error e => simp [hc] at hw
    | ok c =>
      obtain ⟨_, hc', rfl⟩ := Value.compare_widens op hwide hbest c hc
      simp only [hc, Except.ok.injEq] at hw
      simp only [hu', hc']
      refine ⟨_, rfl, ?_⟩
      subst hw
      split
      · exact hwide
      · exact hbest

/-- The best one of wider values is wider than the best one. -/
theorem bestOf_widens (hv : v.Widens v') (hvs : List.Forall₂ Value.Widens vs vs') :
    Leads Value.Widens (bestOf op v vs) (bestOf op v' vs') := by
  intro w hw
  have hmeet := meetAll_of_bestOf hw
  obtain ⟨k', hmeet', hk⟩ := meetAll_widens hv hvs _ hmeet
  by_cases hne : k' = .integer
  · -- all the arguments are of 32 bits, and so none of them was widened
    rw [hne] at hmeet'
    obtain ⟨hkind, hkinds⟩ := kinds_of_meetAll_integer hmeet'
    rw [hv.eq_of_kind hkind, eq_of_kinds hvs hkinds]
    exact ⟨w, hw, .refl w⟩
  · unfold bestOf at hw ⊢
    rw [hmeet] at hw
    rw [hmeet']
    simp only [hk.isNumeric] at hw ⊢
    split at hw
    · cases hw
    · rename_i hnum
      rw [if_neg hnum]
      cases hu : v.convert w.kind with
      | error e => simp [hu] at hw
      | ok u =>
        obtain ⟨u', hu', hwide⟩ := Value.convert_widens hv hk hne u hu
        simp only [hu] at hw
        simp only [hu']
        exact Leads.foldlM hvs hwide (fun _ _ _ _ => better_widens hk hne) w hw

theorem extreme_widens (h : List.Forall₂ Value.Widens args args') :
    Leads Value.Widens (extreme op args) (extreme op args') := by
  cases h with
  | nil => exact .error
  | cons hv hvs => exact bestOf_widens hv hvs

theorem clamp_widens (h : List.Forall₂ Value.Widens args args') :
    Leads Value.Widens (clamp args) (clamp args') := by
  have hlow : Leads Value.Widens (extreme .gt (args.take 2)) (extreme .gt (args'.take 2)) :=
    extreme_widens (List.forall₂_take 2 h)
  unfold clamp
  cases hw : extreme .gt (args.take 2) with
  | error e => exact .error
  | ok w =>
    obtain ⟨w', hw', hwide⟩ := hlow w hw
    rw [hw']
    exact extreme_widens (.cons hwide (.cons (arg_widens h 2) .nil))

/-- A function on doubles answers the same for whole numbers of either width. -/
theorem onDouble_congr (h : List.Forall₂ Value.Widens args args') (f : Float → Float) :
    onDouble f args' = onDouble f args := by
  rw [onDouble, onDouble, (arg_widens h 0).asDouble]

theorem pow_congr (h : List.Forall₂ Value.Widens args args') : pow args' = pow args := by
  rw [pow, pow, (arg_widens h 0).asDouble, (arg_widens h 1).asDouble]

theorem lerp_congr (h : List.Forall₂ Value.Widens args args') : lerp args' = lerp args := by
  rw [lerp, lerp, (arg_widens h 0).asDouble, (arg_widens h 1).asDouble, (arg_widens h 2).asDouble]

end Builtin

/-- The function comes to wider values for wider arguments, whatever was called before. -/
def Function.Widening (f : Function) : Prop :=
  ∀ h h' args args', List.Forall₂ Value.Widens args args' →
    Leads Value.Widens (f.answer h args) (f.answer h' args')

/-- A function that takes a whole number of either width for the same number widens nothing. -/
theorem Function.widening_of_congr {arity : Arity} {f : List Value → Except Fault Value}
    (hf : ∀ args args', List.Forall₂ Value.Widens args args' → f args' = f args) :
    (Builtin.pureFunction arity f).Widening := by
  intro h h' args args' hargs
  have hsame : f args' = f args := hf args args' hargs
  show Leads Value.Widens (f args) (f args')
  rw [hsame]
  exact .refl .refl _

open Builtin in
/-- All the functions that are always there take the widening along. -/
theorem Registry.widening_builtins : ∀ e ∈ builtins.entries, e.2.Widening := by
  intro e he
  simp only [builtins, List.mem_cons, List.not_mem_nil, or_false] at he
  rcases he with rfl | rfl | rfl | rfl | rfl | rfl | rfl | rfl | rfl
  · exact fun _ _ _ _ h => Value.abs_widens (arg_widens h 0)
  · exact fun _ _ _ _ => extreme_widens
  · exact fun _ _ _ _ => extreme_widens
  · exact fun _ _ _ _ => clamp_widens
  · exact Function.widening_of_congr fun _ _ h => onDouble_congr h Float.sin
  · exact Function.widening_of_congr fun _ _ h => onDouble_congr h Float.cos
  · exact Function.widening_of_congr fun _ _ h => onDouble_congr h Float.sqrt
  · exact Function.widening_of_congr fun _ _ => pow_congr
  · exact Function.widening_of_congr fun _ _ => lerp_congr

/-! ## Literals -/

namespace Token

variable {t : Token} {precision : IntPrecision}

theorem int32?_of_integerValue {v : Value} (hp : precision = .i32)
    (h : t.integerValue precision = .ok v) :
    ∃ n k, t.wholeNumber = .ok n ∧ int32? n = some k ∧ v = .integer k := by
  unfold integerValue at h
  split at h
  · cases h
  · rename_i n hn
    cases precision with
    | i32 =>
      generalize hk : int32? n = fit at h
      cases fit with
      | none => cases h
      | some k => exact ⟨n, k, hn, hk, (Except.ok.inj h).symm⟩
    | i64 => cases hp

theorem integerValue_of_int64? {n : Nat} {k : Int64} (hp : precision = .i64)
    (hn : t.wholeNumber = .ok n) (hk : int64? n = some k) :
    t.integerValue precision = .ok (.long k) := by
  unfold integerValue
  split
  · rename_i e he
    cases hn.symm.trans he
  · rename_i m hm
    obtain rfl : n = m := Except.ok.inj (hn.symm.trans hm)
    cases precision with
    | i32 => cases hp
    | i64 =>
      generalize int64? n = fit at hk ⊢
      rw [hk]

/-- A whole number of a literal that fits 32 bits fits 64. -/
theorem integerValue_widens (t : Token) (precision : IntPrecision) :
    Leads Value.Widens (t.integerValue precision) (t.integerValue .i64) := by
  cases precision with
  | i64 => exact .refl .refl _
  | i32 =>
    intro v hv
    obtain ⟨n, k, hn, hk, rfl⟩ := int32?_of_integerValue rfl hv
    exact ⟨_, integerValue_of_int64? rfl hn (int64?_of_int32? hk), .whole k⟩

end Token

end Formula

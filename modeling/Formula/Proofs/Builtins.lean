import Formula.Function.Builtin
import Formula.Proofs.Kinds
import Formula.Proofs.Results

/-!
# What the functions that are always there come to

They are pure, look at their arguments alone, and the kind of what they come to follows from
the kinds of the arguments (`Registry.uniform_builtins`). The extremes come to a value of the
kind in which all the arguments meet (`Builtin.meetAll_of_bestOf`).
-/

namespace Formula

namespace Value

/-- A number keeps its kind when its sign changes. -/
theorem negate_kind {v w : Value} (h : v.negate = .ok w) : w.kind = v.kind :=
  (Node.applySign_kind (s := .minus) (v := v) h).2

theorem abs_kind {v w : Value} (h : v.abs = .ok w) : w.kind = v.kind := by
  cases v with
  | integer n | long n =>
    rw [abs] at h
    split at h
    · exact negate_kind h
    · rw [← Except.ok.inj h]
  | float x | double x | decimal d => rw [← Except.ok.inj h]; rfl
  | boolean b | string s | null => simp [abs] at h

/-- A number that is taken to a kind is of that kind. -/
theorem convert_kind {v w : Value} {k : Kind} (h : v.convert k = .ok w) : w.kind = k := by
  unfold convert at h
  split at h
  · rename_i hk
    rw [← Except.ok.inj h, hk]
  · rename_i hne
    split at h
    · simp at h
    · rename_i k' hk'
      split at h
      · rename_i hmeet
        subst hmeet
        have hnum := (Kind.isNumeric_of_promote hk').2.2
        cases k' with
        | integer => exact (hne (Kind.eq_integer_of_promote hk').1).elim
        | long | float | double | decimal => rw [← Except.ok.inj h]; rfl
        | boolean | string | null => simp [Kind.isNumeric, Kind.isWhole, Kind.isFractional] at hnum
      · simp at h

end Value

/-- The kind of a value that is computed from others follows from their kinds. -/
def KindsDecide (f : List Value → Except Fault Value) : Prop :=
  ∀ args args' v v', args'.map Value.kind = args.map Value.kind → f args = .ok v →
    f args' = .ok v' → v'.kind = v.kind

/-- A function that always answers with one kind is decided by the kinds of its arguments. -/
theorem KindsDecide.of_kind {f : List Value → Except Fault Value} (k : Kind)
    (h : ∀ args v, f args = .ok v → v.kind = k) : KindsDecide f :=
  fun args args' v v' _ hv hv' => (h args' v' hv').trans (h args v hv).symm

/-- The function is pure and looks at its arguments alone, and their kinds decide what kind its
answer is of. -/
structure Function.Uniform (f : Function) : Prop where
  isPure : f.isPure = true
  answer : ∀ h h' args, f.answer h' args = f.answer h args
  kinds : ∀ h, KindsDecide (f.answer h)

namespace Builtin

variable {op : CompareOp} {args args' vs vs' : List Value} {v v' w : Value} {k : Kind}

theorem arg_kind (h : args'.map Value.kind = args.map Value.kind) (i : Nat) :
    (arg args' i).kind = (arg args i).kind := by
  have hkind : ∀ args : List Value,
      (arg args i).kind = ((args.map Value.kind)[i]?).getD .null := by
    intro args
    rw [arg, List.getElem?_map]
    cases args[i]? <;> rfl
  rw [hkind, hkind, h]

/-! ## Extremes -/

/-- Which kind values meet in follows from their kinds. -/
theorem meetAll_congr (hv : v'.kind = v.kind) (hvs : vs'.map Value.kind = vs.map Value.kind) :
    meetAll v' vs' = meetAll v vs := by
  have hfold : ∀ (v : Value) (vs : List Value),
      meetAll v vs = (vs.map Value.kind).foldlM Kind.promote v.kind := by
    intro v vs
    rw [meetAll, List.foldlM_map]
  rw [hfold, hfold, hv, hvs]

/-- The better one of two values of a kind is of that kind. -/
theorem better_kind (h : better op k v v' = .ok w) (hv : v.kind = k) : w.kind = k := by
  unfold better at h
  split at h
  · simp at h
  · rename_i u hu
    split at h
    · simp at h
    · rename_i b _
      cases b with
      | false => exact Except.ok.inj h ▸ hv
      | true => exact Except.ok.inj h ▸ Value.convert_kind hu

theorem foldlM_better_kind (h : vs.foldlM (better op k) v = .ok w) (hv : v.kind = k) :
    w.kind = k := by
  induction vs generalizing v with
  | nil =>
    obtain rfl : v = w := by simpa [pure, Except.pure] using h
    exact hv
  | cons u vs ih =>
    rw [List.foldlM_cons, Except.bind_eq_ok] at h
    obtain ⟨best, hbest, h⟩ := h
    exact ih h (better_kind hbest hv)

/-- The best of several values is of the kind in which they all meet. -/
theorem meetAll_of_bestOf (h : bestOf op v vs = .ok w) : meetAll v vs = .ok w.kind := by
  unfold bestOf at h
  split at h
  · simp at h
  · rename_i kind hkind
    split at h
    · simp at h
    · split at h
      · simp at h
      · rename_i u hu
        rw [hkind, foldlM_better_kind h (Value.convert_kind hu)]

/-- The kind of the least or the greatest value follows from the kinds of the arguments. -/
theorem kindsDecide_extreme : KindsDecide (extreme op) := by
  intro args args' v v' hkinds hv hv'
  cases args with
  | nil => simp [extreme] at hv
  | cons a as =>
    cases args' with
    | nil => simp at hkinds
    | cons a' as' =>
      obtain ⟨hhead, htail⟩ := List.cons.inj hkinds
      have hmeet := meetAll_of_bestOf hv'
      rw [meetAll_congr hhead htail, meetAll_of_bestOf hv] at hmeet
      exact (Except.ok.inj hmeet).symm

theorem kindsDecide_clamp : KindsDecide clamp := by
  intro args args' v v' hkinds hv hv'
  unfold clamp at hv hv'
  split at hv
  · simp at hv
  · rename_i low hlow
    split at hv'
    · simp at hv'
    · rename_i low' hlow'
      have htake : (args'.take 2).map Value.kind = (args.take 2).map Value.kind := by
        rw [List.map_take, List.map_take, hkinds]
      refine kindsDecide_extreme _ _ v v' ?_ hv hv'
      simp only [List.map_cons, kindsDecide_extreme _ _ low low' htake hlow hlow',
        arg_kind hkinds]

/-! ## Numbers of 64 bits -/

theorem onDouble_kind {f : Float → Float} (h : onDouble f args = .ok v) : v.kind = .double := by
  obtain ⟨x, -, rfl⟩ := Except.map_eq_ok.1 h
  rfl

theorem pow_kind (h : pow args = .ok v) : v.kind = .double := by
  obtain ⟨x, -, h⟩ := Except.bind_eq_ok.1 h
  obtain ⟨y, -, h⟩ := Except.bind_eq_ok.1 h
  exact Except.ok.inj h ▸ rfl

theorem lerp_kind (h : lerp args = .ok v) : v.kind = .double := by
  obtain ⟨x, -, h⟩ := Except.bind_eq_ok.1 h
  obtain ⟨y, -, h⟩ := Except.bind_eq_ok.1 h
  obtain ⟨t, -, h⟩ := Except.bind_eq_ok.1 h
  exact Except.ok.inj h ▸ rfl

/-- A pure function whose kinds decide is uniform. -/
theorem uniform_pureFunction {arity : Arity} {f : List Value → Except Fault Value}
    (hf : KindsDecide f) : (pureFunction arity f).Uniform :=
  ⟨rfl, fun _ _ _ => rfl, fun _ => hf⟩

theorem uniform_onDouble {arity : Arity} (f : Float → Float) :
    (pureFunction arity (onDouble f)).Uniform :=
  uniform_pureFunction (.of_kind .double fun _ _ => onDouble_kind)

end Builtin

open Builtin in
/-- The functions that are always there look at their arguments alone, and the kinds of these
decide what kind the answer is of. -/
theorem Registry.uniform_builtins : ∀ e ∈ builtins.entries, e.2.Uniform := by
  intro e he
  simp only [builtins, List.mem_cons, List.not_mem_nil, or_false] at he
  rcases he with rfl | rfl | rfl | rfl | rfl | rfl | rfl | rfl | rfl
  · refine uniform_pureFunction fun args args' v v' hkinds hv hv' => ?_
    rw [Value.abs_kind hv, Value.abs_kind hv', arg_kind hkinds]
  · exact uniform_pureFunction kindsDecide_extreme
  · exact uniform_pureFunction kindsDecide_extreme
  · exact uniform_pureFunction kindsDecide_clamp
  · exact uniform_onDouble Float.sin
  · exact uniform_onDouble Float.cos
  · exact uniform_onDouble Float.sqrt
  · exact uniform_pureFunction (.of_kind .double fun _ _ => pow_kind)
  · exact uniform_pureFunction (.of_kind .double fun _ _ => lerp_kind)

end Formula

import Mathlib.Order.Bounds.Basic
import Mathlib.Tactic.NormNum
import Formula.Proofs.Builtins
import Formula.Proofs.ExactOrder

/-!
# The extremes of exact numbers

Of whole numbers and decimals, `min` and `max` take the least and the greatest, in the kind in
which all of them meet, and `clamp` holds a number between two others (`Builtin.extremes_exact`).
The order of the arguments makes no difference to the kind and to the number.

Kinds meet one after the other, and what they come to does not depend on the order
(`Kind.foldlM_promote_exact`). Numbers that are taken to that kind stay the numbers that they are
(`Value.convert_exact`), and one choice after the other keeps one that none of those before beats
(`Builtin.foldlM_better_exact`). A value that is no number meets no other value, wherever it stands
among the arguments (`Builtin.isNumeric_of_extreme`).
-/

namespace Formula

namespace Registry

/-- What the function answers that a name means for so many arguments, after the calls made
before. -/
def ask (r : Registry) (name : String) (h : History) (args : List Value) : Except Fault Value :=
  (r.resolve name args.length).bind fun f => (f.call h args).1

/-- A name with one function means that one, where it takes so many arguments. -/
theorem ask_of_overloads {r : Registry} {name : String} {f : Overload}
    (hf : r.overloads name = [f]) (h : History) (args : List Value) :
    r.ask name h args = if f.function.arity.accepts args.length then f.function.answer h args
      else .error (.kind (.noOverload name args.length)) := by
  have haccepts : (f.function.arity == .exactly args.length) = true →
      f.function.arity.accepts args.length = true := by
    intro hexact
    rw [beq_iff_eq.1 hexact, Arity.accepts, beq_self_eq_true]
  unfold ask resolve
  simp only [hf, List.isEmpty_cons, Bool.false_eq_true, if_false, List.find?_singleton]
  by_cases hexact : (f.function.arity == .exactly args.length) = true
  · simp only [hexact, haccepts hexact, if_true, Option.some_or]
    rfl
  · rw [if_neg hexact]
    cases f.function.arity.accepts args.length with
    | true => rfl
    | false => rfl

end Registry

/-- The fault, if there is one, is that kinds did not go together. -/
abbrev FaultsOfKinds {α : Type} (r : Except Fault α) : Prop := FaultsIn (fun e => e.isKind = true) r

/-! ## Kinds that meet -/

namespace Kind

/-- The kind in which numbers of exact kinds meet : decimals if there is a decimal among them, and
else the wider of the whole kinds that there are. -/
def among (ks : List Kind) : Kind :=
  if decimal ∈ ks then decimal else if long ∈ ks then long else integer

variable {k : Kind} {ks ks' : List Kind}

theorem isExact_among (ks : List Kind) : (among ks).isExact = true := by
  unfold among
  split_ifs <;> rfl

theorem among_congr (h : ∀ k, k ∈ ks ↔ k ∈ ks') : among ks = among ks' := by
  simp only [among, h]

/-- The kind in which some kinds meet may stand for them. -/
theorem among_among (ks ks' : List Kind) : among (among ks :: ks') = among (ks ++ ks') := by
  by_cases hd : decimal ∈ ks <;> by_cases hl : long ∈ ks <;> simp [among, hd, hl]

theorem promote_exact {j : Kind} (hk : k.isExact = true) (hj : j.isExact = true) :
    promote k j = .ok (among [k, j]) := by
  cases k <;> cases hk <;> cases j <;> cases hj <;> rfl

/-- A kind meets the one in which it meets others, in that one. -/
theorem promote_among (h : k ∈ ks) (hk : k.isExact = true) :
    promote k (among ks) = .ok (among ks) := by
  have hsame : among [k, among ks] = among ks := calc
    among [k, among ks] = among [among ks, k] := among_congr fun j => by simp [or_comm]
    _ = among (ks ++ [k]) := among_among ks [k]
    _ = among ks := among_congr fun j => by
      rw [List.mem_append, List.mem_singleton, or_iff_left_iff_imp]
      rintro rfl
      exact h
  rw [promote_exact hk (isExact_among ks), hsame]

/-- What kinds meet in one after the other does not depend on the order. -/
theorem foldlM_promote_exact (hk : k.isExact = true) (hks : ∀ j ∈ ks, j.isExact = true) :
    ks.foldlM promote k = .ok (among (k :: ks)) := by
  induction ks generalizing k with
  | nil => cases k <;> cases hk <;> rfl
  | cons j ks ih =>
    rw [List.forall_mem_cons] at hks
    have hrest : ks.foldlM promote (among [k, j]) = .ok (among (among [k, j] :: ks)) :=
      ih (isExact_among _) hks.2
    rw [List.foldlM_cons, promote_exact hk hks.1]
    exact hrest.trans (congrArg _ (among_among [k, j] ks))

/-- A kind that is not of numbers meets no other. -/
theorem isNumeric_of_foldlM_promote {m : Kind} (h : ks.foldlM promote k = .ok m)
    (hm : m.isNumeric = true) : ∀ j ∈ k :: ks, j.isNumeric = true := by
  induction ks generalizing k with
  | nil =>
    obtain rfl : k = m := Except.ok.inj h
    simpa using hm
  | cons j ks ih =>
    rw [List.foldlM_cons, Except.bind_eq_ok] at h
    obtain ⟨i, hi, h⟩ := h
    obtain ⟨hk, hj, -⟩ := isNumeric_of_promote hi
    have hrest := (List.forall_mem_cons.1 (ih h)).2
    exact List.forall_mem_cons.2 ⟨hk, List.forall_mem_cons.2 ⟨hj, hrest⟩⟩

theorem faultsOfKinds_promote (a b : Kind) : FaultsOfKinds (promote a b) := by
  refine ⟨fun e he => ?_⟩
  rcases promote_error he with rfl | rfl <;> rfl

end Kind

/-! ## Values in the kind in which they meet -/

namespace Value

variable {v : Value} {k : Kind}

theorem compare_eq_decide {a b : Value} (ha : a.kind.isExact = true) (hb : b.kind.isExact = true)
    (op : CompareOp) : a.compare op b = .ok (decide (op.Relates a.exact b.exact)) := by
  obtain ⟨o, ho, hcompare⟩ := exists_compares ha hb
  rw [hcompare, op.holds_eq_decide ho]

/-- A number that is taken to an exact kind in which it meets stays the number that it is. -/
theorem convert_exact (hk : k.isExact = true) (h : Kind.promote v.kind k = .ok k) :
    ∃ w, v.convert k = .ok w ∧ w.kind = k ∧ w.exact = v.exact := by
  unfold convert
  by_cases hvk : v.kind = k
  · exact ⟨v, if_pos hvk, hvk, rfl⟩
  rw [if_neg hvk, h]
  simp only [if_pos]
  cases k with
  | integer => exact absurd (Kind.eq_integer_of_promote h).1 hvk
  | long =>
    have hwhole : v.kind.isWhole = true := by
      cases hv : v.kind <;> first | rfl | (rw [hv] at h; cases h)
    exact ⟨_, rfl, rfl, by rw [exact_of_isWhole hwhole, ← toInt_whole]; rfl⟩
  | decimal => exact ⟨_, rfl, rfl, rational_toDecimal v⟩
  | float | double | boolean | string | null => cases hk

theorem faultsOfKinds_convert (v : Value) (k : Kind) : FaultsOfKinds (v.convert k) := by
  unfold convert
  split
  · exact .ok _
  cases hp : Kind.promote v.kind k with
  | error e => exact .error ((Kind.faultsOfKinds_promote _ _).fault e hp)
  | ok j =>
    simp only
    split
    · cases k <;> exact .ok _
    · exact .error rfl

theorem faultsOfKinds_compare (op : CompareOp) (a b : Value) : FaultsOfKinds (a.compare op b) := by
  cases hab : a.isNumeric && b.isNumeric with
  | true =>
    rw [compare_of_isNumeric hab]
    cases hp : Kind.promote a.kind b.kind with
    | error e =>
      rw [align_of_promote_error hp]
      exact .error ((Kind.faultsOfKinds_promote _ _).fault e hp)
    | ok k =>
      obtain ⟨p, hp, -⟩ := align_spec hp
      rw [hp]
      exact .ok _
  | false =>
    rcases @compare_of_not_isNumeric op a b hab with ⟨⟨c, hc⟩, -⟩ | ⟨hc, -⟩
    · exact hc ▸ .ok c
    · exact hc ▸ .error rfl

end Value

/-! ## One choice after the other -/

namespace CompareOp

/-- The operator asks for the smaller of two numbers, or for the greater. -/
def IsStrict (op : CompareOp) : Prop := op = lt ∨ op = gt

variable {op : CompareOp} {α : Type} [LinearOrder α] {a b c : α}

theorem IsStrict.irrefl (hop : op.IsStrict) (a : α) : ¬ op.Relates a a := by
  rcases hop with rfl | rfl
  · exact lt_irrefl a
  · exact lt_irrefl a

theorem IsStrict.asymm (hop : op.IsStrict) (h : op.Relates a b) : ¬ op.Relates b a := by
  rcases hop with rfl | rfl
  · exact lt_asymm h
  · exact lt_asymm h

/-- What does not beat a number does not beat one that is no worse. -/
theorem IsStrict.not_trans (hop : op.IsStrict) (hab : ¬ op.Relates a b)
    (hbc : ¬ op.Relates b c) : ¬ op.Relates a c := by
  rcases hop with rfl | rfl
  · exact not_lt.2 ((not_lt.1 hbc).trans (not_lt.1 hab))
  · exact not_lt.2 ((not_lt.1 hab).trans (not_lt.1 hbc))

end CompareOp

namespace Builtin

variable {op : CompareOp} {k : Kind} {v best w : Value} {vs args : List Value} {h : History}

/-- The value is one of the numbers, in the kind in which all of them meet, and the operator holds
of none of them and this one. -/
structure IsBest (op : CompareOp) (args : List Value) (w : Value) : Prop where
  kind : w.kind = Kind.among (args.map Value.kind)
  mem : w.exact ∈ args.map Value.exact
  unbeaten : ∀ q ∈ args.map Value.exact, ¬ op.Relates q w.exact

theorem better_exact (op : CompareOp) (hk : k.isExact = true) (hbest : best.kind = k)
    (hv : Kind.promote v.kind k = .ok k) :
    ∃ w, better op k best v = .ok w ∧ w.kind = k ∧
      w.exact = if op.Relates v.exact best.exact then v.exact else best.exact := by
  obtain ⟨u, hu, hukind, huexact⟩ := Value.convert_exact hk hv
  have hcompare := Value.compare_eq_decide (hukind ▸ hk) (hbest ▸ hk) op
  rw [huexact] at hcompare
  unfold better
  simp only [hu, hcompare, decide_eq_true_eq]
  by_cases hbeats : op.Relates v.exact best.exact
  · exact ⟨u, by rw [if_pos hbeats], hukind, by rw [if_pos hbeats, huexact]⟩
  · exact ⟨best, by rw [if_neg hbeats], hbest, by rw [if_neg hbeats]⟩

/-- The number that is kept is one of those that came by, and none of them beats it. -/
theorem foldlM_better_exact (hop : op.IsStrict) (hk : k.isExact = true) (hbest : best.kind = k)
    (hvs : ∀ v ∈ vs, Kind.promote v.kind k = .ok k) :
    ∃ w, vs.foldlM (better op k) best = .ok w ∧ w.kind = k ∧
      w.exact ∈ best.exact :: vs.map Value.exact ∧
      ∀ q ∈ best.exact :: vs.map Value.exact, ¬ op.Relates q w.exact := by
  induction vs generalizing best with
  | nil => exact ⟨best, rfl, hbest, by simp, by simpa using hop.irrefl best.exact⟩
  | cons v vs ih =>
    rw [List.forall_mem_cons] at hvs
    obtain ⟨u, hu, hukind, huexact⟩ := better_exact op hk hbest hvs.1
    obtain ⟨w, hw, hwkind, hwmem, hwbest⟩ := ih hukind hvs.2
    rw [List.forall_mem_cons] at hwbest
    -- the choice is one of the two, and neither of them beats it
    have hchoice : u.exact ∈ [best.exact, v.exact] ∧ ¬ op.Relates best.exact u.exact ∧
        ¬ op.Relates v.exact u.exact := by
      rw [huexact]
      split
      · exact ⟨by simp, hop.asymm ‹_›, hop.irrefl _⟩
      · exact ⟨by simp, hop.irrefl _, ‹_›⟩
    obtain ⟨humem, hbestu, hvu⟩ := hchoice
    refine ⟨w, ?_, hwkind, ?_, ?_⟩
    · rw [List.foldlM_cons, hu]
      exact hw
    · rw [List.mem_cons] at hwmem
      rcases hwmem with hwu | hwvs
      · rw [← hwu] at humem
        exact List.mem_append_left (vs.map Value.exact) humem
      · exact List.mem_append_right [best.exact, v.exact] hwvs
    · rw [List.map_cons, List.forall_mem_cons, List.forall_mem_cons]
      exact ⟨hop.not_trans hbestu hwbest.1, hop.not_trans hvu hwbest.1, hwbest.2⟩

theorem meetAll_eq (v : Value) (vs : List Value) :
    meetAll v vs = (vs.map Value.kind).foldlM Kind.promote v.kind := by
  rw [meetAll, List.foldlM_map]

/-- Exact numbers have a best one. -/
theorem isBest_extreme (hop : op.IsStrict) (hne : args ≠ [])
    (hargs : ∀ v ∈ args, v.kind.isExact = true) :
    ∃ w, extreme op args = .ok w ∧ IsBest op args w := by
  obtain ⟨v, vs, rfl⟩ := List.exists_cons_of_ne_nil hne
  have hkinds := List.forall_mem_cons.1 hargs
  have hmeet : meetAll v vs = .ok (Kind.among ((v :: vs).map Value.kind)) := by
    rw [meetAll_eq, Kind.foldlM_promote_exact hkinds.1 (List.forall_mem_map.2 hkinds.2)]
    rfl
  have hpromote : ∀ u ∈ v :: vs, Kind.promote u.kind (Kind.among ((v :: vs).map Value.kind)) =
      .ok (Kind.among ((v :: vs).map Value.kind)) :=
    fun u hu => Kind.promote_among (List.mem_map_of_mem hu) (hargs u hu)
  have hexact : (Kind.among ((v :: vs).map Value.kind)).isExact = true := Kind.isExact_among _
  have hnumeric : (Kind.among ((v :: vs).map Value.kind)).isNumeric = true :=
    (Kind.isNumeric_of_promote (hpromote v (by simp))).2.1
  rw [List.forall_mem_cons] at hpromote
  obtain ⟨u, hu, hukind, huexact⟩ := Value.convert_exact hexact hpromote.1
  obtain ⟨w, hw, hwkind, hwmem, hwbest⟩ := foldlM_better_exact hop hexact hukind hpromote.2
  rw [huexact, ← List.map_cons] at hwmem hwbest
  refine ⟨w, ?_, hwkind, hwmem, hwbest⟩
  rw [extreme, bestOf, hmeet]
  simp only [hnumeric, hu, Bool.not_true, Bool.false_eq_true, if_false]
  exact hw

theorem IsBest.isLeast (hw : IsBest .lt args w) :
    IsLeast {q | q ∈ args.map Value.exact} w.exact :=
  ⟨hw.mem, fun q hq => not_lt.1 (hw.unbeaten q hq)⟩

theorem IsBest.isGreatest (hw : IsBest .gt args w) :
    IsGreatest {q | q ∈ args.map Value.exact} w.exact :=
  ⟨hw.mem, fun q hq => not_lt.1 (hw.unbeaten q hq)⟩

theorem clamp_eq (x low high : Value) :
    clamp [x, low, high] = (extreme .gt [x, low]).bind fun w => extreme .lt [w, high] := by
  have htake : [x, low, high].take 2 = [x, low] := rfl
  rw [clamp, htake]
  cases extreme .gt [x, low] with
  | error e => rfl
  | ok w => rfl

/-- A number is first held above the low one, and then below the high one. -/
theorem clamp_exact {x low high : Value} (hargs : ∀ v ∈ [x, low, high], v.kind.isExact = true) :
    ∃ w, clamp [x, low, high] = .ok w ∧ w.kind = Kind.among ([x, low, high].map Value.kind) ∧
      w.exact = min (max x.exact low.exact) high.exact := by
  have hpair : ∀ a b : ℚ, {q | q ∈ [a, b]} = ({a, b} : Set ℚ) := fun a b => by ext q; simp
  simp only [List.forall_mem_cons] at hargs
  obtain ⟨hx, hlow, hhigh, -⟩ := hargs
  obtain ⟨u, hu, hubest⟩ : ∃ u, extreme .gt [x, low] = .ok u ∧ IsBest .gt [x, low] u :=
    isBest_extreme (.inr rfl) (by simp) (by simp [hx, hlow])
  have hukind : u.kind.isExact = true := hubest.kind ▸ Kind.isExact_among _
  have huexact : u.exact = max x.exact low.exact :=
    (hpair _ _ ▸ hubest.isGreatest).unique isGreatest_pair
  obtain ⟨w, hw, hwbest⟩ : ∃ w, extreme .lt [u, high] = .ok w ∧ IsBest .lt [u, high] w :=
    isBest_extreme (.inl rfl) (by simp) (by simp [hukind, hhigh])
  have hwexact : w.exact = min u.exact high.exact :=
    (hpair _ _ ▸ hwbest.isLeast).unique isLeast_pair
  refine ⟨w, ?_, ?_, huexact ▸ hwexact⟩
  · rw [clamp_eq, hu]
    exact hw
  · rw [hwbest.kind, List.map_cons, hubest.kind]
    exact Kind.among_among [x.kind, low.kind] [high.kind]

/-! ## Values that are no numbers -/

theorem faultsOfKinds_better (op : CompareOp) (k : Kind) (best v : Value) :
    FaultsOfKinds (better op k best v) := by
  unfold better
  cases hu : v.convert k with
  | error e => exact .error ((Value.faultsOfKinds_convert v k).fault e hu)
  | ok u =>
    simp only
    cases hc : u.compare op best with
    | error e => exact .error ((Value.faultsOfKinds_compare op u best).fault e hc)
    | ok c => exact .ok _

theorem faultsOfKinds_extreme (op : CompareOp) (args : List Value) :
    FaultsOfKinds (extreme op args) := by
  cases args with
  | nil => exact .error rfl
  | cons v vs =>
    have hmeet : FaultsOfKinds (meetAll v vs) := by
      rw [meetAll_eq]
      exact .foldlM Kind.faultsOfKinds_promote _ _
    rw [extreme, bestOf]
    cases hk : meetAll v vs with
    | error e => exact .error (hmeet.fault e hk)
    | ok k =>
      simp only
      split
      · exact .error rfl
      cases hu : v.convert k with
      | error e => exact .error ((Value.faultsOfKinds_convert v k).fault e hu)
      | ok u => exact .foldlM (faultsOfKinds_better op k) vs u

/-- Only numbers have a best one. -/
theorem isNumeric_of_extreme (hw : extreme op args = .ok w) : ∀ v ∈ args, v.isNumeric = true := by
  cases args with
  | nil => cases hw
  | cons v vs =>
    have hbest : bestOf op v vs = .ok w := hw
    have hmeet := meetAll_of_bestOf hbest
    have hnumeric : w.kind.isNumeric = true := by
      rw [bestOf, hmeet] at hbest
      by_contra hnot
      simp only [Bool.eq_false_of_not_eq_true hnot, Bool.not_false, if_true] at hbest
      cases hbest
    rw [meetAll_eq] at hmeet
    have hkinds := List.forall_mem_cons.1 (Kind.isNumeric_of_foldlM_promote hmeet hnumeric)
    exact List.forall_mem_cons.2 ⟨hkinds.1, List.forall_mem_map.1 hkinds.2⟩

/-- Where an argument is no number, wherever it stands, the function fails with a kind fault. -/
def RefusesOthers (f : List Value → Except Fault Value) : Prop :=
  ∀ args, (∃ v ∈ args, v.isNumeric = false) → ∃ e, f args = .error e ∧ e.isKind = true

theorem refusesOthers_extreme (op : CompareOp) : RefusesOthers (extreme op) := by
  rintro args ⟨v, hv, hnot⟩
  cases hw : extreme op args with
  | ok w => exact absurd (isNumeric_of_extreme hw v hv) (by simp [hnot])
  | error e => exact ⟨e, rfl, (faultsOfKinds_extreme op args).fault e hw⟩

/-! ## Calls by name -/

/-- The name means the function that takes the best of its arguments. -/
def MeansBest (name : String) (op : CompareOp) : Prop :=
  ∃ number, Registry.builtins.overloads name = [⟨number, pureFunction (.atLeast 1) (extreme op)⟩]

theorem meansBest_min : MeansBest "min" .lt := ⟨1, rfl⟩

theorem meansBest_max : MeansBest "max" .gt := ⟨2, rfl⟩

theorem MeansBest.ask {name : String} (hname : MeansBest name op) (hne : args ≠ []) :
    Registry.builtins.ask name h args = extreme op args := by
  obtain ⟨number, hname⟩ := hname
  rw [Registry.ask_of_overloads hname]
  exact if_pos (decide_eq_true (List.length_pos_iff.2 hne))

theorem MeansBest.refusesOthers {name : String} (hname : MeansBest name op) (h : History) :
    RefusesOthers (Registry.builtins.ask name h) := by
  rintro args ⟨v, hv, hnot⟩
  rw [hname.ask (List.ne_nil_of_mem hv)]
  exact refusesOthers_extreme op args ⟨v, hv, hnot⟩

theorem ask_clamp (h : History) (args : List Value) :
    Registry.builtins.ask "clamp" h args =
      if args.length = 3 then clamp args else .error (.kind (.noOverload "clamp" args.length)) := by
  have hname : Registry.builtins.overloads "clamp" = [⟨3, pureFunction (.exactly 3) clamp⟩] := rfl
  rw [Registry.ask_of_overloads hname]
  simp only [pureFunction, Arity.accepts, beq_iff_eq]

theorem refusesOthers_clamp (h : History) : RefusesOthers (Registry.builtins.ask "clamp" h) := by
  rintro args ⟨v, hv, hnot⟩
  rw [ask_clamp]
  by_cases hlen : args.length = 3
  case neg => exact ⟨_, if_neg hlen, rfl⟩
  obtain ⟨x, low, high, rfl⟩ := List.length_eq_three.1 hlen
  rw [if_pos hlen, clamp_eq]
  cases hw : extreme .gt [x, low] with
  | error e => exact ⟨e, rfl, (faultsOfKinds_extreme .gt [x, low]).fault e hw⟩
  | ok w =>
    -- the first two have a best one, and so it is the third that is no number
    have hnumeric := isNumeric_of_extreme hw
    have hhigh : high.isNumeric = false := by
      have hmem : v ∈ [x, low] ∨ v = high := by simpa [or_assoc] using hv
      rcases hmem with hmem | rfl
      · exact absurd (hnumeric v hmem) (by simp [hnot])
      · exact hnot
    exact refusesOthers_extreme .lt [w, high] ⟨high, by simp, hhigh⟩

/-! ## Right about exact numbers -/

/-- The function takes one number out of exact ones, in the kind in which all of them meet, and the
order in which they come makes no difference to it. -/
structure Takes (extremal : Set ℚ → ℚ → Prop) (f : List Value → Except Fault Value) : Prop where
  exact : ∀ args, args ≠ [] → (∀ v ∈ args, v.kind.isExact = true) →
    ∃ w, f args = .ok w ∧ w.kind = Kind.among (args.map Value.kind) ∧
      extremal {q | q ∈ args.map Value.exact} w.exact
  perm : ∀ args args', args.Perm args' → args ≠ [] → (∀ v ∈ args, v.kind.isExact = true) →
    ∃ w w', f args = .ok w ∧ f args' = .ok w' ∧ w'.kind = w.kind ∧ w'.exact = w.exact

/-- The function holds its first argument between the other two, in the kind in which all three
of them meet. -/
def Clamps (f : List Value → Except Fault Value) : Prop :=
  ∀ x low high : Value, (∀ v ∈ [x, low, high], v.kind.isExact = true) →
    ∃ w, f [x, low, high] = .ok w ∧ w.kind = Kind.among ([x, low, high].map Value.kind) ∧
      (low.exact ≤ high.exact →
        (low.exact ≤ x.exact → x.exact ≤ high.exact → w.exact = x.exact) ∧
        (x.exact < low.exact → w.exact = low.exact) ∧
        (high.exact < x.exact → w.exact = high.exact))

theorem MeansBest.takes {name : String} {extremal : Set ℚ → ℚ → Prop} (hname : MeansBest name op)
    (hop : op.IsStrict)
    (hbest : ∀ args w, IsBest op args w → extremal {q | q ∈ args.map Value.exact} w.exact)
    (hunique : ∀ s p q, extremal s p → extremal s q → p = q) (h : History) :
    Takes extremal (Registry.builtins.ask name h) := by
  have hexact : ∀ args, args ≠ [] → (∀ v ∈ args, v.kind.isExact = true) →
      ∃ w, Registry.builtins.ask name h args = .ok w ∧
        w.kind = Kind.among (args.map Value.kind) ∧
          extremal {q | q ∈ args.map Value.exact} w.exact := by
    intro args hne hargs
    obtain ⟨w, hw, hwbest⟩ := isBest_extreme hop hne hargs
    exact ⟨w, (hname.ask hne).trans hw, hwbest.kind, hbest args w hwbest⟩
  -- the kind and the number are told by the sets of kinds and of numbers
  refine ⟨hexact, fun args args' hperm hne hargs => ?_⟩
  have hne' : args' ≠ [] := fun hnil => hne (List.Perm.eq_nil (hnil ▸ hperm))
  obtain ⟨w, hw, hwkind, hwbest⟩ := hexact args hne hargs
  obtain ⟨w', hw', hwkind', hwbest'⟩ :=
    hexact args' hne' fun v hv => hargs v (hperm.mem_iff.2 hv)
  have hset : {q | q ∈ args'.map Value.exact} = {q | q ∈ args.map Value.exact} :=
    Set.ext fun q => (hperm.map Value.exact).mem_iff.symm
  rw [hset] at hwbest'
  refine ⟨w, w', hw, hw', ?_, hunique _ _ _ hwbest' hwbest⟩
  rw [hwkind, hwkind']
  exact Kind.among_congr fun k => (hperm.map Value.kind).mem_iff.symm

theorem clamps_clamp (h : History) : Clamps (Registry.builtins.ask "clamp" h) := by
  intro x low high hargs
  obtain ⟨w, hw, hwkind, hwexact⟩ := clamp_exact hargs
  refine ⟨w, (ask_clamp h _).trans hw, hwkind, fun hle => ⟨fun hlow hhigh => ?_, fun hlow => ?_,
    fun hhigh => ?_⟩⟩
  · rw [hwexact, max_eq_left hlow, min_eq_left hhigh]
  · rw [hwexact, max_eq_right hlow.le, min_eq_left hle]
  · rw [hwexact, max_eq_left (hle.trans hhigh.le), min_eq_right hhigh.le]

/-- The functions `min`, `max` and `clamp` that are always there are right about whole numbers and
decimals : they come to the least, the greatest and the held number, in the kind in which all the
arguments meet. Where an argument is no number they fail with a kind fault. -/
theorem extremes_exact (h : History) :
    Takes IsLeast (Registry.builtins.ask "min" h) ∧
    Takes IsGreatest (Registry.builtins.ask "max" h) ∧
    Clamps (Registry.builtins.ask "clamp" h) ∧
    ∀ name ∈ ["min", "max", "clamp"], RefusesOthers (Registry.builtins.ask name h) := by
  have hmin : Takes IsLeast (Registry.builtins.ask "min" h) :=
    meansBest_min.takes (.inl rfl) (fun _ _ => IsBest.isLeast) (fun _ _ _ hp hq => hp.unique hq) h
  have hmax : Takes IsGreatest (Registry.builtins.ask "max" h) :=
    meansBest_max.takes (.inr rfl) (fun _ _ => IsBest.isGreatest)
      (fun _ _ _ hp hq => hp.unique hq) h
  refine ⟨hmin, hmax, clamps_clamp h, ?_⟩
  simp only [List.forall_mem_cons]
  exact ⟨meansBest_min.refusesOthers h, meansBest_max.refusesOthers h, refusesOthers_clamp h,
    by simp⟩

/-- Three numbers of three kinds, two of which are equal. The least one comes as a decimal, and a
text among the numbers is refused. -/
theorem extremes_exact_across_kinds :
    ∃ w, Registry.builtins.ask "min" []
        [.long 7, .integer (-3), .decimal ⟨true, 300, 2, by decide, by decide⟩] = .ok w ∧
      w.kind = .decimal ∧ w.exact = -3 ∧
      ∃ e, Registry.builtins.ask "max" [] [.long 7, .string "7", .integer (-3)] = .error e ∧
        e.isKind = true := by
  have hall := extremes_exact []
  obtain ⟨w, hw, hkind, hleast⟩ := hall.1.exact
    [.long 7, .integer (-3), .decimal ⟨true, 300, 2, by decide, by decide⟩] (by simp) (by decide)
  have hnumbers : [.long 7, .integer (-3), .decimal ⟨true, 300, 2, by decide, by decide⟩].map
      Value.exact = [7, -3, -3] := by
    simp [Value.exact, Value.number, Decimal.rational, Decimal.signed]
    norm_num
  rw [hnumbers] at hleast
  refine ⟨w, hw, hkind, ?_, hall.2.2.2 "max" (by decide) _ ⟨.string "7", by simp, rfl⟩⟩
  exact hleast.unique ⟨by simp, by norm_num [lowerBounds]⟩

end Builtin

end Formula

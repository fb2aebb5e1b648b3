import Formula.Proofs.Optimizing

/-!
# Failures of optimized trees

The first run of a tree that was optimized comes to the same as that of the tree it was made
from, a value or a fault, and leaves the same variables (`Compiler.execute_compile_eq`). Each
step of optimizing leads to a tree that matches (`Node.Rewrites.matches`).

Two things are asked for. No operand of `&&` and `||` on the right is fixed to the value that
decides, since it makes the left one go away with its faults. And no statement before a `;` that
optimizing turns into a fixed tree fails with one and the same fault wherever it is run : such a
statement goes away, also if its value is a fault that no run of it brought up while compiling
(`Compiler.execute_compile_ne_of_dropped`).
-/

namespace Formula

variable {ctx : BuildContext}

namespace Term

/-- The right operand of `&&` and `||` is not fixed to the value that decides. -/
def Undecided (ctx : BuildContext) : Term → Prop
  | logic op _ r => ¬ctx.Decides op r
  | _ => True

end Term

namespace Node

variable {n m l r a b : Node} {op : Connective} {env env₁ : Env}

/-! ## Operands that go away -/

theorem kind?_of_answer_ok {v : Value} (h : (n.answer env).result = .ok v) :
    n.kind? = none ∨ n.kind? = some v.kind :=
  kind?_of_execute_ok (execute_eq_iff.2 ⟨h, rfl, rfl⟩)

theorem kind_of_kind? {k : Kind} {v : Value} (hk : n.kind? = some k)
    (h : (n.answer env).result = .ok v) : v.kind = k := by
  rcases kind?_of_answer_ok h with hnone | hsome
  · simp [hk] at hnone
  · exact Option.some.inj (hsome.symm.trans hk)

/-- A sign `+` in front of a number may go away. -/
theorem answer_sign_plus (hnum : ∀ v, (a.answer env).result = .ok v → v.isNumeric = true) :
    (sign .plus a (.ofKind (a.kind?.filter Kind.isNumeric))).answer env = a.answer env := by
  rw [answer_sign]
  have hkind : ∀ v, (a.answer env).result = .ok v → a.kind? = none ∨ a.kind? = some v.kind :=
    fun v hv => kind?_of_answer_ok hv
  generalize a.answer env = x at *
  rcases x with ⟨e | v, env'⟩
  · rfl
  · have hv : v.kind.isNumeric = true := hnum v rfl
    refine Answer.fitting_eq_ok.2 ⟨Answer.pass_eq_ok.2 ⟨v, rfl, if_pos hv⟩, ?_⟩
    rcases hkind v rfl with hk | hk
    · exact .inl (by simp [Slot.ofKind, hk])
    · exact .inr (by simp [Slot.ofKind, hk, Option.filter, hv])

/-- A left operand that decides keeps the right one from being run. -/
theorem answer_logic_decided (hl : l.answer env = ⟨.ok (.boolean op.absorbing), env₁⟩) :
    (logic op l r (.ofKind (some .boolean))).answer env =
      ⟨.ok (.boolean op.absorbing), env₁⟩ := by
  rw [answer_logic, hl]
  refine Answer.fitting_eq_ok.2 ⟨?_, .inr rfl⟩
  exact Answer.andThen_eq_ok.2 ⟨op.absorbing, env₁, rfl, if_pos rfl⟩

/-- A left operand that does not decide may go away, if the right one comes to truth values. -/
theorem answer_logic_right (hl : l.answer env = ⟨.ok (.boolean op.identity), env₁⟩)
    (hr : ∀ v, (r.answer env₁).result = .ok v → v.kind = .boolean) :
    (logic op l r (.ofKind (some .boolean))).answer env = r.answer env₁ := by
  have hpass : (l.answer env).pass (Value.asBool op.symbol) = ⟨.ok op.identity, env₁⟩ := by
    rw [hl]
    rfl
  rw [answer_logic, hpass, Answer.andThen_ok rfl, if_neg op.identity_ne_absorbing]
  generalize r.answer env₁ = x at *
  rcases x with ⟨e | v, env'⟩
  · rfl
  · obtain ⟨c, hc⟩ := Value.asBool_of_kind (hr v rfl) op.symbol
    obtain rfl := Value.asBool_eq_ok.1 hc
    exact Answer.fitting_eq_ok.2 ⟨rfl, .inr rfl⟩

/-- A right operand that does not decide may go away, if the left one comes to truth values. -/
theorem answer_logic_left (hl : ∀ v, (l.answer env).result = .ok v → v.kind = .boolean)
    (hr : (r.answer (l.answer env).env).result = .ok (.boolean op.identity)) :
    ((logic op l r (.ofKind (some .boolean))).answer env).result = (l.answer env).result ∧
      (((logic op l r (.ofKind (some .boolean))).answer env).env = (l.answer env).env ∨
        ((logic op l r (.ofKind (some .boolean))).answer env).env =
          (r.answer (l.answer env).env).env) := by
  rw [answer_logic]
  generalize l.answer env = x at *
  rcases x with ⟨e | v, env'⟩
  · exact ⟨rfl, .inl rfl⟩
  · obtain ⟨c, hc⟩ := Value.asBool_of_kind (hl v rfl) op.symbol
    obtain rfl := Value.asBool_eq_ok.1 hc
    have hpass : Answer.pass ⟨.ok (.boolean c), env'⟩ (Value.asBool op.symbol) =
      ⟨.ok c, env'⟩ := rfl
    rw [hpass, Answer.andThen_ok rfl]
    by_cases hcase : c = op.absorbing
    · rw [if_pos hcase]
      exact ⟨rfl, .inl rfl⟩
    · rw [if_neg hcase]
      obtain rfl : c = op.identity := Bool.eq_not_of_ne hcase
      generalize r.answer env' = y at *
      rcases y with ⟨e | w, env''⟩
      · simp at hr
      · obtain rfl := Except.ok.inj hr
        exact ⟨rfl, .inr rfl⟩

/-- A statement that comes to a value may go away. -/
theorem answer_sequence_right {v : Value} (ha : a.answer env = ⟨.ok v, env₁⟩) :
    (sequence a b (.ofKind b.kind?)).answer env = b.answer env₁ := by
  rw [answer_sequence, ha, Answer.andThen_ok rfl]
  exact Answer.fitting_of_admits fun w hw => kind?_of_answer_ok hw

/-! ## Each step matches -/

/-- A statement before another one that optimizing turns into a fixed tree does not fail with one
and the same fault wherever it is run. -/
def Lively (ctx : BuildContext) (n : Node) : Prop :=
  ∀ a b s, Inside (sequence a b s) n → ∀ env a', ctx.ConstantValues env.scope →
    (a.optimize env).result = .ok a' → a'.isPrecomputable = true →
      ∀ e, ∃ env', ctx.ConstantValues env'.scope ∧ (a.answer env').result ≠ .error e

/-- A fixed operand leaves surroundings that no formula can tell from those before. -/
theorem FixedTo.exists_answer (hpure : ctx.registry.PureAnswers) {v : Value}
    (h : n.FixedTo ctx (.ok v)) {env' : Env} (henv : ctx.Twins env env') :
    ∃ env₁, n.answer env = ⟨.ok v, env₁⟩ ∧ ctx.Twins env₁ env' := by
  have hresult := h.result hpure henv.values
  refine ⟨(n.answer env).env, by rw [← hresult], henv.trans_left ?_⟩
  exact alike_answer h.clean h.fixed

namespace Matches

/-- A tree that matches a fixed one matches its value. -/
theorem folded (hpure : ctx.registry.PureAnswers) {v : Value} (h : n.Matches ctx.Twins m)
    (hv : m.FixedTo ctx (.ok v)) : n.Matches ctx.Twins (.literal v) := by
  intro env env' henv
  have hm := h env env' henv
  rw [answer_literal]
  refine ⟨?_, hm.env.trans (alike_answer hv.clean hv.fixed).symm⟩
  rw [← hm.result, hv.result hpure henv.right]

/-- A sign `+` in front of a number matches it. -/
theorem unsigned (ha : a.Matches ctx.Twins m) (hnum : m.isNumeric = true) :
    (Node.sign .plus a (.ofKind (a.kind?.filter Kind.isNumeric))).Matches ctx.Twins m := by
  intro env env' henv
  rw [answer_sign_plus fun v hv => ?_]
  · exact ha env env' henv
  · obtain ⟨k, hk, hknum⟩ := (Option.any_eq_true _ _).1 hnum
    have hkind := kind_of_kind? hk ((ha env env' henv).result.trans hv)
    rw [Value.isNumeric, hkind]
    exact hknum

theorem decided (hpure : ctx.registry.PureAnswers)
    (hl : l.FixedTo ctx (.ok (.boolean op.absorbing))) :
    (Node.logic op l r (.ofKind (some .boolean))).Matches ctx.Twins
      (.literal (.boolean op.absorbing)) := by
  intro env env' henv
  obtain ⟨env₁, hl, henv₁⟩ := hl.exists_answer hpure henv
  rw [answer_logic_decided hl, answer_literal]
  exact ⟨rfl, henv₁⟩

theorem onlyRight (hpure : ctx.registry.PureAnswers)
    (hl : l.FixedTo ctx (.ok (.boolean op.identity))) (hr : r.Matches ctx.Twins m)
    (hm : m.kind? = some .boolean) :
    (Node.logic op l r (.ofKind (some .boolean))).Matches ctx.Twins m := by
  intro env env' henv
  obtain ⟨env₁, hl, henv₁⟩ := hl.exists_answer hpure henv
  rw [answer_logic_right hl fun v hv => kind_of_kind? hm ((hr _ _ henv₁).result.trans hv)]
  exact hr env₁ env' henv₁

theorem onlyLeft (hpure : ctx.registry.PureAnswers) (hl : l.Matches ctx.Twins m)
    (hm : m.kind? = some .boolean) (hr : r.FixedTo ctx (.ok (.boolean op.identity))) :
    (Node.logic op l r (.ofKind (some .boolean))).Matches ctx.Twins m := by
  intro env env' henv
  obtain ⟨hresult, henv₁⟩ := hl env env' henv
  obtain ⟨env₂, hr, henv₂⟩ := hr.exists_answer hpure henv₁
  obtain ⟨hsame, henvs⟩ := answer_logic_left
    (fun v hv => kind_of_kind? hm (hresult.trans hv)) (congrArg Answer.result hr)
  refine ⟨hresult.trans hsame.symm, ?_⟩
  rcases henvs with h | h
  · rwa [h]
  · rwa [h, hr]

/-- A statement may go away if what is left of it is fixed, and it does not fail everywhere. -/
theorem onlySecond (hpure : ctx.registry.PureAnswers) {a' : Node} (ha : a.Matches ctx.Twins a')
    (hclean : a'.term.Forall (Term.Clean ctx)) (hpre : a'.isPrecomputable = true)
    (hlive : ∀ e, ∃ env, ctx.ConstantValues env.scope ∧ (a.answer env).result ≠ .error e)
    (hb : b.Matches ctx.Twins m) :
    (Node.sequence a b (.ofKind b.kind?)).Matches ctx.Twins m := by
  intro env env' henv
  obtain ⟨hresult, henv₁⟩ := ha env env' henv
  have halike : Env.Alike ctx.registry env' (a'.answer env').env := alike_answer hclean hpre
  cases hres : (a.answer env).result with
  | error e =>
    -- what is left of the statement would come to this fault everywhere, and so the statement
    obtain ⟨env₂, henv₂, hne⟩ := hlive e
    refine (hne ?_).elim
    rw [← (ha env₂ env₂ (.refl henv₂)).result, answer_fixed hpure hclean hpre henv.right henv₂,
      hresult, hres]
  | ok v =>
    have hanswer : a.answer env = ⟨.ok v, (a.answer env).env⟩ := by rw [← hres]
    rw [answer_sequence_right hanswer]
    exact hb _ _ (henv₁.trans halike.symm)

end Matches

/-- A clean tree matches itself. -/
theorem matches_self (hlawful : ctx.registry.Lawful) (hclean : n.term.Forall (Term.Clean ctx)) :
    n.Matches ctx.Twins n :=
  .of_keepsBoth fun t ht => (hclean t ht).keepsBoth hlawful

/-- A fixed operand that was run while compiling matches what it was. -/
theorem Stuck.matches (hlawful : ctx.registry.Lawful) (h : Stuck ctx n m) :
    n.Matches ctx.Twins m := by
  obtain ⟨env₀, henv₀, rfl⟩ := h.ran
  intro env env' henv
  rw [(matches_execute_fixed hlawful.pure_answer h.clean h.fixed henv₀).answer_eq henv.right]
  exact matches_self hlawful h.clean env env' henv

/-- What optimizing makes of a tree matches it. -/
theorem Rewrites.matches (hlawful : ctx.registry.Lawful) (h : Rewrites ctx n m)
    (hclean : n.term.Forall (Term.Clean ctx)) (hopen : n.term.Forall (Term.Undecided ctx))
    (hlive : n.Lively ctx) : n.Matches ctx.Twins m := by
  have hpure := hlawful.pure_answer
  induction h with
  | refl n => exact matches_self hlawful hclean
  | logic hl hr ihl ihr =>
    rw [term, Term.forall_logic] at hclean hopen
    exact (ihl hclean.2.1 hopen.2.1 fun a b s h => hlive a b s (.logicLeft h)).logic
      (ihr hclean.2.2 hopen.2.2 fun a b s h => hlive a b s (.logicRight h))
  | not ha ih =>
    rw [term, Term.forall_not] at hclean hopen
    exact (ih hclean.2 hopen.2 fun a b s h => hlive a b s (.not h)).not
  | sign ha ih =>
    rw [term, Term.forall_sign] at hclean hopen
    exact (ih hclean.2 hopen.2 fun a b s h => hlive a b s (.sign h)).sign
  | arith hl hr ihl ihr =>
    rw [term, Term.forall_arith] at hclean hopen
    exact (ihl hclean.2.1 hopen.2.1 fun a b s h => hlive a b s (.arithLeft h)).arith
      (ihr hclean.2.2 hopen.2.2 fun a b s h => hlive a b s (.arithRight h))
  | compare hl hr ihl ihr =>
    rw [term, Term.forall_compare] at hclean hopen
    exact (ihl hclean.2.1 hopen.2.1 fun a b s h => hlive a b s (.compareLeft h)).compare
      (ihr hclean.2.2 hopen.2.2 fun a b s h => hlive a b s (.compareRight h))
  | assign ha ih =>
    rw [term, Term.forall_assign] at hclean hopen
    exact .assign (hclean.1.keepsBoth hlawful)
      (ih hclean.2 hopen.2 fun a b s h => hlive a b s (.assign h))
  | call hlen hargs ih =>
    rw [term, terms_eq_map, Term.forall_call, List.forall_mem_map] at hclean hopen
    refine .call (hclean.1.keepsBoth hlawful) (List.forall₂_iff_zip.2 ⟨hlen, fun {a a'} hmem => ?_⟩)
    have ha := (List.of_mem_zip hmem).1
    exact ih a a' hmem (hclean.2 a ha) (hopen.2 a ha) fun a b s h => hlive a b s (.call ha h)
  | sequence ha hb iha ihb =>
    rw [term, Term.forall_sequence] at hclean hopen
    exact (iha hclean.2.1 hopen.2.1 fun a b s h => hlive a b s (.first h)).sequence
      (ihb hclean.2.2 hopen.2.2 fun a b s h => hlive a b s (.second h))
  | folded hn hv ih => exact (ih hclean hopen hlive).folded hpure hv
  | unsigned ha hnum ih =>
    rw [term, Term.forall_sign] at hclean hopen
    exact (ih hclean.2 hopen.2 fun a b s h => hlive a b s (.sign h)).unsigned hnum
  | decided h =>
    rw [term, Term.forall_logic] at hopen
    rcases h with hl | hr
    · exact .decided hpure hl
    · exact (hopen.1 hr.decides).elim
  | onlyRight hl hr hm ih =>
    rw [term, Term.forall_logic] at hclean hopen
    exact .onlyRight hpure hl
      (ih hclean.2.2 hopen.2.2 fun a b s h => hlive a b s (.logicRight h)) hm
  | onlyLeft hl hm hr ih =>
    rw [term, Term.forall_logic] at hclean hopen
    exact .onlyLeft hpure (ih hclean.2.1 hopen.2.1 fun a b s h => hlive a b s (.logicLeft h)) hm hr
  | onlySecond ha hmade hpre hb iha ihb =>
    obtain ⟨env, henv, hmade⟩ := hmade
    have hstmt := hlive _ _ _ .self env _ henv hmade hpre
    rw [term, Term.forall_sequence] at hclean hopen
    have hclean' := ha.forall_local Term.Clean.isLocal hclean.2.1
    exact .onlySecond hpure
      (iha hclean.2.1 hopen.2.1 fun a b s h => hlive a b s (.first h)) hclean' hpre hstmt
      (ihb hclean.2.2 hopen.2.2 fun a b s h => hlive a b s (.second h))
  | stuckLeft hl hr ih =>
    rw [term, Term.forall_logic] at hclean hopen
    exact (hl.matches hlawful).logic
      (ih hclean.2.2 hopen.2.2 fun a b s h => hlive a b s (.logicRight h))
  | stuckRight hl hr ih =>
    rw [term, Term.forall_logic] at hclean hopen
    exact (ih hclean.2.1 hopen.2.1 fun a b s h => hlive a b s (.logicLeft h)).logic
      (hr.matches hlawful)

end Node

namespace Compiler

/-- The first run of an optimized expression comes to the same value or the same fault as that
of the expression that was not optimized, and leaves the same variables. The functions keep
their promise, and the constants have the values that they had while compiling. No operand of
`&&` and `||` on the right is fixed to the value that decides, and no statement before a `;` that
optimizing turns into a fixed tree fails with one and the same fault wherever it is run. -/
theorem execute_compile_eq {c : Compiler} {source : String} {scope s : Scope}
    {plain optimized : Expression} {history : History} (hlawful : c.registry.Lawful)
    (hplain : c.compilePlain source scope = .ok plain)
    (hopt : (c.compile source scope history).result = .ok optimized)
    (hopen : plain.root.term.Forall (Term.Undecided ⟨c.settings, c.registry, scope⟩))
    (hlive : plain.root.Lively ⟨c.settings, c.registry, scope⟩)
    (hs : BuildContext.ConstantValues ⟨c.settings, c.registry, scope⟩ s) :
    (optimized.execute ⟨s, (c.compile source scope history).history⟩).observed =
      (plain.execute ⟨s, history⟩).observed := by
  obtain ⟨root, hroot, rfl⟩ := Except.map_eq_ok.1 hplain
  obtain ⟨es, -, hbuilt, -⟩ := build_built hroot
  have hstart : Env.Alike c.registry ⟨scope.toSealed, history⟩ ⟨scope.toSealed, history⟩ := .refl
  have hends := hbuilt.optimize_ends hlawful.pure_answer
    (BuildContext.compiling_alike fun name v _ hv => hv) hstart
  unfold compile at hopt ⊢
  rw [hroot] at hopt ⊢
  obtain ⟨m, hm, rfl⟩ := Except.map_eq_ok.1 hopt
  have hmatches := (hends.node m hm).matches hlawful hbuilt.clean hopen hlive
  obtain ⟨hresult, henv⟩ := hmatches ⟨s, history⟩
    ⟨s, (root.optimize ⟨scope.toSealed, history⟩).env.history⟩ ⟨hs, rfl, hends.env.calls⟩
  exact Prod.ext hresult henv.alike.scope

/-- A comparison of constants is gone, and the division by zero behind it still fails. -/
theorem execute_compile_eq_division :
    ∃ plain optimized,
      compilePlain ⟨Settings.standard.withConstant "k", .empty⟩ "x + 1; k == 2 && 1 / x > 0"
        (.store (.ofList [("k", .integer 2)])) = .ok plain ∧
      (compile ⟨Settings.standard.withConstant "k", .empty⟩ "x + 1; k == 2 && 1 / x > 0"
        (.store (.ofList [("k", .integer 2)])) []).result = .ok optimized ∧
      (optimized.execute ⟨.store (.ofList [("k", .integer 2), ("x", .integer 0)]),
          (compile ⟨Settings.standard.withConstant "k", .empty⟩ "x + 1; k == 2 && 1 / x > 0"
            (.store (.ofList [("k", .integer 2)])) []).history⟩).observed =
        (plain.execute
          ⟨.store (.ofList [("k", .integer 2), ("x", .integer 0)]), []⟩).observed ∧
      (plain.execute ⟨.store (.ofList [("k", .integer 2), ("x", .integer 0)]), []⟩).result =
        .error (.runtime (.divisionByZero .div)) := by
  have hplain : (compilePlain ⟨Settings.standard.withConstant "k", .empty⟩
      "x + 1; k == 2 && 1 / x > 0" (.store (.ofList [("k", .integer 2)]))).map
        (fun e => (e.root, (e.execute
          ⟨.store (.ofList [("k", .integer 2), ("x", .integer 0)]), []⟩).result)) =
      .ok (.sequence (.arith .add (.read "x" false (.ofKind none)) (.literal (.integer 1))
            (.ofKind none))
          (.logic .and
            (.compare .eq (.read "k" true (.ofKind (some .integer))) (.literal (.integer 2))
              (.ofKind (some .boolean)))
            (.compare .gt
              (.arith .div (.literal (.integer 1)) (.read "x" false (.ofKind none)) (.ofKind none))
              (.literal (.integer 0)) (.ofKind (some .boolean)))
            (.ofKind (some .boolean))) (.ofKind (some .boolean)),
        .error (.runtime (.divisionByZero .div))) := by cbv
  have hopt : (compile ⟨Settings.standard.withConstant "k", .empty⟩ "x + 1; k == 2 && 1 / x > 0"
      (.store (.ofList [("k", .integer 2)])) []).result.isOk = true := by cbv
  obtain ⟨plain, hplain, hroot⟩ := Except.map_eq_ok.1 hplain
  obtain ⟨optimized, hopt⟩ := Except.isOk_iff.1 hopt
  obtain ⟨hroot, hresult⟩ := Prod.mk.inj hroot
  have hvalues : ∀ n : Int32, BuildContext.ConstantValues
      ⟨Settings.standard.withConstant "k", .empty, .store (.ofList [("k", .integer 2)])⟩
        (.store (.ofList [("k", .integer 2), ("x", .integer n)])) := by
    intro n name v hconst hv
    obtain rfl : name = "k" := by
      simpa [Settings.withConstant, Settings.isConstant, Settings.standard,
        Settings.insertName] using hconst
    obtain rfl : v = .integer 2 := (Option.some.inj hv).symm
    rfl
  refine ⟨plain, optimized, hplain, hopt,
    execute_compile_eq (.of_answers (by simp [Registry.empty])) hplain hopt ?_ ?_ (hvalues 0),
    hresult⟩
  · rw [hroot]
    simp [Node.term, Term.Undecided, BuildContext.Decides, Term.Fixed]
  · rw [hroot]
    intro a b s h _ _ _ _ _ e
    cases h with
    | self =>
      refine ⟨⟨.store (.ofList [("k", .integer 2), ("x", .integer 1)]), []⟩, hvalues 1, ?_⟩
      have hok : ((Node.arith .add (.read "x" false (.ofKind none)) (.literal (.integer 1))
        (.ofKind none)).answer ⟨.store (.ofList [("k", .integer 2), ("x", .integer 1)]),
          []⟩).result = .ok (.integer 2) := by cbv
      simp [hok]
    | first h => repeat cases ‹Node.Inside _ _›
    | second h => repeat cases ‹Node.Inside _ _›

/-- A statement that fails wherever it is run is gone. Its right operand was not fixed before
it was optimized, and so the fault never came up while compiling. -/
theorem execute_compile_ne_of_dropped :
    ∃ plain optimized,
      compilePlain standard "5 && (false && x); 1" (.store (.ofList [])) = .ok plain ∧
      (compile standard "5 && (false && x); 1" (.store (.ofList [])) []).result =
        .ok optimized ∧
      plain.root.term.Forall
        (Term.Undecided ⟨Settings.standard, .builtins, .store (.ofList [])⟩) ∧
      (plain.execute ⟨.store (.ofList []), []⟩).result =
        .error (.kind (.notBoolean "&&" .integer)) ∧
      (optimized.execute ⟨.store (.ofList []), []⟩).result = .ok (.integer 1) := by
  have hplain : (compilePlain standard "5 && (false && x); 1" (.store (.ofList []))).map
      (fun e => (e.root.term, (e.execute ⟨.store (.ofList []), []⟩).result)) =
      .ok (.sequence (.logic .and (.literal (.integer 5))
            (.logic .and (.literal (.boolean false)) (.read "x" false))) (.literal (.integer 1)),
        .error (.kind (.notBoolean "&&" .integer))) := by cbv
  have hopt : (compile standard "5 && (false && x); 1" (.store (.ofList [])) []).result.map
      (fun e => (e.execute ⟨.store (.ofList []), []⟩).result) = .ok (.ok (.integer 1)) := by cbv
  obtain ⟨plain, hplain, hrun⟩ := Except.map_eq_ok.1 hplain
  obtain ⟨optimized, hopt, hvalue⟩ := Except.map_eq_ok.1 hopt
  obtain ⟨hterm, hfault⟩ := Prod.mk.inj hrun
  refine ⟨plain, optimized, hplain, hopt, ?_, hfault, hvalue⟩
  rw [hterm]
  simp [Term.Undecided, BuildContext.Decides, Term.Fixed]

end Compiler

end Formula

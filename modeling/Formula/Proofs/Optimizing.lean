import Formula.Proofs.Rewriting
import Formula.Proofs.Sessions

/-!
# Optimized trees

A tree that was optimized follows the tree that it was made from (`Node.Built.reduces`), for
each step that optimizing takes leads to one that does (`Node.Rewrites.follows`). And so an
expression that was optimized comes to the same values and leaves the same variables, run
after run, as long as the plain expression comes to values
(`Compiler.runs_compile_eq_runs_plain`).

An operand of `&&` or `||` that is fixed and decides makes the other operand go away. If that
is the left one, its effects go with it, and so it must not have any.
-/

namespace Formula

namespace Term

variable {ctx : BuildContext} {t : Term} {env env' : Env} {w : Value}

theorem eval_logic_ok {op : Connective} {l r : Term} :
    eval (logic op l r) env = ⟨.ok w, env'⟩ ↔
      (eval l env = ⟨.ok (.boolean op.absorbing), env'⟩ ∧ w = .boolean op.absorbing) ∨
      ∃ env₁ b, eval l env = ⟨.ok (.boolean op.identity), env₁⟩ ∧
        eval r env₁ = ⟨.ok (.boolean b), env'⟩ ∧ w = .boolean b := by
  rw [eval, Answer.andThen_eq_ok]
  constructor
  · rintro ⟨b, env₁, hl, h⟩
    obtain ⟨v, hl, hv⟩ := Answer.pass_eq_ok.1 hl
    obtain rfl := Value.asBool_eq_ok.1 hv
    split at h
    · rename_i hb
      rw [Answer.mk.injEq] at h
      obtain ⟨hw, rfl⟩ := h
      rw [hb] at hl hw
      exact .inl ⟨hl, (Except.ok.inj hw).symm⟩
    · rename_i hb
      obtain ⟨c, hc, rfl⟩ := Answer.map_eq_ok.1 h
      obtain ⟨u, hu, hc⟩ := Answer.pass_eq_ok.1 hc
      obtain rfl := Value.asBool_eq_ok.1 hc
      rw [Bool.eq_not_of_ne hb] at hl
      exact .inr ⟨env₁, c, hl, hu, rfl⟩
  · rintro (⟨hl, rfl⟩ | ⟨env₁, b, hl, hr, rfl⟩)
    · exact ⟨op.absorbing, env', Answer.pass_eq_ok.2 ⟨_, hl, rfl⟩, by rw [if_pos rfl]⟩
    · refine ⟨op.identity, env₁, Answer.pass_eq_ok.2 ⟨_, hl, rfl⟩, ?_⟩
      rw [if_neg op.identity_ne_absorbing]
      exact Answer.map_eq_ok.2 ⟨b, Answer.pass_eq_ok.2 ⟨_, hr, rfl⟩, rfl⟩

/-! ## Settled terms -/

/-- What a fixed term comes to once, it comes to always. -/
theorem settles_of_fixed (hlawful : ctx.registry.Lawful) (hclean : t.Forall (Clean ctx))
    (hfixed : t.Forall Fixed) (henv : ctx.ConstantValues env.scope)
    (h : t.eval env = ⟨.ok w, env'⟩) : ctx.Settles t w := by
  intro env₁ u env₂ henv₁ h₁
  have hsame := eval_fixed hlawful.pure_answer hclean hfixed henv henv₁
  have hstill : Env.Alike ctx.registry env₁ (t.eval env₁).env :=
    eval_quiet hclean (hfixed.imp fun _ hu => hu.quiet)
  rw [h, h₁] at hsame
  rw [h₁] at hstill
  exact ⟨(Except.ok.inj hsame).symm, hstill⟩

theorem still_of_quiet (hclean : t.Forall (Clean ctx)) (hquiet : t.Forall Quiet) :
    ctx.Still t := by
  intro env u env' henv h
  have hstill : Env.Alike ctx.registry env (t.eval env).env := eval_quiet hclean hquiet
  rwa [h] at hstill

/-- An operand that decides settles the whole, if what comes before it is still. -/
theorem settles_absorbing {op : Connective} {l r : Term}
    (h : ctx.Settles l (.boolean op.absorbing) ∨
      ctx.Still l ∧ ctx.Settles r (.boolean op.absorbing)) :
    ctx.Settles (logic op l r) (.boolean op.absorbing) := by
  intro env u env' henv hu
  rcases eval_logic_ok.1 hu with ⟨hl, rfl⟩ | ⟨env₁, b, hl, hr, rfl⟩
  · rcases h with h | ⟨h, -⟩
    · exact ⟨rfl, (h env _ env' henv hl).2⟩
    · exact ⟨rfl, h env _ env' henv hl⟩
  · rcases h with h | ⟨hstill, h⟩
    · exact (op.identity_ne_absorbing (Value.boolean.inj (h env _ env₁ henv hl).1)).elim
    · have hsame := hstill env _ env₁ henv hl
      obtain ⟨hb, hsame'⟩ := h env₁ _ env' (constantValues_of_alike hsame henv) hr
      exact ⟨hb, hsame.trans hsame'⟩

/-- The left operand of `&&` and `||` neither binds a variable nor calls an impure function. -/
def QuietLeft : Term → Prop
  | logic _ l _ => l.Forall Quiet
  | _ => True

end Term

/-- The term is fixed to the truth value that decides, as an operand of the operator. -/
def BuildContext.Decides (ctx : BuildContext) (op : Connective) (t : Term) : Prop :=
  t.Forall Term.Fixed ∧ ∃ env, ctx.ConstantValues env.scope ∧
    (t.eval env).result = .ok (.boolean op.absorbing)

/-- The left operand of `&&` and `||` neither binds a variable nor calls an impure function if
the right one decides. -/
def Term.QuietBeside (ctx : BuildContext) : Term → Prop
  | logic op l r => ctx.Decides op r → l.Forall Quiet
  | _ => True

theorem Term.QuietLeft.beside {ctx : BuildContext} {t : Term} (h : t.QuietLeft) :
    t.QuietBeside ctx := by
  cases t with
  | logic op l r => exact fun _ => h
  | _ => trivial

namespace Node

variable {ctx : BuildContext} {es : List Element} {n m : Node} {env env₀ : Env}

/-- The value that a fixed tree came to settles its term. -/
theorem FixedTo.settles (hlawful : ctx.registry.Lawful) {v : Value}
    (h : n.FixedTo ctx (.ok v)) : ctx.Settles n.term v := by
  obtain ⟨env, henv, hv⟩ := h.ran
  exact Term.settles_of_fixed hlawful h.clean (isPrecomputable_iff.1 h.fixed) henv
    (eval_of_execute_ok (execute_eq_iff.2 ⟨hv, rfl, rfl⟩))

theorem FixedTo.decides {op : Connective} (h : n.FixedTo ctx (.ok (.boolean op.absorbing))) :
    ctx.Decides op n.term := by
  obtain ⟨env, henv, hv⟩ := h.ran
  exact ⟨isPrecomputable_iff.1 h.fixed, env, henv, eval_result_of_answer_ok hv⟩

/-- What optimizing makes of a tree follows it, if an operand that goes away has no effects. -/
theorem Rewrites.follows (hlawful : ctx.registry.Lawful) (h : Rewrites ctx n m)
    (hclean : n.term.Forall (Term.Clean ctx)) (hquiet : n.term.Forall (Term.QuietBeside ctx)) :
    Follows ctx n m := by
  induction h with
  | refl n => exact .refl n
  | logic hl hr ihl ihr =>
    rw [term, Term.forall_logic] at hclean hquiet
    exact .logic (ihl hclean.2.1 hquiet.2.1) (ihr hclean.2.2 hquiet.2.2)
  | not ha ih =>
    rw [term, Term.forall_not] at hclean hquiet
    exact .not (ih hclean.2 hquiet.2)
  | sign ha ih =>
    rw [term, Term.forall_sign] at hclean hquiet
    exact .sign (ih hclean.2 hquiet.2)
  | arith hl hr ihl ihr =>
    rw [term, Term.forall_arith] at hclean hquiet
    exact .arith (ihl hclean.2.1 hquiet.2.1) (ihr hclean.2.2 hquiet.2.2)
  | compare hl hr ihl ihr =>
    rw [term, Term.forall_compare] at hclean hquiet
    exact .compare (ihl hclean.2.1 hquiet.2.1) (ihr hclean.2.2 hquiet.2.2)
  | assign ha ih =>
    rw [term, Term.forall_assign] at hclean hquiet
    exact .assign (ih hclean.2 hquiet.2)
  | call hlen hargs ih =>
    rw [term, terms_eq_map, Term.forall_call, List.forall_mem_map] at hclean hquiet
    exact .call hlen fun a a' hmem => ih a a' hmem (hclean.2 a (List.of_mem_zip hmem).1)
      (hquiet.2 a (List.of_mem_zip hmem).1)
  | sequence ha hb iha ihb =>
    rw [term, Term.forall_sequence] at hclean hquiet
    exact .sequence (iha hclean.2.1 hquiet.2.1) (ihb hclean.2.2 hquiet.2.2)
  | folded hn hv ih => exact .folded (ih hclean hquiet) (hv.settles hlawful)
  | unsigned ha hnum ih =>
    rw [term, Term.forall_sign] at hclean hquiet
    exact .unsigned (ih hclean.2 hquiet.2)
  | decided h =>
    refine .folded (.refl _) (Term.settles_absorbing ?_)
    rw [term, Term.forall_logic] at hclean hquiet
    rcases h with hl | hr
    · exact .inl (hl.settles hlawful)
    · exact .inr ⟨Term.still_of_quiet hclean.2.1 (hquiet.1 hr.decides), hr.settles hlawful⟩
  | onlyRight hl hr hm ih =>
    rw [term, Term.forall_logic] at hclean hquiet
    exact .onlyRight (hl.settles hlawful) (ih hclean.2.2 hquiet.2.2)
  | onlyLeft hl hm hr ih =>
    rw [term, Term.forall_logic] at hclean hquiet
    exact .onlyLeft (ih hclean.2.1 hquiet.2.1) (hr.settles hlawful)
  | onlySecond ha hmade hpre hb iha ihb =>
    rw [term, Term.forall_sequence] at hclean hquiet
    have hstill := Term.still_of_quiet (ha.forall_local Term.Clean.isLocal hclean.2.1)
      ((isPrecomputable_iff.1 hpre).imp fun _ hu => hu.quiet)
    exact .onlySecond (iha hclean.2.1 hquiet.2.1) hstill (ihb hclean.2.2 hquiet.2.2)
  | stuckLeft hl hr ih => exact .stuckLeft hl.never
  | stuckRight hl hr ih =>
    rw [term, Term.forall_logic] at hclean hquiet
    exact .stuckRight (ih hclean.2.1 hquiet.2.1) hr.never

/-- A reduction whose surroundings no formula can tell from `env₀`, and that comes to a clean
tree that follows `n`. -/
def Reduces (ctx : BuildContext) (env₀ : Env) (n : Node) (r : Reduction) : Prop :=
  r.Meets (Env.Alike ctx.registry env₀) fun m =>
    Follows ctx n m ∧ m.term.Forall (Term.Clean ctx)

theorem Built.reduces_of_quietBeside (hlawful : ctx.registry.Lawful) (hb : Built ctx es n)
    (hquiet : n.term.Forall (Term.QuietBeside ctx)) (h₀ : ctx.ConstantValues env₀.scope)
    (henv : Env.Alike ctx.registry env₀ env) : Reduces ctx env₀ n (n.optimize env) :=
  (hb.optimize_ends hlawful.pure_answer (BuildContext.compiling_alike h₀) henv).toMeets.imp
    fun _ hm => ⟨hm.follows hlawful hb.clean hquiet, hm.forall_local Term.Clean.isLocal hb.clean⟩

/-- Optimizing a tree that was built gives one that follows it. -/
theorem Built.reduces (hlawful : ctx.registry.Lawful) (hb : Built ctx es n)
    (hquiet : n.term.Forall Term.QuietLeft) (h₀ : ctx.ConstantValues env₀.scope)
    (henv : Env.Alike ctx.registry env₀ env) : Reduces ctx env₀ n (n.optimize env) :=
  hb.reduces_of_quietBeside hlawful (hquiet.imp fun _ ht => ht.beside) h₀ henv

end Node

/-! ## Expressions -/

/-- As long as the runs of an expression come to values, an expression that follows it comes
to the same values and leaves the same variables. -/
theorem Expression.runs_of_follows {ctx : BuildContext} {e o : Expression}
    {history history' : History} {scopes : List Scope} (hlawful : ctx.registry.Lawful)
    (hf : Node.Follows ctx e.root o.root) (hclean : e.root.term.Forall (Term.Clean ctx))
    (hcalls : ctx.registry.noticed history' = ctx.registry.noticed history)
    (hscopes : ∀ s ∈ scopes, ctx.ConstantValues s) (n : Nat)
    (hok : ∀ r ∈ (e.runs history scopes).take n, ∃ v, r.result = .ok v) :
    ((o.runs history' scopes).take n).map Run.observed =
      ((e.runs history scopes).take n).map Run.observed := by
  induction scopes generalizing e o history history' n with
  | nil => simp [runs]
  | cons s ss ih =>
    cases n with
    | zero => simp
    | succ n =>
      rw [List.forall_mem_cons] at hscopes
      rw [runs, List.take_succ_cons, List.forall_mem_cons] at hok
      obtain ⟨⟨v, hv⟩, hok⟩ := hok
      have hsame : Env.Alike ctx.registry ⟨s, history⟩ ⟨s, history'⟩ := ⟨rfl, hcalls⟩
      have hrun : e.root.execute ⟨s, history⟩ = ⟨(e.execute ⟨s, history⟩).expression.root,
          (e.execute ⟨s, history⟩).env, .ok v⟩ := Node.execute_eq_iff.2 ⟨hv, rfl, rfl⟩
      obtain ⟨m, env, hm, henv, hf'⟩ := hf.run hlawful hclean ⟨hscopes.1, hsame⟩ hrun
      have ho : o.execute ⟨s, history'⟩ = ⟨{ o with root := m, executed := true }, env, .ok v⟩ := by
        rw [execute, hm]
      have hclean' : (e.execute ⟨s, history⟩).expression.root.term.Forall (Term.Clean ctx) := by
        rw [Node.term_of_execute_ok hrun]
        exact hclean
      have hrest := ih (o := { o with root := m, executed := true }) hf' hclean' henv.alike.calls
        hscopes.2 n hok
      rw [runs, runs, List.take_succ_cons, List.take_succ_cons, List.map_cons, List.map_cons, ho,
        hrest]
      refine congrArg (· :: _) (Prod.ext hv.symm ?_)
      exact henv.alike.scope

namespace Compiler

/-- Optimizing preserves successful results. As long as the runs of an expression that was not
optimized come to values, the runs of the optimized one come to the same values and leave the
same variables. The functions keep their promise, every run gets a scope that binds the
constants to the values that they had while compiling, and the left operands of `&&` and `||`
have no effects. -/
theorem runs_compile_eq_runs_plain {c : Compiler} {source : String} {scope : Scope}
    {plain optimized : Expression} {history : History} {scopes : List Scope}
    (hlawful : c.registry.Lawful) (hplain : c.compilePlain source scope = .ok plain)
    (hopt : (c.compile source scope history).result = .ok optimized)
    (hquiet : plain.root.term.Forall Term.QuietLeft)
    (hscopes : ∀ s ∈ scopes, ∀ name v, c.settings.isConstant name = true →
      scope.get? name = some v → s.get? name = some v) (n : Nat)
    (hok : ∀ r ∈ (plain.runs history scopes).take n, ∃ v, r.result = .ok v) :
    ((optimized.runs (c.compile source scope history).history scopes).take n).map
        Run.observed = ((plain.runs history scopes).take n).map Run.observed := by
  obtain ⟨root, hroot, rfl⟩ := Except.map_eq_ok.1 hplain
  obtain ⟨es, -, hbuilt, -⟩ := build_built hroot
  have hstart : Env.Alike c.registry ⟨scope.toSealed, history⟩ ⟨scope.toSealed, history⟩ := .refl
  have hreduces := hbuilt.reduces hlawful hquiet (fun name v _ hv => hv) hstart
  unfold compile at hopt ⊢
  rw [hroot] at hopt ⊢
  obtain ⟨m, hm, rfl⟩ := Except.map_eq_ok.1 hopt
  exact Expression.runs_of_follows hlawful (hreduces.node m hm).1 hbuilt.clean
    hreduces.env.calls hscopes n hok

/-- An impure function, which says how often it was called before. -/
def tick : Function := ⟨.exactly 0, false, fun h _ => .ok (.integer (.ofNat (h.count 0)))⟩

/-- A product of constants is folded, a comparison of constants is dropped, and `tick` counts
on from one run to the next. -/
theorem runs_compile_eq_runs_plain_tick :
    ∃ plain optimized,
      compilePlain ⟨Settings.standard.withConstant "k", Registry.empty.register "tick" tick⟩
        "x = k * 3 + tick(); k == 2 && x > 6" (.store (.ofList [("k", .integer 2)])) =
          .ok plain ∧
      (compile ⟨Settings.standard.withConstant "k", Registry.empty.register "tick" tick⟩
        "x = k * 3 + tick(); k == 2 && x > 6" (.store (.ofList [("k", .integer 2)]))
          []).result = .ok optimized ∧
      ((optimized.runs (compile ⟨Settings.standard.withConstant "k",
          Registry.empty.register "tick" tick⟩ "x = k * 3 + tick(); k == 2 && x > 6"
            (.store (.ofList [("k", .integer 2)])) []).history
          [.store (.ofList [("k", .integer 2)]), .store (.ofList [("k", .integer 2)])]).take
            2).map Run.observed =
        ((plain.runs [] [.store (.ofList [("k", .integer 2)]),
          .store (.ofList [("k", .integer 2)])]).take 2).map Run.observed := by
  have hplain : (compilePlain
      ⟨Settings.standard.withConstant "k", Registry.empty.register "tick" tick⟩
      "x = k * 3 + tick(); k == 2 && x > 6" (.store (.ofList [("k", .integer 2)]))).map
        (fun e => (e.root.term, (e.runs [] [.store (.ofList [("k", .integer 2)]),
          .store (.ofList [("k", .integer 2)])]).map fun r => r.result)) =
      .ok (.sequence (.assign .set "x" (.arith .add (.arith .mul (.read "k" true)
            (.literal (.integer 3))) (.call "tick" ⟨0, tick⟩ [])))
          (.logic .and (.compare .eq (.read "k" true) (.literal (.integer 2)))
            (.compare .gt (.read "x" false) (.literal (.integer 6)))),
        [.ok (.boolean false), .ok (.boolean true)]) := by cbv
  have hopt : (compile ⟨Settings.standard.withConstant "k", Registry.empty.register "tick" tick⟩
      "x = k * 3 + tick(); k == 2 && x > 6" (.store (.ofList [("k", .integer 2)]))
        []).result.isOk = true := by cbv
  obtain ⟨plain, hplain, hruns⟩ := Except.map_eq_ok.1 hplain
  obtain ⟨optimized, hopt⟩ := Except.isOk_iff.1 hopt
  obtain ⟨hterm, hruns⟩ := Prod.mk.inj hruns
  refine ⟨plain, optimized, hplain, hopt,
    runs_compile_eq_runs_plain ?_ hplain hopt ?_ ?_ 2 fun r hr => ?_⟩
  · refine (Registry.Lawful.of_answers (by simp [Registry.empty])).register "tick" rfl ?_
    intro h h' args hcount
    exact congrArg (fun n => Except.ok (Value.integer (.ofNat n))) hcount
  · rw [hterm]
    simp [Term.QuietLeft, Term.Quiet]
  · simp
  · have hmem : r.result ∈ [.ok (.boolean false), .ok (.boolean true)] :=
      hruns ▸ List.mem_map_of_mem (List.mem_of_mem_take hr)
    simp only [List.mem_cons, List.not_mem_nil, or_false] at hmem
    rcases hmem with h | h
    · exact ⟨_, h⟩
    · exact ⟨_, h⟩

/-- A pure function without arguments. -/
def seven : Function := ⟨.exactly 0, true, fun _ _ => .ok (.integer 7)⟩

/-- An impure function, which says how often any function was called before. -/
def calls : Function := ⟨.exactly 0, false, fun h _ => .ok (.integer (.ofNat h.length))⟩

/-- A compiler whose formulas can call a function that counts the calls of a pure one. -/
def counting : Compiler :=
  ⟨.standard, (Registry.empty.register "seven" seven).register "calls" calls⟩

/-- It is not enough that pure functions look at their arguments alone. Where their calls are
counted, an optimized expression that no longer makes them comes to another value in its second
run. And where it is run after the plain expression, whose calls then count as well, it does so in
its first. -/
theorem runs_compile_ne_runs_plain_of_noticed :
    counting.registry.PureAnswers ∧ (∀ name, counting.settings.isConstant name = false) ∧
    ∃ plain optimized,
      counting.compilePlain "seven() * 2 + calls()" .empty = .ok plain ∧
      counting.compile "seven() * 2 + calls()" .empty [] =
        ⟨.ok optimized, [⟨0, true, []⟩]⟩ ∧
      plain.root.term.Forall Term.QuietLeft ∧
      (plain.runs [] [.store (.ofList []), .store (.ofList [])]).map Run.result =
        [.ok (.integer 15), .ok (.integer 17)] ∧
      (optimized.runs [⟨0, true, []⟩] [.store (.ofList []), .store (.ofList [])]).map
        Run.result = [.ok (.integer 15), .ok (.integer 16)] ∧
      (plain.runs [⟨0, true, []⟩] [.store (.ofList [])]).map Run.result = [.ok (.integer 16)] ∧
      (optimized.runs (plain.after [⟨0, true, []⟩] [.store (.ofList [])]).2
        [.store (.ofList [])]).map Run.result = [.ok (.integer 17)] := by
  have hplain : (counting.compilePlain "seven() * 2 + calls()" .empty).map (fun e =>
        (e.root.term, (e.runs [] [.store (.ofList []), .store (.ofList [])]).map Run.result,
          (e.runs [⟨0, true, []⟩] [.store (.ofList [])]).map Run.result,
          (e.after [⟨0, true, []⟩] [.store (.ofList [])]).2)) =
      .ok (.arith .add (.arith .mul (.call "seven" ⟨0, seven⟩ []) (.literal (.integer 2)))
          (.call "calls" ⟨1, calls⟩ []),
        [.ok (.integer 15), .ok (.integer 17)], [.ok (.integer 16)],
        [⟨1, false, []⟩, ⟨0, true, []⟩, ⟨0, true, []⟩]) := by cbv
  have hhistory : (counting.compile "seven() * 2 + calls()" .empty []).history =
      [⟨0, true, []⟩] := by cbv
  have hopt : (counting.compile "seven() * 2 + calls()" .empty []).result.map (fun o =>
        ((o.runs [⟨0, true, []⟩] [.store (.ofList []), .store (.ofList [])]).map Run.result,
          (o.runs [⟨1, false, []⟩, ⟨0, true, []⟩, ⟨0, true, []⟩]
            [.store (.ofList [])]).map Run.result)) =
      .ok ([.ok (.integer 15), .ok (.integer 16)], [.ok (.integer 17)]) := by cbv
  obtain ⟨plain, hplain, hruns⟩ := Except.map_eq_ok.1 hplain
  obtain ⟨optimized, hopt, hruns'⟩ := Except.map_eq_ok.1 hopt
  obtain ⟨hterm, hruns⟩ := Prod.mk.inj hruns
  obtain ⟨htwice, hruns⟩ := Prod.mk.inj hruns
  obtain ⟨honce, hafter⟩ := Prod.mk.inj hruns
  obtain ⟨htwice', honce'⟩ := Prod.mk.inj hruns'
  refine ⟨?_, fun _ => rfl, plain, optimized, hplain, ?_, ?_, htwice, htwice', honce, ?_⟩
  · simp [Registry.PureAnswers, counting, Registry.register, Registry.empty, seven, calls]
  · rw [← hopt, ← hhistory]
  · rw [hterm]
    simp [Term.QuietLeft]
  · rw [hafter]
    exact honce'

end Compiler

end Formula

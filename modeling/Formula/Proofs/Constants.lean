import Formula.Proofs.Recompiling
import Formula.Proofs.Rewriting
import Formula.Proofs.Sessions

/-!
# Constants while running

A constant has a value while compiling, and optimizing puts it in its place. What is left does
not read the constant, and so it makes no difference what a run finds under its name
(`Compiler.execute_compile_agree`).

There is one place at which a constant may stay. An operand of `&&` or `||` that is fixed, next
to one that is not, is left as it is if it fails to be a truth value. The run that reaches it
reads the constant from the variables (`Compiler.execute_compile_ne_of_stuck`).
-/

namespace Formula

/-- The term itself neither reads nor binds a constant. -/
def Term.Unconstant (settings : Settings) : Term → Prop
  | read name _ | assign _ name _ => settings.isConstant name = false
  | _ => True

/-- Wherever the constants have their values, the term comes to a truth value. -/
def BuildContext.AlwaysTruth (ctx : BuildContext) (t : Term) : Prop :=
  ∀ env, ctx.ConstantValues env.scope → ∃ b, (t.eval env).result = .ok (.boolean b)

/-- An operand of `&&` and `||` that is fixed, next to one that is not, comes to a truth value,
if it reads a constant. -/
def Term.TruthBeside (ctx : BuildContext) : Term → Prop
  | logic _ l r =>
    (l.Forall Fixed → ¬r.Forall Fixed →
      l.Forall (Unconstant ctx.settings) ∨ ctx.AlwaysTruth l) ∧
    (r.Forall Fixed → ¬l.Forall Fixed →
      r.Forall (Unconstant ctx.settings) ∨ ctx.AlwaysTruth r)
  | _ => True

/-- Stores that bind all names but those of constants to the same values, and the same calls. -/
structure Env.AgreeBeside (settings : Settings) (env env' : Env) : Prop where
  scope : ∃ vars vars', env.scope = .store vars ∧ env'.scope = .store vars' ∧
    ∀ name, settings.isConstant name = false → vars'.get? name = vars.get? name
  history : env'.history = env.history

namespace Env.AgreeBeside

variable {settings : Settings} {env env' : Env}

theorem get? (h : AgreeBeside settings env env') {name : String}
    (hname : settings.isConstant name = false) :
    env'.scope.get? name = env.scope.get? name := by
  obtain ⟨vars, vars', hvars, hvars', hget⟩ := h.scope
  rw [hvars, hvars']
  exact hget name hname

theorem setsBoth (h : AgreeBeside settings env env') (name : String) (v : Value) :
    SetsBoth (AgreeBeside settings) name v env env' := by
  obtain ⟨vars, vars', hvars, hvars', hget⟩ := h.scope
  refine .inr ⟨.store (vars.insert name v), .store (vars'.insert name v), ?_, ?_, ?_, h.history⟩
  · rw [hvars]
    rfl
  · rw [hvars']
    rfl
  · refine ⟨_, _, rfl, rfl, fun other hother => ?_⟩
    rw [Variables.get?_insert, Variables.get?_insert, hget other hother]

end Env.AgreeBeside

/-- What a clean term that reads no constant asks for is the same in both stores. -/
theorem BuildContext.blind_unconstant (ctx : BuildContext) :
    Term.Blind (Env.AgreeBeside ctx.settings)
      fun t => t.Clean ctx ∧ t.Unconstant ctx.settings where
  literal _ := ⟨trivial, trivial⟩
  logic _ _ _ := ⟨trivial, trivial⟩
  not _ := ⟨trivial, trivial⟩
  sign _ _ := ⟨trivial, trivial⟩
  arith _ _ _ := ⟨trivial, trivial⟩
  compare _ _ _ := ⟨trivial, trivial⟩
  assign _ _ _ _ h := h
  call _ _ _ _ h := h
  sequence _ _ := ⟨trivial, trivial⟩
  keepsBoth t ht := by
    cases t with
    | read name c => exact fun env env' h => h.get? ht.2
    | assign op name v => exact fun env env' h => ⟨h.get? ht.2, h.setsBoth name⟩
    | call name f args =>
      intro env env' vs h
      rw [Term.callFunction, Term.callFunction, h.history]
      exact ⟨rfl, h.scope, rfl⟩
    | _ => trivial

namespace Node

variable {ctx : BuildContext} {es : List Element} {n : Node} {env : Env}

/-! ## What optimizing leaves -/

/-- The tree reads and binds no constant. -/
def Unconstant (ctx : BuildContext) (n : Node) : Prop :=
  n.term.Forall fun t => t.Clean ctx ∧ t.Unconstant ctx.settings

theorem unconstant_literal (v : Value) : (literal v).Unconstant ctx :=
  Term.forall_literal.2 ⟨trivial, trivial⟩

/-- Folding leaves a tree that reads no constant, since it leaves no tree that is fixed. -/
theorem meets_fold (hclean : n.term.Forall (Term.Clean ctx))
    (hn : n.isPrecomputable = false ∨ n.isLiteral = true → n.Unconstant ctx)
    (henv : ctx.ConstantValues env.scope) :
    (n.fold env).Meets (fun env => ctx.ConstantValues env.scope) (Unconstant ctx) := by
  unfold fold
  split
  · rename_i hcase
    have hpre : n.isPrecomputable = true := by simp_all
    refine ⟨keeps_execute BuildContext.compiling_values hclean hpre henv, fun m hm => ?_⟩
    obtain ⟨v, -, rfl⟩ := Except.map_eq_ok.1 hm
    exact unconstant_literal v
  · rename_i hcase
    refine .ok henv (hn ?_)
    simp only [Bool.and_eq_true, Bool.not_eq_true', not_and, Bool.not_eq_false] at hcase
    exact (Bool.eq_false_or_eq_true _).symm.imp_right hcase

/-- What a look at an operand tells and leaves. -/
structure Looked (ctx : BuildContext) (n : Node) (p : Probe) : Prop where
  env : ctx.ConstantValues p.env.scope
  term : p.node.term = n.term
  known : n.isPrecomputable = true → ctx.AlwaysTruth n.term → p.known.isSome = true

theorem Built.looked (hb : Built ctx es n) (henv : ctx.ConstantValues env.scope) :
    Looked ctx n (n.probe env) := by
  unfold probe
  cases hpre : n.isPrecomputable with
  | false => exact ⟨henv, rfl, by simp [hpre]⟩
  | true =>
    have henv' := keeps_execute BuildContext.compiling_values hb.clean hpre henv
    simp only [if_pos]
    split
    · exact ⟨henv', term_execute, fun _ _ => rfl⟩
    · rename_i hres
      refine ⟨henv', term_execute, fun _ htruth => ?_⟩
      obtain ⟨b, hb'⟩ := htruth env henv
      rw [← hb.answer_eq_eval (.inr hpre) henv.kinds] at hb'
      exact (hres b hb').elim

theorem meets_logic {op : Connective} {l r : Node} (hbl : Built ctx es l) (hbr : Built ctx es r)
    (htruth : (Term.logic op l.term r.term).TruthBeside ctx)
    (ihl : ∀ {env : Env}, ctx.ConstantValues env.scope →
      (l.optimize env).Meets (fun env => ctx.ConstantValues env.scope) (Unconstant ctx))
    (ihr : ∀ {env : Env}, ctx.ConstantValues env.scope →
      (r.optimize env).Meets (fun env => ctx.ConstantValues env.scope) (Unconstant ctx))
    (henv : ctx.ConstantValues env.scope) :
    ((logic op l r (.ofKind (some .boolean))).optimize env).Meets
      (fun env => ctx.ConstantValues env.scope) (Unconstant ctx) := by
  have hp := hbl.looked henv
  have hq := hbr.looked hp.env
  have hboth : ∀ {a b : Node}, a.Unconstant ctx → b.Unconstant ctx →
      (logic op a b (.ofKind (some .boolean))).Unconstant ctx :=
    fun ha hb => Term.forall_logic.2 ⟨⟨trivial, trivial⟩, ha, hb⟩
  -- an operand that is kept as it is reads no constant, or it would be a truth value
  have hkept : ∀ {a : Node} {p : Probe}, Built ctx es a → Looked ctx a p →
      a.isPrecomputable = true → p.known = none →
        (a.term.Forall (Term.Unconstant ctx.settings) ∨ ctx.AlwaysTruth a.term) →
          p.node.Unconstant ctx := by
    intro a p hba hpa hpre hnone h
    rcases h with h | h
    · rw [Unconstant, hpa.term]
      exact fun t ht => ⟨hba.clean t ht, h t ht⟩
    · have hsome := hpa.known hpre h
      simp [hnone] at hsome
  rw [optimize]
  generalize l.probe env = p at *
  generalize r.probe p.env = q at *
  split
  · exact .ok hq.env (unconstant_literal _)
  split
  · exact .ok hq.env (unconstant_literal _)
  split
  · rename_i hpre
    have hterm : (logic op p.node q.node (.ofKind (some .boolean))).term =
        (logic op l r (.ofKind (some .boolean))).term := by
      simp only [term, hp.term, hq.term]
    have hpre' : (logic op p.node q.node (.ofKind (some .boolean))).isPrecomputable = true := by
      rw [isPrecomputable_iff, hterm, ← isPrecomputable_iff]
      exact hpre
    refine meets_fold (hterm ▸ (Built.logic hbl hbr).clean) (fun h => ?_) hq.env
    simp [hpre', isLiteral] at h
  rename_i hpre
  split
  · exact (ihr hq.env).andThen fun m env henv hm =>
      .ok henv (forall_dropIdentity ctx.blind_unconstant.toLocal hm)
  split
  · exact (ihl hq.env).andThen fun m env henv hm =>
      .ok henv (forall_dropIdentity ctx.blind_unconstant.toLocal hm)
  rename_i hpnone hqnone
  rw [Option.not_isSome_iff_eq_none] at hpnone hqnone
  have hnot : ¬(l.term.Forall Term.Fixed ∧ r.term.Forall Term.Fixed) := by
    rw [← isPrecomputable_iff, ← isPrecomputable_iff, ← Bool.and_eq_true]
    exact hpre
  refine Reduction.Meets.andThen (Q := Unconstant ctx) ?_ fun a env henv ha =>
    Reduction.Meets.andThen (Q := Unconstant ctx) ?_ fun b env henv hb =>
      .ok henv (hboth ha hb)
  · split
    · rename_i hprel
      have hfixed := isPrecomputable_iff.1 hprel
      exact .ok hq.env (hkept hbl hp hprel hpnone (htruth.1 hfixed fun h => hnot ⟨hfixed, h⟩))
    · exact ihl hq.env
  · split
    · rename_i hprer
      have hfixed := isPrecomputable_iff.1 hprer
      exact .ok henv (hkept hbr hq hprer hqnone (htruth.2 hfixed fun h => hnot ⟨h, hfixed⟩))
    · exact ihr henv

/-- Optimizing puts the values of the constants in their places. -/
theorem Built.meets_optimize (hb : Built ctx es n)
    (htruth : n.term.Forall (Term.TruthBeside ctx)) (henv : ctx.ConstantValues env.scope) :
    (n.optimize env).Meets (fun env => ctx.ConstantValues env.scope) (Unconstant ctx) := by
  have hfold : ∀ {m : Node} {env : Env}, m.Unconstant ctx → ctx.ConstantValues env.scope →
      (m.fold env).Meets (fun env => ctx.ConstantValues env.scope) (Unconstant ctx) :=
    fun hm henv => meets_fold (hm.imp fun _ h => h.1) (fun _ => hm) henv
  induction hb generalizing env with
  | literal v => exact .ok henv (unconstant_literal v)
  | @read e he hrole hbound =>
    have hclean := (Built.read he hrole hbound).clean
    refine meets_fold hclean (fun h => ?_) henv
    simp only [isPrecomputable, isLiteral, Bool.false_eq_true, or_false] at h
    exact Term.forall_read.2 ⟨Term.forall_read.1 hclean, h⟩
  | logic hl hr ihl ihr =>
    rw [term, Term.forall_logic] at htruth
    exact meets_logic hl hr htruth.1 (ihl htruth.2.1) (ihr htruth.2.2) henv
  | not ha ih =>
    rw [term, Term.forall_not] at htruth
    exact (ih htruth.2 henv).andThen fun a' env henv ha' =>
      hfold (Term.forall_not.2 ⟨⟨trivial, trivial⟩, ha'⟩) henv
  | @sign g a ha ih =>
    rw [term, Term.forall_sign] at htruth
    refine (ih htruth.2 henv).andThen fun a' env henv ha' => ?_
    have hsign : (Node.sign g a' (.ofKind (a.kind?.filter Kind.isNumeric))).Unconstant ctx :=
      Term.forall_sign.2 ⟨⟨trivial, trivial⟩, ha'⟩
    split
    · exact hfold hsign henv
    split
    · exact .ok henv ha'
    · exact .ok henv hsign
  | arith hl hr ihl ihr =>
    rw [term, Term.forall_arith] at htruth
    exact (ihl htruth.2.1 henv).andThen fun l' env henv hl' =>
      (ihr htruth.2.2 henv).andThen fun r' env henv hr' =>
        hfold (Term.forall_arith.2 ⟨⟨trivial, trivial⟩, hl', hr'⟩) henv
  | compare hl hr ihl ihr =>
    rw [term, Term.forall_compare] at htruth
    exact (ihl htruth.2.1 henv).andThen fun l' env henv hl' =>
      (ihr htruth.2.2 henv).andThen fun r' env henv hr' =>
        hfold (Term.forall_compare.2 ⟨⟨trivial, trivial⟩, hl', hr'⟩) henv
  | assign he hrole hvar hop hv ih =>
    rw [term, Term.forall_assign] at htruth
    exact (ih htruth.2 henv).andThen fun v' env henv hv' =>
      .ok henv (Term.forall_assign.2 ⟨⟨hvar, hvar⟩, hv'⟩)
  | @call e f args he hrole hlen hf hargs ih =>
    rw [term, terms_eq_map, Term.forall_call, List.forall_mem_map] at htruth
    obtain ⟨henv', hall⟩ := meets_optimizeAll (fun a ha _ => ih a ha (htruth.2 a ha)) henv
    rw [optimize]
    cases hres : (optimizeAll args env).result with
    | error fault => exact ⟨henv', by simp⟩
    | ok ms =>
      refine hfold ?_ henv'
      rw [Unconstant, term, terms_eq_map, Term.forall_call, List.forall_mem_map]
      have hclean := (Built.call he hrole hlen hf hargs).clean
      rw [term, terms_eq_map, Term.forall_call] at hclean
      exact ⟨⟨hclean.1, trivial⟩, hall ms hres⟩
  | sequence ha hb iha ihb =>
    rw [term, Term.forall_sequence] at htruth
    refine (iha htruth.2.1 henv).andThen fun a' env henv ha' =>
      (ihb htruth.2.2 henv).andThen fun b' env henv hb' => .ok henv ?_
    split
    · exact hb'
    · exact Term.forall_sequence.2 ⟨⟨trivial, trivial⟩, ha', hb'⟩

end Node

namespace Compiler

/-- What a run finds under the name of a constant makes no difference to an optimized
expression. Let each operand of `&&` and `||` that is fixed, next to one that is not, come to a
truth value if it reads a constant. Two stores that agree on all other names then make the same
run : it comes to the same result and leaves the same expression, after the same calls, and the
stores still agree. -/
theorem execute_compile_agree {c : Compiler} {source : String} {scope : Scope}
    {before history : History} {plain optimized : Expression} {s s' : Variables}
    (hplain : c.compilePlain source scope = .ok plain)
    (hopt : (c.compile source scope before).result = .ok optimized)
    (htruth : plain.root.term.Forall (Term.TruthBeside ⟨c.settings, c.registry, scope⟩))
    (hs : ∀ name, c.settings.isConstant name = false → s'.get? name = s.get? name) :
    let run := optimized.execute ⟨.store s, history⟩
    let run' := optimized.execute ⟨.store s', history⟩
    run'.result = run.result ∧ run'.expression = run.expression ∧
      run'.env.history = run.env.history ∧
        ∀ name, c.settings.isConstant name = false →
          run'.env.scope.get? name = run.env.scope.get? name := by
  obtain ⟨root, hroot, rfl⟩ := Except.map_eq_ok.1 hplain
  obtain ⟨es, -, hbuilt, -⟩ := build_built hroot
  obtain ⟨root', m, hroot', hm, rfl⟩ := compile_eq_ok.1 hopt
  obtain rfl := Except.ok.inj (hroot.symm.trans hroot')
  have hvalues : BuildContext.ConstantValues ⟨c.settings, c.registry, scope⟩
      (Env.mk scope.toSealed before).scope := fun name v _ hv => hv
  have hm' := (hbuilt.meets_optimize htruth hvalues).node m hm
  have hagree : Env.AgreeBeside c.settings ⟨.store s, history⟩ ⟨.store s', history⟩ :=
    ⟨⟨s, s', rfl, rfl, hs⟩, rfl⟩
  have hrun : (m.execute ⟨.store s, history⟩).Matches _ (m.execute ⟨.store s', history⟩) :=
    Node.execute_matches (hm'.imp (BuildContext.blind_unconstant _).keepsBoth) hagree
  refine ⟨hrun.result, ?_, hrun.env.history, fun name hname => hrun.env.get? hname⟩
  exact congrArg (fun n => Expression.mk n true false) hrun.node

/-- A comparison of a constant is gone, and so is the constant as a divisor. The second store
does not bind it. -/
theorem execute_compile_agree_division :
    ∃ plain optimized,
      compilePlain ⟨Settings.standard.withConstant "k", .empty⟩ "k == 2 && x / k > 1"
        (.store (.ofList [("k", .integer 2)])) = .ok plain ∧
      (compile ⟨Settings.standard.withConstant "k", .empty⟩ "k == 2 && x / k > 1"
        (.store (.ofList [("k", .integer 2)])) []).result = .ok optimized ∧
      (optimized.execute ⟨.store (.ofList [("x", .integer 6)]), []⟩).result =
        (optimized.execute
          ⟨.store (.ofList [("k", .integer 0), ("x", .integer 6)]), []⟩).result ∧
      (optimized.execute ⟨.store (.ofList [("k", .integer 0), ("x", .integer 6)]), []⟩).result =
        .ok (.boolean true) := by
  have hplain : (compilePlain ⟨Settings.standard.withConstant "k", .empty⟩ "k == 2 && x / k > 1"
      (.store (.ofList [("k", .integer 2)]))).map (fun e => e.root.term) =
      .ok (.logic .and (.compare .eq (.read "k" true) (.literal (.integer 2)))
        (.compare .gt (.arith .div (.read "x" false) (.read "k" true))
          (.literal (.integer 1)))) := by cbv
  have hopt : (compile ⟨Settings.standard.withConstant "k", .empty⟩ "k == 2 && x / k > 1"
      (.store (.ofList [("k", .integer 2)])) []).result.map (fun e =>
        (e.execute ⟨.store (.ofList [("k", .integer 0), ("x", .integer 6)]), []⟩).result) =
      .ok (.ok (.boolean true)) := by cbv
  obtain ⟨plain, hplain, hterm⟩ := Except.map_eq_ok.1 hplain
  obtain ⟨optimized, hopt, hresult⟩ := Except.map_eq_ok.1 hopt
  refine ⟨plain, optimized, hplain, hopt,
    (execute_compile_agree hplain hopt ?_ fun name hname => ?_).1, hresult⟩
  · have htwo : ∀ env : Env, BuildContext.ConstantValues
        ⟨Settings.standard.withConstant "k", .empty, .store (.ofList [("k", .integer 2)])⟩
          env.scope → env.scope.get? "k" = some (.integer 2) :=
      fun env henv => henv "k" (.integer 2) (by decide) (by decide)
    rw [hterm]
    refine Term.forall_logic.2 ⟨⟨fun _ _ => .inr fun env henv => ⟨true, ?_⟩, ?_⟩, ?_, ?_⟩
    · simp only [Term.eval, Node.readVariable, htwo env henv]
      rfl
    · simp [Term.Fixed]
    · simp [Term.TruthBeside]
    · simp [Term.TruthBeside]
  · have hne : name ≠ "k" := by
      rintro rfl
      simp [Settings.isConstant, Settings.withConstant, Settings.standard,
        Settings.insertName] at hname
    simp only [Variables.ofList, List.foldl, Variables.get?_insert, if_neg hne]

/-- A division by a constant fails while compiling, and so it stays, next to a variable. The run
takes another divisor from the store, and does not fail. -/
theorem execute_compile_ne_of_stuck :
    ∃ optimized,
      (compile ⟨Settings.standard.withConstant "k", .empty⟩ "x && 1 / k > 0"
        (.store (.ofList [("k", .integer 0)])) []).result = .ok optimized ∧
      (optimized.execute
        ⟨.store (.ofList [("x", .boolean true), ("k", .integer 0)]), []⟩).result =
          .error (.runtime (.divisionByZero .div)) ∧
      (optimized.execute
        ⟨.store (.ofList [("x", .boolean true), ("k", .integer 1)]), []⟩).result =
          .ok (.boolean true) := by
  have hopt : (compile ⟨Settings.standard.withConstant "k", .empty⟩ "x && 1 / k > 0"
      (.store (.ofList [("k", .integer 0)])) []).result.map (fun e =>
        ((e.execute ⟨.store (.ofList [("x", .boolean true), ("k", .integer 0)]), []⟩).result,
          (e.execute ⟨.store (.ofList [("x", .boolean true), ("k", .integer 1)]), []⟩).result)) =
      .ok (.error (.runtime (.divisionByZero .div)), .ok (.boolean true)) := by cbv
  obtain ⟨optimized, hopt, hruns⟩ := Except.map_eq_ok.1 hopt
  obtain ⟨hfails, hvalue⟩ := Prod.mk.inj hruns
  exact ⟨optimized, hopt, hfails, hvalue⟩

end Compiler

end Formula

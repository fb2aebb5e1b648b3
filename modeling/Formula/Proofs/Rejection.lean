import Formula.Proofs.Rewriting

/-!
# Trees that cannot be optimized

A tree that cannot be optimized comes to no value, whatever the variables are
(`Compiler.fails_of_compile_error`). A fault that comes up while compiling is that of a
subtree that is fixed, and every run of the tree reaches this subtree or fails before.

`&&` and `||` are the exception. If neither operand is fixed, both are optimized, and a fault
inside the right one comes up also where the left one keeps it from being run
(`Compiler.not_fails_of_guarded`). So such an operand must come to a value somewhere.

In between stands what a fixed tree is worth that optimizing has led to : every value that the
tree before comes to is the one that it has (`Node.Rewrites.leadsTo`).
-/

namespace Formula

variable {ctx : BuildContext}

namespace Node

variable {n m n' : Node} {env env' : Env} {v : Value}

/-- Wherever the constants have their values, the tree comes to `v`, and they keep them. -/
def ComesTo (ctx : BuildContext) (n : Node) (v : Value) : Prop :=
  ∀ env, ctx.ConstantValues env.scope →
    ∃ n' env', n.execute env = ⟨n', env', .ok v⟩ ∧ ctx.ConstantValues env'.scope

theorem comesTo_literal (v : Value) : (literal v).ComesTo ctx v :=
  fun env henv => ⟨literal v, env, by rw [execute], henv⟩

/-- What a fixed tree comes to once, it comes to always. -/
theorem comesTo_of_execute_ok (hpure : ctx.registry.PureAnswers)
    (hclean : n.term.Forall (Term.Clean ctx)) (hpre : n.isPrecomputable = true)
    (henv : ctx.ConstantValues env.scope) (h : n.execute env = ⟨n', env', .ok v⟩) :
    n.ComesTo ctx v := by
  intro env₁ henv₁
  have hresult : (n.answer env₁).result = (n.answer env).result :=
    answer_fixed hpure hclean hpre henv henv₁
  have hrun : n.execute env₁ = ⟨(n.execute env₁).node, (n.execute env₁).env, .ok v⟩ :=
    execute_eq_iff.2 ⟨hresult.trans (execute_eq_iff.1 h).1, rfl, rfl⟩
  exact ⟨_, _, hrun, constantValues_of_execute_ok hclean henv₁ hrun⟩

theorem FixedTo.eq_of_execute_ok {r : Except Fault Value} (hpure : ctx.registry.PureAnswers)
    (hn : n.FixedTo ctx r) (henv : ctx.ConstantValues env.scope)
    (h : n.execute env = ⟨n', env', .ok v⟩) : r = .ok v :=
  (hn.result hpure henv).symm.trans (execute_eq_iff.1 h).1

theorem Stuck.ne_execute {b : Bool} (h : Stuck ctx n m) (henv : ctx.ConstantValues env.scope) :
    n.execute env ≠ ⟨n', env', .ok (.boolean b)⟩ :=
  fun hrun => h.never env b env' henv (eval_of_execute_ok hrun)

/-! ## Trees whose operands come to values -/

namespace ComesTo

variable {l r a b : Node} {s : Slot} {x y : Value}

theorem logicLeft {op : Connective} (hs : s.Admits .boolean)
    (hl : l.ComesTo ctx (.boolean op.absorbing)) :
    (logic op l r s).ComesTo ctx (.boolean op.absorbing) := by
  intro env henv
  obtain ⟨l', env', hrun, henv'⟩ := hl env henv
  exact ⟨_, env', execute_logic_ok.2 ⟨hs, .inl ⟨l', hrun, rfl, rfl⟩⟩, henv'⟩

theorem logicRight {op : Connective} {c : Bool} (hs : s.Admits .boolean)
    (hl : l.ComesTo ctx (.boolean op.identity)) (hr : r.ComesTo ctx (.boolean c)) :
    (logic op l r s).ComesTo ctx (.boolean c) := by
  intro env henv
  obtain ⟨l', env₁, hrunl, henv₁⟩ := hl env henv
  obtain ⟨r', env₂, hrunr, henv₂⟩ := hr env₁ henv₁
  exact ⟨_, env₂, execute_logic_ok.2 ⟨hs, .inr ⟨l', env₁, r', c, hrunl, hrunr, rfl, rfl⟩⟩, henv₂⟩

theorem not {c : Bool} (hs : s.Admits .boolean) (ha : a.ComesTo ctx (.boolean c)) :
    (not a s).ComesTo ctx (.boolean !c) := by
  intro env henv
  obtain ⟨a', env', hrun, henv'⟩ := ha env henv
  exact ⟨_, env', execute_not_ok.2 ⟨hs, a', c, hrun, rfl, rfl⟩, henv'⟩

theorem sign {g : Sign} (hs : s.Admits v.kind) (hv : applySign g x = .ok v)
    (ha : a.ComesTo ctx x) : (sign g a s).ComesTo ctx v := by
  intro env henv
  obtain ⟨a', env', hrun, henv'⟩ := ha env henv
  exact ⟨_, env', execute_sign_ok.2 ⟨hs, a', x, hrun, hv, rfl⟩, henv'⟩

theorem arith {op : ArithOp} (hs : s.Admits v.kind) (hv : x.arith op y = .ok v)
    (hl : l.ComesTo ctx x) (hr : r.ComesTo ctx y) : (arith op l r s).ComesTo ctx v := by
  intro env henv
  obtain ⟨l', env₁, hrunl, henv₁⟩ := hl env henv
  obtain ⟨r', env₂, hrunr, henv₂⟩ := hr env₁ henv₁
  exact ⟨_, env₂, execute_arith_ok.2 ⟨hs, l', env₁, x, r', y, hrunl, hrunr, hv, rfl⟩, henv₂⟩

theorem compare {op : CompareOp} {c : Bool} (hs : s.Admits .boolean)
    (hc : x.compare op y = .ok c) (hl : l.ComesTo ctx x) (hr : r.ComesTo ctx y) :
    (compare op l r s).ComesTo ctx (.boolean c) := by
  intro env henv
  obtain ⟨l', env₁, hrunl, henv₁⟩ := hl env henv
  obtain ⟨r', env₂, hrunr, henv₂⟩ := hr env₁ henv₁
  exact ⟨_, env₂, execute_compare_ok.2 ⟨hs, l', env₁, x, r', y, c, hrunl, hrunr, hc, rfl, rfl⟩,
    henv₂⟩

theorem sequence (hs : s.Admits v.kind) (ha : a.ComesTo ctx x) (hb : b.ComesTo ctx v) :
    (sequence a b s).ComesTo ctx v := by
  intro env henv
  obtain ⟨a', env₁, hruna, henv₁⟩ := ha env henv
  obtain ⟨b', env₂, hrunb, henv₂⟩ := hb env₁ henv₁
  exact ⟨_, env₂, execute_sequence_ok.2 ⟨hs, a', env₁, x, b', hruna, hrunb, rfl⟩, henv₂⟩

theorem all {ns : List Node} {vs : List Value} (h : List.Forall₂ (ComesTo ctx) ns vs) :
    ∀ env, ctx.ConstantValues env.scope → ∃ ns' env',
      executeAll ns env = ⟨ns', env', vs, none⟩ ∧ ctx.ConstantValues env'.scope := by
  induction h with
  | nil => exact fun env henv => ⟨[], env, by rw [executeAll], henv⟩
  | cons hn _ ih =>
    intro env henv
    obtain ⟨n', env₁, hrun, henv₁⟩ := hn env henv
    obtain ⟨ns', env₂, hruns, henv₂⟩ := ih env₁ henv₁
    exact ⟨_, env₂, executeAll_cons_ok.2 ⟨n', env₁, _, ns', _, hrun, hruns, rfl, rfl⟩, henv₂⟩

theorem call {name : String} {f : Overload} {args : List Node} {b : Buffer} {vs : List Value}
    (hs : s.Admits v.kind) (hargs : List.Forall₂ (ComesTo ctx) args vs)
    (hv : ∀ env, (Term.callFunction f vs env).result = .ok v) :
    (call name f args b s).ComesTo ctx v := by
  intro env henv
  obtain ⟨args', env₁, hruns, henv₁⟩ := all hargs env henv
  have hcall : Term.callFunction f vs env₁ = ⟨.ok v, (Term.callFunction f vs env₁).env⟩ := by
    rw [← hv env₁]
  exact ⟨_, _, execute_call_ok.2 ⟨hs, args', env₁, vs, hruns, hcall, rfl⟩, henv₁⟩

end ComesTo

/-! ## Optimizing keeps the value -/

/-- Every value that `n` comes to is the one that `m` comes to. -/
def LeadsTo (ctx : BuildContext) (n m : Node) : Prop :=
  ∀ ⦃env n' env' v⦄, ctx.ConstantValues env.scope → n.execute env = ⟨n', env', .ok v⟩ →
    m.ComesTo ctx v

namespace LeadsTo

variable {l l' r r' a a' b b' : Node} {s : Slot} {op : Connective}

theorem logic (hclean : l.term.Forall (Term.Clean ctx)) (hl : l.LeadsTo ctx l')
    (hr : r.LeadsTo ctx r') : (Node.logic op l r s).LeadsTo ctx (.logic op l' r' s) := by
  intro env n' env' v henv hrun
  obtain ⟨hs, ⟨l₁, hrunl, rfl, -⟩ | ⟨l₁, env₁, r₁, b, hrunl, hrunr, rfl, -⟩⟩ :=
    execute_logic_ok.1 hrun
  · exact .logicLeft hs (hl henv hrunl)
  · have henv₁ := constantValues_of_execute_ok hclean henv hrunl
    exact .logicRight hs (hl henv hrunl) (hr henv₁ hrunr)

theorem not (ha : a.LeadsTo ctx a') : (Node.not a s).LeadsTo ctx (.not a' s) := by
  intro env n' env' v henv hrun
  obtain ⟨hs, a₁, b, hruna, rfl, -⟩ := execute_not_ok.1 hrun
  exact .not hs (ha henv hruna)

theorem sign {g : Sign} (ha : a.LeadsTo ctx a') :
    (Node.sign g a s).LeadsTo ctx (.sign g a' s) := by
  intro env n' env' v henv hrun
  obtain ⟨hs, a₁, u, hruna, hu, -⟩ := execute_sign_ok.1 hrun
  exact .sign hs hu (ha henv hruna)

theorem arith {op : ArithOp} (hclean : l.term.Forall (Term.Clean ctx)) (hl : l.LeadsTo ctx l')
    (hr : r.LeadsTo ctx r') : (Node.arith op l r s).LeadsTo ctx (.arith op l' r' s) := by
  intro env n' env' v henv hrun
  obtain ⟨hs, l₁, env₁, x, r₁, y, hrunl, hrunr, hv, -⟩ := execute_arith_ok.1 hrun
  have henv₁ := constantValues_of_execute_ok hclean henv hrunl
  exact .arith hs hv (hl henv hrunl) (hr henv₁ hrunr)

theorem compare {op : CompareOp} (hclean : l.term.Forall (Term.Clean ctx))
    (hl : l.LeadsTo ctx l') (hr : r.LeadsTo ctx r') :
    (Node.compare op l r s).LeadsTo ctx (.compare op l' r' s) := by
  intro env n' env' v henv hrun
  obtain ⟨hs, l₁, env₁, x, r₁, y, c, hrunl, hrunr, hc, rfl, -⟩ := execute_compare_ok.1 hrun
  have henv₁ := constantValues_of_execute_ok hclean henv hrunl
  exact .compare hs hc (hl henv hrunl) (hr henv₁ hrunr)

theorem sequence (hclean : a.term.Forall (Term.Clean ctx)) (ha : a.LeadsTo ctx a')
    (hb : b.LeadsTo ctx b') : (Node.sequence a b s).LeadsTo ctx (.sequence a' b' s) := by
  intro env n' env' v henv hrun
  obtain ⟨hs, a₁, env₁, u, b₁, hruna, hrunb, -⟩ := execute_sequence_ok.1 hrun
  have henv₁ := constantValues_of_execute_ok hclean henv hruna
  exact .sequence hs (ha henv hruna) (hb henv₁ hrunb)

theorem all {ns ms ns' : List Node} {vs : List Value} (h : List.Forall₂ (LeadsTo ctx) ns ms)
    (hclean : ∀ n ∈ ns, n.term.Forall (Term.Clean ctx)) (henv : ctx.ConstantValues env.scope)
    (hrun : executeAll ns env = ⟨ns', env', vs, none⟩) : List.Forall₂ (ComesTo ctx) ms vs := by
  induction h generalizing env ns' vs with
  | nil =>
    simp only [executeAll, ArgsOutcome.mk.injEq] at hrun
    obtain ⟨-, -, rfl, -⟩ := hrun
    exact .nil
  | cons hn _ ih =>
    rw [List.forall_mem_cons] at hclean
    obtain ⟨n', env₁, v, rest, ws, hrunn, hruns, -, rfl⟩ := executeAll_cons_ok.1 hrun
    exact .cons (hn henv hrunn)
      (ih hclean.2 (constantValues_of_execute_ok hclean.1 henv hrunn) hruns)

/-- A pure function gives the arguments the same answer whenever it is called. -/
theorem call (hpure : ctx.registry.PureAnswers) {name : String} {f : Overload}
    {args args' : List Node} {u : Buffer}
    (hclean : (Node.call name f args u s).term.Forall (Term.Clean ctx))
    (hf : f.function.isPure = true) (hargs : List.Forall₂ (LeadsTo ctx) args args') :
    (Node.call name f args u s).LeadsTo ctx (.call name f args' u s) := by
  intro env n' env' v henv hrun
  rw [term, terms_eq_map, Term.forall_call, List.forall_mem_map] at hclean
  obtain ⟨hs, args₁, env₁, vs, hruns, hcall, -⟩ := execute_call_ok.1 hrun
  refine .call hs (all hargs hclean.2 henv hruns) fun env₂ => ?_
  obtain ⟨other, hmem⟩ := hclean.1
  have hanswer : (Term.callFunction f vs env₂).result = (Term.callFunction f vs env₁).result :=
    hpure (other, f.function) (List.mem_of_getElem? hmem) hf _ _ vs
  rw [hanswer, hcall]

theorem folded (hpure : ctx.registry.PureAnswers) {w : Value} (hn : n.LeadsTo ctx m)
    (hw : m.FixedTo ctx (.ok w)) : n.LeadsTo ctx (.literal w) := by
  intro env n' env' v henv hrun
  obtain ⟨m', env₁, hm, -⟩ := hn henv hrun env henv
  obtain rfl := Except.ok.inj (hw.eq_of_execute_ok hpure henv hm)
  exact comesTo_literal _

theorem unsigned (ha : a.LeadsTo ctx m) : (Node.sign .plus a s).LeadsTo ctx m := by
  intro env n' env' v henv hrun
  obtain ⟨hs, a₁, u, hruna, hu, -⟩ := execute_sign_ok.1 hrun
  obtain rfl := applySign_plus hu
  exact ha henv hruna

theorem decided (hpure : ctx.registry.PureAnswers) (hclean : l.term.Forall (Term.Clean ctx))
    (h : l.FixedTo ctx (.ok (.boolean op.absorbing)) ∨
      r.FixedTo ctx (.ok (.boolean op.absorbing))) :
    (Node.logic op l r s).LeadsTo ctx (.literal (.boolean op.absorbing)) := by
  intro env n' env' v henv hrun
  obtain ⟨hs, ⟨l₁, hrunl, rfl, -⟩ | ⟨l₁, env₁, r₁, b, hrunl, hrunr, rfl, -⟩⟩ :=
    execute_logic_ok.1 hrun
  · exact comesTo_literal _
  · rcases h with hl | hr
    · have hv := Except.ok.inj (hl.eq_of_execute_ok hpure henv hrunl)
      exact (op.identity_ne_absorbing (Value.boolean.inj hv).symm).elim
    · have henv₁ := constantValues_of_execute_ok hclean henv hrunl
      rw [← Except.ok.inj (hr.eq_of_execute_ok hpure henv₁ hrunr)]
      exact comesTo_literal _

theorem onlyRight (hpure : ctx.registry.PureAnswers) (hclean : l.term.Forall (Term.Clean ctx))
    (hl : l.FixedTo ctx (.ok (.boolean op.identity))) (hr : r.LeadsTo ctx m) :
    (Node.logic op l r s).LeadsTo ctx m := by
  intro env n' env' v henv hrun
  obtain ⟨hs, ⟨l₁, hrunl, rfl, -⟩ | ⟨l₁, env₁, r₁, b, hrunl, hrunr, rfl, -⟩⟩ :=
    execute_logic_ok.1 hrun
  · have hv := Except.ok.inj (hl.eq_of_execute_ok hpure henv hrunl)
    exact (op.identity_ne_absorbing (Value.boolean.inj hv)).elim
  · exact hr (constantValues_of_execute_ok hclean henv hrunl) hrunr

/-- The node has the value of its left operand also where the right one is run : that is worth
the identity, and only the identity of the left one leads there. -/
theorem onlyLeft (hpure : ctx.registry.PureAnswers) (hclean : l.term.Forall (Term.Clean ctx))
    (hl : l.LeadsTo ctx m) (hr : r.FixedTo ctx (.ok (.boolean op.identity))) :
    (Node.logic op l r s).LeadsTo ctx m := by
  intro env n' env' v henv hrun
  obtain ⟨hs, ⟨l₁, hrunl, rfl, -⟩ | ⟨l₁, env₁, r₁, b, hrunl, hrunr, rfl, -⟩⟩ :=
    execute_logic_ok.1 hrun
  · exact hl henv hrunl
  · have henv₁ := constantValues_of_execute_ok hclean henv hrunl
    rw [← Except.ok.inj (hr.eq_of_execute_ok hpure henv₁ hrunr)]
    exact hl henv hrunl

theorem onlySecond (hclean : a.term.Forall (Term.Clean ctx)) (hb : b.LeadsTo ctx m) :
    (Node.sequence a b s).LeadsTo ctx m := by
  intro env n' env' v henv hrun
  obtain ⟨hs, a₁, env₁, u, b₁, hruna, hrunb, -⟩ := execute_sequence_ok.1 hrun
  exact hb (constantValues_of_execute_ok hclean henv hruna) hrunb

theorem stuckLeft (hl : Stuck ctx l a) : (Node.logic op l r s).LeadsTo ctx m := by
  intro env n' env' v henv hrun
  obtain ⟨hs, ⟨l₁, hrunl, -, -⟩ | ⟨l₁, env₁, r₁, b, hrunl, -, -, -⟩⟩ := execute_logic_ok.1 hrun
  · exact (hl.ne_execute henv hrunl).elim
  · exact (hl.ne_execute henv hrunl).elim

theorem stuckRight (hclean : l.term.Forall (Term.Clean ctx)) (hl : l.LeadsTo ctx l')
    (hr : Stuck ctx r r') : (Node.logic op l r s).LeadsTo ctx (.logic op l' r' s) := by
  intro env n' env' v henv hrun
  obtain ⟨hs, ⟨l₁, hrunl, rfl, -⟩ | ⟨l₁, env₁, r₁, b, hrunl, hrunr, rfl, -⟩⟩ :=
    execute_logic_ok.1 hrun
  · exact .logicLeft hs (hl henv hrunl)
  · exact (hr.ne_execute (constantValues_of_execute_ok hclean henv hrunl) hrunr).elim

end LeadsTo

/-- Where optimizing has led to a fixed tree, every value that the tree before comes to is the
value of it. -/
theorem Rewrites.leadsTo (hpure : ctx.registry.PureAnswers) (h : Rewrites ctx n m)
    (hclean : n.term.Forall (Term.Clean ctx)) (hpre : m.isPrecomputable = true) :
    n.LeadsTo ctx m := by
  induction h with
  | refl n => exact fun _ _ _ _ henv hrun => comesTo_of_execute_ok hpure hclean hpre henv hrun
  | logic hl hr ihl ihr =>
    rw [term, Term.forall_logic] at hclean
    simp only [isPrecomputable, Bool.and_eq_true] at hpre
    exact .logic hclean.2.1 (ihl hclean.2.1 hpre.1) (ihr hclean.2.2 hpre.2)
  | not ha ih =>
    rw [term, Term.forall_not] at hclean
    exact .not (ih hclean.2 hpre)
  | sign ha ih =>
    rw [term, Term.forall_sign] at hclean
    exact .sign (ih hclean.2 hpre)
  | arith hl hr ihl ihr =>
    rw [term, Term.forall_arith] at hclean
    simp only [isPrecomputable, Bool.and_eq_true] at hpre
    exact .arith hclean.2.1 (ihl hclean.2.1 hpre.1) (ihr hclean.2.2 hpre.2)
  | compare hl hr ihl ihr =>
    rw [term, Term.forall_compare] at hclean
    simp only [isPrecomputable, Bool.and_eq_true] at hpre
    exact .compare hclean.2.1 (ihl hclean.2.1 hpre.1) (ihr hclean.2.2 hpre.2)
  | assign ha ih => simp [isPrecomputable] at hpre
  | @call name f args args' b s hlen hargs ih =>
    simp only [isPrecomputable, Bool.and_eq_true, allPrecomputable_iff] at hpre
    refine .call hpure hclean hpre.1 (List.forall₂_iff_zip.2 ⟨hlen, fun {a a'} hmem => ?_⟩)
    rw [term, terms_eq_map, Term.forall_call, List.forall_mem_map] at hclean
    exact ih a a' hmem (hclean.2 a (List.of_mem_zip hmem).1) (hpre.2 a' (List.of_mem_zip hmem).2)
  | sequence ha hb iha ihb =>
    rw [term, Term.forall_sequence] at hclean
    simp only [isPrecomputable, Bool.and_eq_true] at hpre
    exact .sequence hclean.2.1 (iha hclean.2.1 hpre.1) (ihb hclean.2.2 hpre.2)
  | folded hn hv ih => exact .folded hpure (ih hclean hv.fixed) hv
  | unsigned ha hnum ih =>
    rw [term, Term.forall_sign] at hclean
    exact .unsigned (ih hclean.2 hpre)
  | decided h =>
    rw [term, Term.forall_logic] at hclean
    exact .decided hpure hclean.2.1 h
  | onlyRight hl hr hm ih =>
    rw [term, Term.forall_logic] at hclean
    exact .onlyRight hpure hclean.2.1 hl (ih hclean.2.2 hpre)
  | onlyLeft hl hm hr ih =>
    rw [term, Term.forall_logic] at hclean
    exact .onlyLeft hpure hclean.2.1 (ih hclean.2.1 hpre) hr
  | onlySecond ha hmade hfirst hb iha ihb =>
    rw [term, Term.forall_sequence] at hclean
    exact .onlySecond hclean.2.1 (ihb hclean.2.2 hpre)
  | stuckLeft hl hr ih => exact .stuckLeft hl
  | stuckRight hl hr ih =>
    rw [term, Term.forall_logic] at hclean
    simp only [isPrecomputable, Bool.and_eq_true] at hpre
    exact .stuckRight hclean.2.1 (ih hclean.2.1 hpre.1) hr

/-! ## Nothing comes of what cannot be optimized -/

/-- A right operand of `&&` and `||` comes to a value somewhere, if neither operand is fixed. -/
def Viable (ctx : BuildContext) (n : Node) : Prop :=
  ∀ op l r s, Inside (logic op l r s) n → l.isPrecomputable = false → r.isPrecomputable = false →
    ∃ env v, ctx.ConstantValues env.scope ∧ (r.answer env).result = .ok v

/-- If the arguments of a call come to values, each of them does. -/
theorem exists_execute_of_executeAll {ns ns' : List Node} {vs : List Value}
    (hclean : ∀ n ∈ ns, n.term.Forall (Term.Clean ctx)) (henv : ctx.ConstantValues env.scope)
    (hrun : executeAll ns env = ⟨ns', env', vs, none⟩) : ∀ n ∈ ns,
      ∃ env₁ n' env₂ v, ctx.ConstantValues env₁.scope ∧ n.execute env₁ = ⟨n', env₂, .ok v⟩ := by
  induction ns generalizing env ns' vs with
  | nil => simp
  | cons n ns ih =>
    rw [List.forall_mem_cons] at hclean ⊢
    obtain ⟨n', env₁, v, rest, ws, hrunn, hruns, -, -⟩ := executeAll_cons_ok.1 hrun
    exact ⟨⟨env, n', env₁, v, henv, hrunn⟩,
      ih hclean.2 (constantValues_of_execute_ok hclean.1 henv hrunn) hruns⟩

/-- A tree that cannot be optimized comes to no value. -/
theorem Rejects.ne_execute (hpure : ctx.registry.PureAnswers) (h : Rejects ctx n)
    (hclean : n.term.Forall (Term.Clean ctx)) (hviable : n.Viable ctx)
    (henv : ctx.ConstantValues env.scope) : n.execute env ≠ ⟨n', env', .ok v⟩ := by
  intro hrun
  induction h generalizing env n' env' v with
  | folded hn he =>
    obtain ⟨m', env₁, hm, -⟩ := hn.leadsTo hpure hclean he.fixed henv hrun env henv
    simpa using he.eq_of_execute_ok hpure henv hm
  | @logicLeft op l r s hl ih =>
    have hleft : l.Viable ctx := fun op a b s h => hviable op a b s (.logicLeft h)
    rw [term, Term.forall_logic] at hclean
    obtain ⟨-, ⟨l₁, hrunl, -, -⟩ | ⟨l₁, env₁, r₁, b, hrunl, -, -, -⟩⟩ := execute_logic_ok.1 hrun
    · exact ih hclean.2.1 hleft henv hrunl
    · exact ih hclean.2.1 hleft henv hrunl
  | @logicRight op l r s hl hr ih =>
    rw [term, Term.forall_logic] at hclean
    obtain ⟨-, ⟨l₁, hrunl, -, -⟩ | ⟨l₁, env₁, r₁, b, hrunl, hrunr, -, -⟩⟩ :=
      execute_logic_ok.1 hrun
    · rcases hl with hl | hl
      · have hv := Except.ok.inj (hl.eq_of_execute_ok hpure henv hrunl)
        exact (op.identity_ne_absorbing (Value.boolean.inj hv)).elim
      · exact hl _ _ _ henv (eval_of_execute_ok hrunl)
    · exact ih hclean.2.2 (fun op a b s h => hviable op a b s (.logicRight h))
        (constantValues_of_execute_ok hclean.2.1 henv hrunl) hrunr
  | logicGuarded hl hpre hr ih =>
    obtain ⟨env₁, w, henv₁, hw⟩ := hviable _ _ _ _ .self hl hpre
    rw [term, Term.forall_logic] at hclean
    exact ih hclean.2.2 (fun op a b s h => hviable op a b s (.logicRight h)) henv₁
      (execute_eq_iff.2 ⟨hw, rfl, rfl⟩)
  | not ha ih =>
    rw [term, Term.forall_not] at hclean
    obtain ⟨-, a₁, b, hruna, -, -⟩ := execute_not_ok.1 hrun
    exact ih hclean.2 (fun op a b s h => hviable op a b s (.not h)) henv hruna
  | sign ha ih =>
    rw [term, Term.forall_sign] at hclean
    obtain ⟨-, a₁, u, hruna, -, -⟩ := execute_sign_ok.1 hrun
    exact ih hclean.2 (fun op a b s h => hviable op a b s (.sign h)) henv hruna
  | arithLeft hl ih =>
    rw [term, Term.forall_arith] at hclean
    obtain ⟨-, l₁, env₁, x, r₁, y, hrunl, -, -, -⟩ := execute_arith_ok.1 hrun
    exact ih hclean.2.1 (fun op a b s h => hviable op a b s (.arithLeft h)) henv hrunl
  | arithRight hr ih =>
    rw [term, Term.forall_arith] at hclean
    obtain ⟨-, l₁, env₁, x, r₁, y, hrunl, hrunr, -, -⟩ := execute_arith_ok.1 hrun
    exact ih hclean.2.2 (fun op a b s h => hviable op a b s (.arithRight h))
      (constantValues_of_execute_ok hclean.2.1 henv hrunl) hrunr
  | compareLeft hl ih =>
    rw [term, Term.forall_compare] at hclean
    obtain ⟨-, l₁, env₁, x, r₁, y, c, hrunl, -, -, -, -⟩ := execute_compare_ok.1 hrun
    exact ih hclean.2.1 (fun op a b s h => hviable op a b s (.compareLeft h)) henv hrunl
  | compareRight hr ih =>
    rw [term, Term.forall_compare] at hclean
    obtain ⟨-, l₁, env₁, x, r₁, y, c, hrunl, hrunr, -, -, -⟩ := execute_compare_ok.1 hrun
    exact ih hclean.2.2 (fun op a b s h => hviable op a b s (.compareRight h))
      (constantValues_of_execute_ok hclean.2.1 henv hrunl) hrunr
  | assign ha ih =>
    rw [term, Term.forall_assign] at hclean
    obtain ⟨a₁, env₁, u, scope, hruna, -, -, -, -⟩ := execute_assign_ok.1 hrun
    exact ih hclean.2 (fun op a b s h => hviable op a b s (.assign h)) henv hruna
  | call hmem ha ih =>
    rw [term, terms_eq_map, Term.forall_call, List.forall_mem_map] at hclean
    obtain ⟨-, args₁, env₁, vs, hruns, -, -⟩ := execute_call_ok.1 hrun
    obtain ⟨env₂, a', env₃, w, henv₂, hruna⟩ :=
      exists_execute_of_executeAll hclean.2 henv hruns _ hmem
    exact ih (hclean.2 _ hmem) (fun op a b s h => hviable op a b s (.call hmem h)) henv₂ hruna
  | first ha ih =>
    rw [term, Term.forall_sequence] at hclean
    obtain ⟨-, a₁, env₁, u, b₁, hruna, -, -⟩ := execute_sequence_ok.1 hrun
    exact ih hclean.2.1 (fun op a b s h => hviable op a b s (.first h)) henv hruna
  | second hb ih =>
    rw [term, Term.forall_sequence] at hclean
    obtain ⟨-, a₁, env₁, u, b₁, hruna, hrunb, -⟩ := execute_sequence_ok.1 hrun
    exact ih hclean.2.2 (fun op a b s h => hviable op a b s (.second h))
      (constantValues_of_execute_ok hclean.2.1 henv hruna) hrunb

end Node

namespace Compiler

/-- If compiling fails although the tree can be built, every run of the expression that is not
optimized fails where the constants have the values that they have while compiling. What a pure
function answers depends on its arguments only, and a right operand of `&&` and `||` comes to a
value somewhere if neither operand is fixed. -/
theorem fails_of_compile_error {c : Compiler} {source : String} {scope s : Scope}
    {plain : Expression} {before history : History} {e : Fault}
    (hpure : c.registry.PureAnswers) (hplain : c.compilePlain source scope = .ok plain)
    (hopt : (c.compile source scope before).result = .error e)
    (hviable : plain.root.Viable ⟨c.settings, c.registry, scope⟩)
    (hs : BuildContext.ConstantValues ⟨c.settings, c.registry, scope⟩ s) :
    ∃ fault, (plain.execute ⟨s, history⟩).result = .error fault := by
  obtain ⟨root, hroot, rfl⟩ := Except.map_eq_ok.1 hplain
  obtain ⟨es, -, hbuilt, -⟩ := build_built hroot
  have hstart : BuildContext.ConstantValues ⟨c.settings, c.registry, scope⟩ scope.toSealed :=
    fun name v _ hv => hv
  have hends : (root.optimize ⟨scope.toSealed, before⟩).Ends _ _ _ :=
    hbuilt.optimize_ends hpure BuildContext.compiling_values hstart
  unfold compile at hopt
  rw [hroot] at hopt
  have hrejects := hends.fault e (Except.map_eq_error.1 hopt)
  cases hrun : ((Expression.ofNode root).execute ⟨s, history⟩).result with
  | error fault => exact ⟨fault, rfl⟩
  | ok v =>
    exact (hrejects.ne_execute hpure hbuilt.clean hviable hs
      (Node.execute_eq_iff.2 ⟨hrun, rfl, rfl⟩)).elim

/-- A division of constants by zero, after a connective of variables. -/
theorem fails_of_compile_error_division :
    ∃ plain fault,
      compilePlain ⟨Settings.standard, .empty⟩ "p && x > 1; x + 1 / 0" (.store (.ofList [])) =
        .ok plain ∧
      (compile ⟨Settings.standard, .empty⟩ "p && x > 1; x + 1 / 0" (.store (.ofList []))
        []).result = .error (.runtime (.divisionByZero .div)) ∧
      (plain.execute ⟨.store (.ofList [("p", .boolean false), ("x", .integer 1)]),
        []⟩).result = .error fault := by
  have hplain : (compilePlain ⟨Settings.standard, .empty⟩ "p && x > 1; x + 1 / 0"
      (.store (.ofList []))).map (·.root) =
      .ok (.sequence
        (.logic .and (.read "p" false (.ofKind none))
          (.compare .gt (.read "x" false (.ofKind none)) (.literal (.integer 1))
            (.ofKind (some .boolean))) (.ofKind (some .boolean)))
        (.arith .add (.read "x" false (.ofKind none))
          (.arith .div (.literal (.integer 1)) (.literal (.integer 0)) (.ofKind (some .integer)))
          (.ofKind none)) (.ofKind none)) := by cbv
  have hopt : (compile ⟨Settings.standard, .empty⟩ "p && x > 1; x + 1 / 0"
      (.store (.ofList [])) []).result.map (fun _ => ()) =
        .error (.runtime (.divisionByZero .div)) := by cbv
  obtain ⟨plain, hplain, hroot⟩ := Except.map_eq_ok.1 hplain
  have hopt := Except.map_eq_error.1 hopt
  have hvalues : ∀ s, BuildContext.ConstantValues
      ⟨Settings.standard, .empty, .store (.ofList [])⟩ s := by
    simp [BuildContext.ConstantValues, Settings.isConstant, Settings.standard]
  have hfails : ∃ fault, (plain.execute
      ⟨.store (.ofList [("p", .boolean false), ("x", .integer 1)]), []⟩).result =
        .error fault := by
    refine fails_of_compile_error (by simp [Registry.PureAnswers, Registry.empty]) hplain hopt
      ?_ (hvalues _)
    rw [hroot]
    intro op l r s h hl hr
    cases h with
    | first h =>
      cases h with
      | self =>
        exact ⟨⟨.store (.ofList [("x", .integer 1)]), []⟩, .boolean false, hvalues _, by cbv⟩
      | logicLeft h => cases h
      | logicRight h => repeat cases ‹Node.Inside _ _›
    | second h => repeat cases ‹Node.Inside _ _›
  obtain ⟨fault, hfault⟩ := hfails
  exact ⟨plain, fault, hplain, hopt, hfault⟩

/-- The division by zero comes up while compiling, although the left operand keeps it from
being run. -/
theorem not_fails_of_guarded :
    ∃ plain,
      compilePlain standard "p && x > 1 / 0" (.store (.ofList [])) = .ok plain ∧
      (compile standard "p && x > 1 / 0" (.store (.ofList [])) []).result =
        .error (.runtime (.divisionByZero .div)) ∧
      (plain.execute ⟨.store (.ofList [("p", .boolean false), ("x", .integer 1)]),
        []⟩).result = .ok (.boolean false) := by
  have hplain : (compilePlain standard "p && x > 1 / 0" (.store (.ofList []))).map
      (fun e => (e.execute ⟨.store (.ofList [("p", .boolean false), ("x", .integer 1)]),
        []⟩).result) = .ok (.ok (.boolean false)) := by cbv
  have hopt : (compile standard "p && x > 1 / 0" (.store (.ofList [])) []).result.map
      (fun _ => ()) = .error (.runtime (.divisionByZero .div)) := by cbv
  obtain ⟨plain, hplain, hvalue⟩ := Except.map_eq_ok.1 hplain
  exact ⟨plain, hplain, Except.map_eq_error.1 hopt, hvalue⟩

end Compiler

end Formula

import Formula.Proofs.Matching
import Formula.Proofs.Purity

/-!
# Trees that follow another

`Node.Follows` relates a tree to one that does less : subtrees have become literals, and
operands that make no difference are gone. It says nothing of runs. Its theorem does
(`Node.Follows.run`) : where a run of the first tree comes to a value, a run of the second
one comes to the same value and leaves the same variables, and what the two runs leave of the
trees are again trees of which one follows the other. Successful runs can therefore go on
forever.

The two trees never disagree about a slot. A node that is in both is run by both or by none,
with the same value, and the slots of a node that is gone refuse nothing any more.

The runs start in surroundings that no formula can tell apart (`BuildContext.Twins`), and leave
such ones. Form by form, this follows from the same for the operands (`Node.RunsAlong`).
-/

namespace Formula

variable {ctx : BuildContext}

/-! ## Surroundings that no formula can tell apart -/

/-- Surroundings that no formula can tell apart, in which the constants have the values that
they have while compiling. -/
structure BuildContext.Twins (ctx : BuildContext) (env env' : Env) : Prop where
  values : ctx.ConstantValues env.scope
  alike : Env.Alike ctx.registry env env'

namespace BuildContext.Twins

variable {env env₁ env₂ : Env}

theorem refl (h : ctx.ConstantValues env.scope) : ctx.Twins env env := ⟨h, .refl⟩

theorem right (h : ctx.Twins env env₁) : ctx.ConstantValues env₁.scope :=
  Term.constantValues_of_alike h.alike h.values

theorem trans (h : ctx.Twins env env₁) (h' : Env.Alike ctx.registry env₁ env₂) :
    ctx.Twins env env₂ :=
  ⟨h.values, h.alike.trans h'⟩

/-- The first surroundings may go on to others, too. -/
theorem trans_left (h : ctx.Twins env env₁) (h' : Env.Alike ctx.registry env env₂) :
    ctx.Twins env₂ env₁ :=
  ⟨Term.constantValues_of_alike h' h.values, h'.symm.trans h.alike⟩

end BuildContext.Twins

/-- What a clean term reads, binds or calls is the same in surroundings that no formula can tell
apart. -/
theorem Term.Clean.keepsBoth (hlawful : ctx.registry.Lawful) {t : Term} (h : t.Clean ctx) :
    t.KeepsBoth ctx.Twins := by
  cases t with
  | read name c =>
    intro env env' henv
    rw [henv.alike.scope]
  | assign op name v =>
    intro env env' henv
    refine ⟨by rw [henv.alike.scope], fun w => .of_scope henv.alike.scope fun s hset => ?_⟩
    exact ⟨h.keeps env w s henv.values hset, rfl, henv.alike.calls⟩
  | call name f args =>
    intro env env' vs henv
    obtain ⟨hresult, hcalls⟩ := callFunction_alike hlawful h henv.alike vs
    exact ⟨hresult, henv.values, hcalls⟩
  | _ => trivial

/-! ## Trees that do less -/

/-- In whichever surroundings the term comes to a value, that value is `v` and the
surroundings stay as they were. -/
def BuildContext.Settles (ctx : BuildContext) (t : Term) (v : Value) : Prop :=
  ∀ env w env', ctx.ConstantValues env.scope → t.eval env = ⟨.ok w, env'⟩ →
    w = v ∧ Env.Alike ctx.registry env env'

/-- In whichever surroundings the term comes to a value, they stay as they were. -/
def BuildContext.Still (ctx : BuildContext) (t : Term) : Prop :=
  ∀ env w env', ctx.ConstantValues env.scope → t.eval env = ⟨.ok w, env'⟩ →
    Env.Alike ctx.registry env env'

/-- The term never comes to a truth value. -/
def BuildContext.NeverTruth (ctx : BuildContext) (t : Term) : Prop :=
  ∀ env b env', ctx.ConstantValues env.scope → t.eval env ≠ ⟨.ok (.boolean b), env'⟩

namespace Node

/-- The second tree does what the first one does, as long as that comes to values. -/
inductive Follows (ctx : BuildContext) : Node → Node → Prop
  | refl (n : Node) : Follows ctx n n
  | logic {op : Connective} {l l' r r' : Node} {s : Slot} (hl : Follows ctx l l')
      (hr : Follows ctx r r') : Follows ctx (logic op l r s) (logic op l' r' s)
  | not {a a' : Node} {s : Slot} (ha : Follows ctx a a') : Follows ctx (not a s) (not a' s)
  | sign {g : Sign} {a a' : Node} {s : Slot} (ha : Follows ctx a a') :
      Follows ctx (sign g a s) (sign g a' s)
  | arith {op : ArithOp} {l l' r r' : Node} {s : Slot} (hl : Follows ctx l l')
      (hr : Follows ctx r r') : Follows ctx (arith op l r s) (arith op l' r' s)
  | compare {op : CompareOp} {l l' r r' : Node} {s : Slot} (hl : Follows ctx l l')
      (hr : Follows ctx r r') : Follows ctx (compare op l r s) (compare op l' r' s)
  | assign {op : AssignOp} {name : String} {target : Option Kind} {a a' : Node} {s : Slot}
      (ha : Follows ctx a a') : Follows ctx (assign op name target a s) (assign op name target a' s)
  | call {name : String} {f : Overload} {args args' : List Node} {b : Buffer} {s : Slot}
      (hlen : args.length = args'.length)
      (hargs : ∀ a a', (a, a') ∈ args.zip args' → Follows ctx a a') :
      Follows ctx (call name f args b s) (call name f args' b s)
  | sequence {a a' b b' : Node} {s : Slot} (ha : Follows ctx a a') (hb : Follows ctx b b') :
      Follows ctx (sequence a b s) (sequence a' b' s)
  /-- A tree whose value is fixed has become a literal. -/
  | folded {n m : Node} {v : Value} (hn : Follows ctx n m) (hv : ctx.Settles m.term v) :
      Follows ctx n (literal v)
  /-- A sign `+` is gone. -/
  | unsigned {a m : Node} {s : Slot} (ha : Follows ctx a m) : Follows ctx (sign .plus a s) m
  /-- A left operand that leaves the result to the right one is gone. -/
  | onlyRight {op : Connective} {l r m : Node} {s : Slot}
      (hl : ctx.Settles l.term (.boolean op.identity)) (hr : Follows ctx r m) :
      Follows ctx (logic op l r s) m
  /-- A right operand that leaves the result to the left one is gone. -/
  | onlyLeft {op : Connective} {l r m : Node} {s : Slot} (hl : Follows ctx l m)
      (hr : ctx.Settles r.term (.boolean op.identity)) : Follows ctx (logic op l r s) m
  /-- A statement that has no effect is gone. -/
  | onlySecond {a a' b m : Node} {s : Slot} (ha : Follows ctx a a') (hstill : ctx.Still a'.term)
      (hb : Follows ctx b m) : Follows ctx (sequence a b s) m
  /-- A connective whose left operand is never a truth value comes to no value. -/
  | stuckLeft {op : Connective} {l r m : Node} {s : Slot} (hl : ctx.NeverTruth l.term) :
      Follows ctx (logic op l r s) m
  /-- A right operand that is never a truth value is not run where the tree comes to one. -/
  | stuckRight {op : Connective} {l l' r r' : Node} {s : Slot} (hl : Follows ctx l l')
      (hr : ctx.NeverTruth r.term) : Follows ctx (logic op l r s) (logic op l' r' s)

variable {n m n' l l' r r' a a' b b' : Node} {s : Slot} {op : Connective} {env env₁ env' : Env}
  {v : Value}

theorem Follows.of_forall₂ {name : String} {f : Overload} {args args' : List Node} {b : Buffer}
    {s : Slot} (h : List.Forall₂ (Follows ctx) args args') :
    Follows ctx (Node.call name f args b s) (Node.call name f args' b s) :=
  .call (List.forall₂_iff_zip.1 h).1 fun _ _ => (List.forall₂_iff_zip.1 h).2

/-! ## Following a run -/

theorem eval_of_execute_ok (h : n.execute env = ⟨n', env', .ok v⟩) :
    n.term.eval env = ⟨.ok v, env'⟩ :=
  eval_of_answer_ok (by rw [answer, Outcome.answer, h])

/-- A run keeps the term of the tree. -/
theorem term_of_execute_ok (h : n.execute env = ⟨n', env', .ok v⟩) : n'.term = n.term := by
  have hterm : (n.execute env).node.term = n.term := term_execute
  rwa [h] at hterm

/-- A run leaves the constants as they were. -/
theorem constantValues_of_execute_ok (hclean : n.term.Forall (Term.Clean ctx))
    (henv : ctx.ConstantValues env.scope) (h : n.execute env = ⟨n', env', .ok v⟩) :
    ctx.ConstantValues env'.scope := by
  have hkeep := Term.eval_constantValues hclean henv
  rwa [eval_of_execute_ok h] at hkeep

/-- Where a run of the first tree comes to a value, a run of the second one comes to it too. The
surroundings cannot be told apart, before the runs and after them, and what they leave of the
second tree follows what they leave of the first one. -/
def RunsAlong (ctx : BuildContext) (n m : Node) : Prop :=
  ∀ ⦃env env₁ n' env' v⦄, ctx.Twins env env₁ → n.execute env = ⟨n', env', .ok v⟩ →
    ∃ m' env₁', m.execute env₁ = ⟨m', env₁', .ok v⟩ ∧ ctx.Twins env' env₁' ∧ Follows ctx n' m'

/-! ## Form by form -/

namespace RunsAlong

/-- A tree runs along with itself. -/
theorem of_keepsBoth (hn : n.term.Forall (Term.KeepsBoth ctx.Twins)) : RunsAlong ctx n n := by
  intro env env₁ n' env' v henv hrun
  obtain ⟨hnode, hresult, henv'⟩ := execute_matches hn henv
  rw [hrun] at hnode hresult henv'
  exact ⟨n', _, execute_eq_iff.2 ⟨hresult, hnode, rfl⟩, henv', .refl n'⟩

/-- A right operand that is not run has to follow all the same, since a later run may come to it. -/
theorem logic (hl : RunsAlong ctx l l') (hr : RunsAlong ctx r r') (hfollows : Follows ctx r r') :
    RunsAlong ctx (logic op l r s) (logic op l' r' s) := by
  intro env env₁ n' env' v henv hrun
  obtain ⟨hs, ⟨l₁, hrunl, rfl, rfl⟩ | ⟨l₁, env₂, r₁, b, hrunl, hrunr, rfl, rfl⟩⟩ :=
    execute_logic_ok.1 hrun
  · obtain ⟨m₁, env₁', hm, henv', hfl⟩ := hl henv hrunl
    exact ⟨_, env₁', execute_logic_ok.2 ⟨hs, .inl ⟨m₁, hm, rfl, rfl⟩⟩, henv',
      .logic hfl hfollows⟩
  · obtain ⟨m₁, env₃, hm, henv₂, hfl⟩ := hl henv hrunl
    obtain ⟨m₂, env₁', hm', henv', hfr⟩ := hr henv₂ hrunr
    exact ⟨_, env₁', execute_logic_ok.2 ⟨hs, .inr ⟨m₁, env₃, m₂, b, hm, hm', rfl, rfl⟩⟩, henv',
      .logic hfl hfr⟩

theorem not (ha : RunsAlong ctx a a') : RunsAlong ctx (not a s) (not a' s) := by
  intro env env₁ n' env' v henv hrun
  obtain ⟨hs, a₁, b, hruna, rfl, rfl⟩ := execute_not_ok.1 hrun
  obtain ⟨m₁, env₁', hm, henv', hf⟩ := ha henv hruna
  exact ⟨_, env₁', execute_not_ok.2 ⟨hs, m₁, b, hm, rfl, rfl⟩, henv', .not hf⟩

theorem sign {g : Sign} (ha : RunsAlong ctx a a') : RunsAlong ctx (sign g a s) (sign g a' s) := by
  intro env env₁ n' env' v henv hrun
  obtain ⟨hs, a₁, u, hruna, hu, rfl⟩ := execute_sign_ok.1 hrun
  obtain ⟨m₁, env₁', hm, henv', hf⟩ := ha henv hruna
  exact ⟨_, env₁', execute_sign_ok.2 ⟨hs, m₁, u, hm, hu, rfl⟩, henv', .sign hf⟩

theorem arith {op : ArithOp} (hl : RunsAlong ctx l l') (hr : RunsAlong ctx r r') :
    RunsAlong ctx (arith op l r s) (arith op l' r' s) := by
  intro env env₁ n' env' v henv hrun
  obtain ⟨hs, l₁, env₂, x, r₁, y, hrunl, hrunr, hv, rfl⟩ := execute_arith_ok.1 hrun
  obtain ⟨m₁, env₃, hm, henv₂, hfl⟩ := hl henv hrunl
  obtain ⟨m₂, env₁', hm', henv', hfr⟩ := hr henv₂ hrunr
  exact ⟨_, env₁', execute_arith_ok.2 ⟨hs, m₁, env₃, x, m₂, y, hm, hm', hv, rfl⟩, henv',
    .arith hfl hfr⟩

theorem compare {op : CompareOp} (hl : RunsAlong ctx l l') (hr : RunsAlong ctx r r') :
    RunsAlong ctx (compare op l r s) (compare op l' r' s) := by
  intro env env₁ n' env' v henv hrun
  obtain ⟨hs, l₁, env₂, x, r₁, y, c, hrunl, hrunr, hc, rfl, rfl⟩ := execute_compare_ok.1 hrun
  obtain ⟨m₁, env₃, hm, henv₂, hfl⟩ := hl henv hrunl
  obtain ⟨m₂, env₁', hm', henv', hfr⟩ := hr henv₂ hrunr
  exact ⟨_, env₁', execute_compare_ok.2 ⟨hs, m₁, env₃, x, m₂, y, c, hm, hm', hc, rfl, rfl⟩, henv',
    .compare hfl hfr⟩

theorem assign {op : AssignOp} {name : String} {target : Option Kind} {t : Term}
    (hbind : (Term.assign op name t).KeepsBoth ctx.Twins) (ha : RunsAlong ctx a a') :
    RunsAlong ctx (assign op name target a s) (assign op name target a' s) := by
  intro env env₁ n' env' v henv hrun
  obtain ⟨a₁, env₂, u, scope, hruna, hu, hb, rfl, rfl⟩ := execute_assign_ok.1 hrun
  obtain ⟨m₁, env₃, hm, henv₂, hf⟩ := ha henv hruna
  obtain ⟨hget, hset⟩ := hbind _ _ henv₂
  rw [← assigned_congr hget] at hu
  obtain ⟨e, he, -⟩ | ⟨scope', scope₁, hb', hb₁, henv'⟩ := bindVariable_both (hset v) target s
  · simp [he] at hb
  · obtain rfl := Except.ok.inj (hb'.symm.trans hb)
    exact ⟨_, _, execute_assign_ok.2 ⟨m₁, env₃, u, scope₁, hm, hu, hb₁, rfl, rfl⟩, henv',
      .assign hf⟩

/-- Arguments run along one after the other. -/
theorem executeAll {ns ms ns' : List Node} {vs : List Value}
    (h : List.Forall₂ (RunsAlong ctx) ns ms) (henv : ctx.Twins env env₁)
    (hrun : executeAll ns env = ⟨ns', env', vs, none⟩) :
    ∃ ms' env₁', Node.executeAll ms env₁ = ⟨ms', env₁', vs, none⟩ ∧ ctx.Twins env' env₁' ∧
      List.Forall₂ (Follows ctx) ns' ms' := by
  induction h generalizing env env₁ ns' vs with
  | nil =>
    simp only [Node.executeAll, ArgsOutcome.mk.injEq] at hrun
    obtain ⟨rfl, rfl, rfl, -⟩ := hrun
    exact ⟨[], env₁, by rw [Node.executeAll], henv, .nil⟩
  | cons hn _ ih =>
    obtain ⟨n', env₂, v, rest, ws, hrunn, hruns, rfl, rfl⟩ := executeAll_cons_ok.1 hrun
    obtain ⟨m', env₃, hm, henv₂, hfollow⟩ := hn henv hrunn
    obtain ⟨ms', env₁', hms, henv', hfollows⟩ := ih henv₂ hruns
    exact ⟨m' :: ms', env₁', executeAll_cons_ok.2 ⟨m', env₃, v, ms', ws, hm, hms, rfl, rfl⟩,
      henv', .cons hfollow hfollows⟩

theorem call {name : String} {f : Overload} {args args' : List Node} {ts : List Term} {b : Buffer}
    (hcall : (Term.call name f ts).KeepsBoth ctx.Twins)
    (hargs : List.Forall₂ (RunsAlong ctx) args args') :
    RunsAlong ctx (call name f args b s) (call name f args' b s) := by
  intro env env₁ n' env' v henv hrun
  obtain ⟨hs, args₁, env₂, vs, hruns, hanswer, rfl⟩ := execute_call_ok.1 hrun
  obtain ⟨ms, env₃, hms, henv₂, hfollows⟩ := executeAll hargs henv hruns
  obtain ⟨hresult, henv'⟩ := hcall _ _ vs henv₂
  rw [hanswer] at hresult henv'
  refine ⟨_, (Term.callFunction f vs env₃).env, execute_call_ok.2
    ⟨hs, ms, env₃, vs, hms, ?_, rfl⟩, henv', .of_forall₂ hfollows⟩
  exact congrArg (fun r => (⟨r, (Term.callFunction f vs env₃).env⟩ : Answer Value)) hresult

theorem sequence (ha : RunsAlong ctx a a') (hb : RunsAlong ctx b b') :
    RunsAlong ctx (sequence a b s) (sequence a' b' s) := by
  intro env env₁ n' env' v henv hrun
  obtain ⟨hs, a₁, env₂, u, b₁, hruna, hrunb, rfl⟩ := execute_sequence_ok.1 hrun
  obtain ⟨m₁, env₃, hm, henv₂, hfa⟩ := ha henv hruna
  obtain ⟨m₂, env₁', hm', henv', hfb⟩ := hb henv₂ hrunb
  exact ⟨_, env₁', execute_sequence_ok.2 ⟨hs, m₁, env₃, u, m₂, hm, hm', rfl⟩, henv',
    .sequence hfa hfb⟩

/-- The value that a tree comes to, if it comes to one, runs along with it. -/
theorem folded (h : RunsAlong ctx n m) (hv : ctx.Settles m.term v) :
    RunsAlong ctx n (literal v) := by
  intro env env₁ n' env' w henv hrun
  obtain ⟨m', env₂, hm, henv', hf⟩ := h henv hrun
  obtain ⟨rfl, hstill⟩ := hv env₁ w env₂ henv.right (eval_of_execute_ok hm)
  refine ⟨_, env₁, by rw [execute], henv'.trans hstill.symm, .folded hf ?_⟩
  rwa [term_of_execute_ok hm]

theorem unsigned (ha : RunsAlong ctx a m) : RunsAlong ctx (.sign .plus a s) m := by
  intro env env₁ n' env' v henv hrun
  obtain ⟨hs, a₁, u, hruna, hu, rfl⟩ := execute_sign_ok.1 hrun
  obtain rfl : u = v := applySign_plus hu
  obtain ⟨m', env₁', hm, henv', hf⟩ := ha henv hruna
  exact ⟨m', env₁', hm, henv', .unsigned hf⟩

/-- The left operand leaves no mark on the surroundings, so the right one may be run without it. -/
theorem onlyRight (hl : ctx.Settles l.term (.boolean op.identity)) (hr : RunsAlong ctx r m) :
    RunsAlong ctx (.logic op l r s) m := by
  intro env env₁ n' env' v henv hrun
  obtain ⟨hs, ⟨l₁, hrunl, rfl, rfl⟩ | ⟨l₁, env₂, r₁, b, hrunl, hrunr, rfl, rfl⟩⟩ :=
    execute_logic_ok.1 hrun
  · obtain ⟨hv, -⟩ := hl env _ env' henv.values (eval_of_execute_ok hrunl)
    exact (op.identity_ne_absorbing (Value.boolean.inj hv).symm).elim
  · obtain ⟨-, hstill⟩ := hl env _ env₂ henv.values (eval_of_execute_ok hrunl)
    obtain ⟨m', env₁', hm, henv', hf⟩ := hr (henv.trans_left hstill) hrunr
    refine ⟨m', env₁', hm, henv', .onlyRight ?_ hf⟩
    rwa [term_of_execute_ok hrunl]

theorem onlyLeft (hl : RunsAlong ctx l m) (hr : ctx.Settles r.term (.boolean op.identity)) :
    RunsAlong ctx (.logic op l r s) m := by
  intro env env₁ n' env' v henv hrun
  obtain ⟨hs, ⟨l₁, hrunl, rfl, rfl⟩ | ⟨l₁, env₂, r₁, b, hrunl, hrunr, rfl, rfl⟩⟩ :=
    execute_logic_ok.1 hrun
  · obtain ⟨m', env₁', hm, henv', hf⟩ := hl henv hrunl
    exact ⟨m', env₁', hm, henv', .onlyLeft hf hr⟩
  · obtain ⟨m', env₁', hm, henv₂, hf⟩ := hl henv hrunl
    obtain ⟨hb, hstill⟩ := hr env₂ _ env' henv₂.values (eval_of_execute_ok hrunr)
    refine ⟨m', env₁', by rw [hb]; exact hm, henv₂.trans_left hstill, .onlyLeft hf ?_⟩
    rwa [term_of_execute_ok hrunr]

/-- What is left of the statement is run beside it, to see that it leaves no mark. -/
theorem onlySecond (ha : RunsAlong ctx a a') (hstill : ctx.Still a'.term)
    (hb : RunsAlong ctx b m) : RunsAlong ctx (.sequence a b s) m := by
  intro env env₁ n' env' v henv hrun
  obtain ⟨hs, a₁, env₂, u, b₁, hruna, hrunb, rfl⟩ := execute_sequence_ok.1 hrun
  obtain ⟨a₂, env₃, hm, henv₂, hfa⟩ := ha henv hruna
  have hsame := hstill env₁ u env₃ henv.right (eval_of_execute_ok hm)
  obtain ⟨m', env₁', hm', henv', hfb⟩ := hb (henv₂.trans hsame.symm) hrunb
  refine ⟨m', env₁', hm', henv', .onlySecond hfa ?_ hfb⟩
  rwa [term_of_execute_ok hm]

theorem stuckLeft (hl : ctx.NeverTruth l.term) : RunsAlong ctx (.logic op l r s) m := by
  intro env env₁ n' env' v henv hrun
  obtain ⟨-, ⟨l₁, hrunl, -⟩ | ⟨l₁, env₂, r₁, b, hrunl, -⟩⟩ := execute_logic_ok.1 hrun
  · exact (hl env _ env' henv.values (eval_of_execute_ok hrunl)).elim
  · exact (hl env _ env₂ henv.values (eval_of_execute_ok hrunl)).elim

theorem stuckRight (hl : RunsAlong ctx l l') (hr : ctx.NeverTruth r.term) :
    RunsAlong ctx (.logic op l r s) (.logic op l' r' s) := by
  intro env env₁ n' env' v henv hrun
  obtain ⟨hs, ⟨l₁, hrunl, rfl, rfl⟩ | ⟨l₁, env₂, r₁, b, hrunl, hrunr, rfl, rfl⟩⟩ :=
    execute_logic_ok.1 hrun
  · obtain ⟨m₁, env₁', hm, henv', hf⟩ := hl henv hrunl
    exact ⟨_, env₁', execute_logic_ok.2 ⟨hs, .inl ⟨m₁, hm, rfl, rfl⟩⟩, henv',
      .stuckRight hf hr⟩
  · obtain ⟨m₁, env₁', hm, henv₂, hf⟩ := hl henv hrunl
    exact (hr env₂ b env' henv₂.values (eval_of_execute_ok hrunr)).elim

end RunsAlong

/-- Where a run of a tree comes to a value, a run of a tree that follows it does. -/
theorem Follows.run (hlawful : ctx.registry.Lawful) (h : Follows ctx n m)
    (hclean : n.term.Forall (Term.Clean ctx)) : RunsAlong ctx n m := by
  induction h with
  | refl n => exact .of_keepsBoth fun t ht => (hclean t ht).keepsBoth hlawful
  | logic hl hr ihl ihr =>
    rw [term, Term.forall_logic] at hclean
    exact .logic (ihl hclean.2.1) (ihr hclean.2.2) hr
  | not ha ih =>
    rw [term, Term.forall_not] at hclean
    exact .not (ih hclean.2)
  | sign ha ih =>
    rw [term, Term.forall_sign] at hclean
    exact .sign (ih hclean.2)
  | arith hl hr ihl ihr =>
    rw [term, Term.forall_arith] at hclean
    exact .arith (ihl hclean.2.1) (ihr hclean.2.2)
  | compare hl hr ihl ihr =>
    rw [term, Term.forall_compare] at hclean
    exact .compare (ihl hclean.2.1) (ihr hclean.2.2)
  | assign ha ih =>
    rw [term, Term.forall_assign] at hclean
    exact .assign (hclean.1.keepsBoth hlawful) (ih hclean.2)
  | call hlen hargs ih =>
    rw [term, terms_eq_map, Term.forall_call, List.forall_mem_map] at hclean
    refine .call (hclean.1.keepsBoth hlawful) (List.forall₂_iff_zip.2 ⟨hlen, fun {a a'} hmem => ?_⟩)
    exact ih a a' hmem (hclean.2 a (List.of_mem_zip hmem).1)
  | sequence ha hb iha ihb =>
    rw [term, Term.forall_sequence] at hclean
    exact .sequence (iha hclean.2.1) (ihb hclean.2.2)
  | folded hn hv ih => exact .folded (ih hclean) hv
  | unsigned ha ih =>
    rw [term, Term.forall_sign] at hclean
    exact .unsigned (ih hclean.2)
  | onlyRight hl hr ih =>
    rw [term, Term.forall_logic] at hclean
    exact .onlyRight hl (ih hclean.2.2)
  | onlyLeft hl hr ih =>
    rw [term, Term.forall_logic] at hclean
    exact .onlyLeft (ih hclean.2.1) hr
  | onlySecond ha hstill hb iha ihb =>
    rw [term, Term.forall_sequence] at hclean
    exact .onlySecond (iha hclean.2.1) hstill (ihb hclean.2.2)
  | stuckLeft hl => exact .stuckLeft hl
  | stuckRight hl hr ih =>
    rw [term, Term.forall_logic] at hclean
    exact .stuckRight (ih hclean.2.1) hr

end Node

end Formula

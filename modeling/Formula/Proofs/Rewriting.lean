import Formula.Proofs.FirstRun
import Formula.Proofs.Following
import Formula.Proofs.Repeating

/-!
# What optimizing does to a tree

`Node.Rewrites` says step by step how a tree turns into the one that optimizing makes of it :
operands are rewritten, subtrees that are fixed become literals, and operands that make no
difference go away. Each step keeps what was found out for it, mostly by running what is fixed
(`Node.FixedTo`). `Node.Rejects` does the same for the trees that cannot be optimized.

Optimizing a tree that was built does nothing else (`Node.Built.optimize_ends`). So what is to
be shown of optimized trees is shown for one step at a time, and `Node.optimize` is not looked
at again.
-/

namespace Formula

variable {ctx : BuildContext} {P : Env → Prop}

theorem BuildContext.ConstantValues.kinds {scope : Scope} (h : ctx.ConstantValues scope) :
    ctx.ConstantKinds scope :=
  fun name v hconst hv => ⟨v, h name v hconst hv, rfl⟩

namespace Term

theorem Clean.isLocal : Local (Clean ctx) where
  assign _ _ _ _ h := h
  call _ _ _ _ h := h

/-- Surroundings that bind the constants to the same values cannot be told apart by what a fixed
term reads or calls. Which calls were made before makes no difference. -/
theorem Fixed.keepsBoth_of {R : Env → Env → Prop} (hpure : ctx.registry.PureAnswers)
    (hread : ∀ {env env' name}, R env env' → ctx.settings.isConstant name = true →
      (ctx.scope.get? name).isSome → env'.scope.get? name = env.scope.get? name)
    (hcall : ∀ {env env' : Env} {h h'}, R env env' →
      R { env with history := h } { env' with history := h' }) {t : Term} (hclean : t.Clean ctx)
    (h : t.Fixed) : t.KeepsBoth R := by
  cases t with
  | read name c => exact fun env env' henv => hread henv (hclean h).1 (hclean h).2
  | assign op name v => exact h.elim
  | call name f args =>
    obtain ⟨other, hf⟩ := hclean
    exact fun env env' vs henv =>
      ⟨hpure (other, f.function) (List.mem_of_getElem? hf) h _ _ vs, hcall henv⟩
  | _ => trivial

/-- Nothing that a fixed term reads or calls can differ where the constants are bound to the
values that they have while compiling. -/
theorem Fixed.keepsBoth (hpure : ctx.registry.PureAnswers) {t : Term} (hclean : t.Clean ctx)
    (h : t.Fixed) : t.KeepsBoth fun env env' =>
      ctx.ConstantValues env.scope ∧ ctx.ConstantValues env'.scope := by
  refine h.keepsBoth_of hpure (fun {env env' name} henv hconst hbound => ?_) (fun henv => henv)
    hclean
  obtain ⟨v, hv⟩ := Option.isSome_iff_exists.1 hbound
  rw [henv.1 name v hconst hv, henv.2 name v hconst hv]

/-- A term whose value is fixed while compiling comes to the same in all surroundings that
bind the constants to the values that they had then. -/
theorem eval_fixed (hpure : ctx.registry.PureAnswers) {t : Term} {env env' : Env}
    (hclean : t.Forall (Clean ctx)) (hfixed : t.Forall Fixed)
    (henv : ctx.ConstantValues env.scope) (henv' : ctx.ConstantValues env'.scope) :
    (t.eval env).result = (t.eval env').result :=
  (eval_matches (fun u hu => (hfixed u hu).keepsBoth hpure (hclean u hu)) ⟨henv, henv'⟩).result.symm

end Term

namespace Node

variable {es : List Element} {n m : Node} {env env' : Env} {r : Except Fault Value}

/-! ## Fixed trees -/

theorem allPrecomputable_iff_terms {ns : List Node}
    (ih : ∀ n ∈ ns, n.isPrecomputable = true ↔ n.term.Forall Term.Fixed) :
    allPrecomputable ns = true ↔ ∀ t ∈ terms ns, t.Forall Term.Fixed := by
  rw [allPrecomputable_iff, terms_eq_map, List.forall_mem_map]
  exact forall₂_congr ih

/-- Whether the value of a tree is fixed can be told from its term. -/
theorem isPrecomputable_iff : n.isPrecomputable = true ↔ n.term.Forall Term.Fixed := by
  induction n with
  | literal v => simp [isPrecomputable, term, Term.Fixed]
  | read name c s => simp [isPrecomputable, term, Term.Fixed]
  | logic op l r s ihl ihr => simp [isPrecomputable, term, Term.Fixed, ihl, ihr]
  | not a s ih => simp [isPrecomputable, term, Term.Fixed, ih]
  | sign g a s ih => simp [isPrecomputable, term, Term.Fixed, ih]
  | arith op l r s ihl ihr => simp [isPrecomputable, term, Term.Fixed, ihl, ihr]
  | compare op l r s ihl ihr => simp [isPrecomputable, term, Term.Fixed, ihl, ihr]
  | assign op name target a s ih => simp [isPrecomputable, term, Term.Fixed]
  | call name f args b s ih =>
    simp [isPrecomputable, term, Term.Fixed, allPrecomputable_iff_terms ih]
  | sequence a b s iha ihb => simp [isPrecomputable, term, Term.Fixed, iha, ihb]

theorem isPrecomputable_congr (h : m.term = n.term) : m.isPrecomputable = n.isPrecomputable := by
  rw [Bool.eq_iff_iff, isPrecomputable_iff, isPrecomputable_iff, h]

/-- The term of a tree that was built is clean. -/
theorem Built.clean (hb : Built ctx es n) : n.term.Forall (Term.Clean ctx) := by
  refine Term.Forall.imp (fun t ht => ?_) hb.forall_allowed
  cases t with
  | read name c => exact fun hc => ⟨ht.1 ▸ hc, ht.2.1 hc⟩
  | assign op name v => exact ht.1
  | call name f args => exact ⟨name, Registry.getElem?_of_resolve ht⟩
  | _ => trivial

/-- A tree whose value is fixed comes to the same wherever the constants have their values. -/
theorem answer_fixed (hpure : ctx.registry.PureAnswers) (hclean : n.term.Forall (Term.Clean ctx))
    (hpre : n.isPrecomputable = true) (henv : ctx.ConstantValues env.scope)
    (henv' : ctx.ConstantValues env'.scope) : (n.answer env').result = (n.answer env).result := by
  have hfixed := isPrecomputable_iff.1 hpre
  exact (Matches.of_keepsBoth (fun t ht => (hfixed t ht).keepsBoth hpure (hclean t ht))
    env env' ⟨henv, henv'⟩).result

/-- A run of a tree whose value is fixed leaves no mark. -/
theorem matches_execute_fixed (hpure : ctx.registry.PureAnswers)
    (hclean : n.term.Forall (Term.Clean ctx)) (hpre : n.isPrecomputable = true)
    (henv : ctx.ConstantValues env.scope) :
    n.Matches (Env.Within fun env => ctx.ConstantValues env.scope) (n.execute env).node := by
  have hfixed := isPrecomputable_iff.1 hpre
  exact matches_execute_blind
    (fun t ht => ⟨(hfixed t ht).quiet, (hfixed t ht).keepsBoth hpure (hclean t ht)⟩) henv

/-- The value of the tree is fixed, and a run of it came to a result. -/
structure FixedTo (ctx : BuildContext) (n : Node) (r : Except Fault Value) : Prop where
  clean : n.term.Forall (Term.Clean ctx)
  fixed : n.isPrecomputable = true
  ran : ∃ env, ctx.ConstantValues env.scope ∧ (n.answer env).result = r

/-- What a run of a fixed tree came to, all of them come to. -/
theorem FixedTo.result (hpure : ctx.registry.PureAnswers) (h : n.FixedTo ctx r)
    (henv : ctx.ConstantValues env.scope) : (n.answer env).result = r := by
  obtain ⟨env₀, henv₀, rfl⟩ := h.ran
  exact answer_fixed hpure h.clean h.fixed henv₀ henv

/-- Running a tree whose value is fixed has no effect. -/
theorem alike_answer (hclean : n.term.Forall (Term.Clean ctx)) (hpre : n.isPrecomputable = true) :
    Env.Alike ctx.registry env (n.answer env).env := by
  have hfixed := isPrecomputable_iff.1 hpre
  exact answer_keeps (P := Env.Alike ctx.registry env)
    (fun t ht => Term.Quiet.keeps (hclean t ht) (hfixed t ht).quiet) .refl

/-- The tree is fixed, but not to a truth value, and the second tree is what a run leaves of
it. -/
structure Stuck (ctx : BuildContext) (n m : Node) : Prop where
  clean : n.term.Forall (Term.Clean ctx)
  fixed : n.isPrecomputable = true
  never : ctx.NeverTruth n.term
  ran : ∃ env, ctx.ConstantValues env.scope ∧ m = (n.execute env).node

/-! ## Steps -/

/-- The second tree is what optimizing makes of the first one. -/
inductive Rewrites (ctx : BuildContext) : Node → Node → Prop
  | refl (n : Node) : Rewrites ctx n n
  | logic {op : Connective} {l l' r r' : Node} {s : Slot} (hl : Rewrites ctx l l')
      (hr : Rewrites ctx r r') : Rewrites ctx (logic op l r s) (logic op l' r' s)
  | not {a a' : Node} {s : Slot} (ha : Rewrites ctx a a') : Rewrites ctx (not a s) (not a' s)
  | sign {g : Sign} {a a' : Node} {s : Slot} (ha : Rewrites ctx a a') :
      Rewrites ctx (sign g a s) (sign g a' s)
  | arith {op : ArithOp} {l l' r r' : Node} {s : Slot} (hl : Rewrites ctx l l')
      (hr : Rewrites ctx r r') : Rewrites ctx (arith op l r s) (arith op l' r' s)
  | compare {op : CompareOp} {l l' r r' : Node} {s : Slot} (hl : Rewrites ctx l l')
      (hr : Rewrites ctx r r') : Rewrites ctx (compare op l r s) (compare op l' r' s)
  | assign {op : AssignOp} {name : String} {target : Option Kind} {a a' : Node} {s : Slot}
      (ha : Rewrites ctx a a') :
      Rewrites ctx (assign op name target a s) (assign op name target a' s)
  | call {name : String} {f : Overload} {args args' : List Node} {b : Buffer} {s : Slot}
      (hlen : args.length = args'.length)
      (hargs : ∀ a a', (a, a') ∈ args.zip args' → Rewrites ctx a a') :
      Rewrites ctx (call name f args b s) (call name f args' b s)
  | sequence {a a' b b' : Node} {s : Slot} (ha : Rewrites ctx a a') (hb : Rewrites ctx b b') :
      Rewrites ctx (sequence a b s) (sequence a' b' s)
  /-- A tree whose value is fixed has become a literal. -/
  | folded {n m : Node} {v : Value} (hn : Rewrites ctx n m) (hv : m.FixedTo ctx (.ok v)) :
      Rewrites ctx n (literal v)
  /-- A sign `+` in front of a number is gone. -/
  | unsigned {a m : Node} (ha : Rewrites ctx a m) (hnum : m.isNumeric = true) :
      Rewrites ctx (sign .plus a (.ofKind (a.kind?.filter Kind.isNumeric))) m
  /-- An operand decides. -/
  | decided {op : Connective} {l r : Node}
      (h : l.FixedTo ctx (.ok (.boolean op.absorbing)) ∨
        r.FixedTo ctx (.ok (.boolean op.absorbing))) :
      Rewrites ctx (logic op l r (.ofKind (some .boolean))) (literal (.boolean op.absorbing))
  /-- A left operand that leaves the result to the right one is gone. -/
  | onlyRight {op : Connective} {l r m : Node} (hl : l.FixedTo ctx (.ok (.boolean op.identity)))
      (hr : Rewrites ctx r m) (hm : m.kind? = some .boolean) :
      Rewrites ctx (logic op l r (.ofKind (some .boolean))) m
  /-- A right operand that leaves the result to the left one is gone. -/
  | onlyLeft {op : Connective} {l r m : Node} (hl : Rewrites ctx l m)
      (hm : m.kind? = some .boolean) (hr : r.FixedTo ctx (.ok (.boolean op.identity))) :
      Rewrites ctx (logic op l r (.ofKind (some .boolean))) m
  /-- A statement that has become fixed is gone. -/
  | onlySecond {a a' b m : Node} (ha : Rewrites ctx a a')
      (hmade : ∃ env, ctx.ConstantValues env.scope ∧ (a.optimize env).result = .ok a')
      (hpre : a'.isPrecomputable = true) (hb : Rewrites ctx b m) :
      Rewrites ctx (sequence a b (.ofKind b.kind?)) m
  /-- A left operand that fails to be a truth value has been run. -/
  | stuckLeft {op : Connective} {l l' r r' : Node} {s : Slot} (hl : Stuck ctx l l')
      (hr : Rewrites ctx r r') : Rewrites ctx (logic op l r s) (logic op l' r' s)
  /-- A right operand that fails to be a truth value has been run. -/
  | stuckRight {op : Connective} {l l' r r' : Node} {s : Slot} (hl : Rewrites ctx l l')
      (hr : Stuck ctx r r') : Rewrites ctx (logic op l r s) (logic op l' r' s)

theorem Rewrites.of_forall₂ {name : String} {f : Overload} {args args' : List Node} {b : Buffer}
    {s : Slot} (h : List.Forall₂ (Rewrites ctx) args args') :
    Rewrites ctx (Node.call name f args b s) (Node.call name f args' b s) :=
  .call (List.forall₂_iff_zip.1 h).1 fun _ _ => (List.forall₂_iff_zip.1 h).2

/-- Optimizing fails at the tree. -/
inductive Rejects (ctx : BuildContext) : Node → Prop
  /-- A fault comes up where a tree whose value is fixed is run. -/
  | folded {n m : Node} {e : Fault} (hn : Rewrites ctx n m) (he : m.FixedTo ctx (.error e)) :
      Rejects ctx n
  | logicLeft {op : Connective} {l r : Node} {s : Slot} (hl : Rejects ctx l) :
      Rejects ctx (logic op l r s)
  /-- The left operand does not keep the right one from being run. -/
  | logicRight {op : Connective} {l r : Node} {s : Slot}
      (hl : l.FixedTo ctx (.ok (.boolean op.identity)) ∨ ctx.NeverTruth l.term)
      (hr : Rejects ctx r) : Rejects ctx (logic op l r s)
  /-- The left operand may keep the right one from being run. -/
  | logicGuarded {op : Connective} {l r : Node} {s : Slot} (hl : l.isPrecomputable = false)
      (hpre : r.isPrecomputable = false) (hr : Rejects ctx r) : Rejects ctx (logic op l r s)
  | not {a : Node} {s : Slot} (ha : Rejects ctx a) : Rejects ctx (not a s)
  | sign {g : Sign} {a : Node} {s : Slot} (ha : Rejects ctx a) : Rejects ctx (sign g a s)
  | arithLeft {op : ArithOp} {l r : Node} {s : Slot} (hl : Rejects ctx l) :
      Rejects ctx (arith op l r s)
  | arithRight {op : ArithOp} {l r : Node} {s : Slot} (hr : Rejects ctx r) :
      Rejects ctx (arith op l r s)
  | compareLeft {op : CompareOp} {l r : Node} {s : Slot} (hl : Rejects ctx l) :
      Rejects ctx (compare op l r s)
  | compareRight {op : CompareOp} {l r : Node} {s : Slot} (hr : Rejects ctx r) :
      Rejects ctx (compare op l r s)
  | assign {op : AssignOp} {name : String} {target : Option Kind} {a : Node} {s : Slot}
      (ha : Rejects ctx a) : Rejects ctx (assign op name target a s)
  | call {name : String} {f : Overload} {args : List Node} {b : Buffer} {s : Slot} {a : Node}
      (hmem : a ∈ args) (ha : Rejects ctx a) : Rejects ctx (call name f args b s)
  | first {a b : Node} {s : Slot} (ha : Rejects ctx a) : Rejects ctx (sequence a b s)
  | second {a b : Node} {s : Slot} (hb : Rejects ctx b) : Rejects ctx (sequence a b s)

/-- What optimizing makes of a tree asks for nothing that the tree did not ask for. -/
theorem Rewrites.forall_local {p : Term → Prop} (hp : Term.Local p) (h : Rewrites ctx n m)
    (hn : n.term.Forall p) : m.term.Forall p := by
  induction h with
  | refl n => exact hn
  | logic hl hr ihl ihr =>
    rw [term, Term.forall_logic] at hn ⊢
    exact ⟨hp.logic .., ihl hn.2.1, ihr hn.2.2⟩
  | not ha ih =>
    rw [term, Term.forall_not] at hn ⊢
    exact ⟨hp.not _, ih hn.2⟩
  | sign ha ih =>
    rw [term, Term.forall_sign] at hn ⊢
    exact ⟨hp.sign .., ih hn.2⟩
  | arith hl hr ihl ihr =>
    rw [term, Term.forall_arith] at hn ⊢
    exact ⟨hp.arith .., ihl hn.2.1, ihr hn.2.2⟩
  | compare hl hr ihl ihr =>
    rw [term, Term.forall_compare] at hn ⊢
    exact ⟨hp.compare .., ihl hn.2.1, ihr hn.2.2⟩
  | assign ha ih =>
    rw [term, Term.forall_assign] at hn ⊢
    exact ⟨hp.assign _ _ _ _ hn.1, ih hn.2⟩
  | @call name f args args' b s hlen hargs ih =>
    rw [term, terms_eq_map, Term.forall_call, List.forall_mem_map] at hn ⊢
    refine ⟨hp.call _ _ _ _ hn.1, fun a' ha' => ?_⟩
    obtain ⟨i, hi, rfl⟩ := List.getElem_of_mem ha'
    have hi' : i < args.length := hlen ▸ hi
    have hzip : i < (args.zip args').length := by simpa [List.length_zip] using ⟨hi', hi⟩
    refine ih args[i] args'[i] ?_ (hn.2 _ (List.getElem_mem hi'))
    rw [← List.getElem_zip (h := hzip)]
    exact List.getElem_mem hzip
  | sequence ha hb iha ihb =>
    rw [term, Term.forall_sequence] at hn ⊢
    exact ⟨hp.sequence .., iha hn.2.1, ihb hn.2.2⟩
  | folded hn' hv ih => exact Term.forall_literal.2 (hp.literal _)
  | unsigned ha hnum ih => exact ih (Term.forall_sign.1 hn).2
  | decided h => exact Term.forall_literal.2 (hp.literal _)
  | onlyRight hl hr hm ih => exact ih (Term.forall_logic.1 hn).2.2
  | onlyLeft hl hm hr ih => exact ih (Term.forall_logic.1 hn).2.1
  | onlySecond ha hmade hpre hb iha ihb => exact ihb (Term.forall_sequence.1 hn).2.2
  | stuckLeft hl hr ih =>
    obtain ⟨env, -, rfl⟩ := hl.ran
    rw [term, Term.forall_logic] at hn ⊢
    exact ⟨hp.logic .., by rw [term_execute]; exact hn.2.1, ih hn.2.2⟩
  | stuckRight hl hr ih =>
    obtain ⟨env, -, rfl⟩ := hr.ran
    rw [term, Term.forall_logic] at hn ⊢
    exact ⟨hp.logic .., ih hn.2.1, by rw [term_execute]; exact hn.2.2⟩

/-! ## Optimizing takes these steps -/

end Node

/-- A property of the surroundings while compiling : the constants have their values, and
running what is fixed keeps it. -/
structure BuildContext.Compiling (ctx : BuildContext) (P : Env → Prop) : Prop where
  values : ∀ env, P env → ctx.ConstantValues env.scope
  keeps : ∀ t : Term, t.Clean ctx → t.Fixed → t.Keeps P

theorem BuildContext.compiling_values :
    ctx.Compiling fun env => ctx.ConstantValues env.scope :=
  ⟨fun _ henv => henv, fun _ hclean _ => hclean.keeps⟩

theorem BuildContext.compiling_alike {env₀ : Env} (h₀ : ctx.ConstantValues env₀.scope) :
    ctx.Compiling (Env.Alike ctx.registry env₀) :=
  ⟨fun _ henv => Term.constantValues_of_alike henv h₀,
    fun _ hclean hfixed => Term.Quiet.keeps hclean hfixed.quiet⟩

namespace Reduction

/-- A reduction that leaves surroundings with `P`, and comes to a tree with `Q`, or fails and
then `E` holds. -/
structure Ends (P : Env → Prop) (Q : Node → Prop) (E : Prop) (r : Reduction) : Prop
    extends r.Meets P Q where
  fault : ∀ e, r.result = .error e → E

variable {Q Q' : Node → Prop} {E E' : Prop} {r : Reduction}

theorem Ends.ok {n : Node} {env : Env} (henv : P env) (hn : Q n) : Ends P Q E ⟨.ok n, env⟩ :=
  ⟨.ok henv hn, by simp⟩

theorem Ends.imp (h : r.Ends P Q E) (hq : ∀ n, Q n → Q' n) : r.Ends P Q' E :=
  ⟨h.toMeets.imp hq, h.fault⟩

/-- What the reduction comes to may be asked to be what it comes to. -/
theorem Ends.here (h : r.Ends P Q E) : r.Ends P (fun n => Q n ∧ r.result = .ok n) E :=
  ⟨⟨h.env, fun n hn => ⟨h.node n hn, hn⟩⟩, h.fault⟩

theorem Ends.andThen {f : Node → Env → Reduction} (h : r.Ends P Q E) (hE : E → E')
    (hf : ∀ n env, P env → Q n → (f n env).Ends P Q' E') : (r.andThen f).Ends P Q' E' := by
  refine ⟨h.toMeets.andThen fun n env henv hn => (hf n env henv hn).toMeets, fun e he => ?_⟩
  unfold Reduction.andThen at he
  cases hr : r.result with
  | error e' => exact hE (h.fault e' hr)
  | ok n =>
    rw [hr] at he
    exact (hf n r.env h.env (h.node n hr)).fault e he

end Reduction

namespace Node

variable {es : List Element} {n m : Node} {env : Env}

theorem keeps_execute (hc : ctx.Compiling P) (hclean : n.term.Forall (Term.Clean ctx))
    (hpre : n.isPrecomputable = true) (henv : P env) : P (n.execute env).env := by
  have hfixed := isPrecomputable_iff.1 hpre
  exact answer_keeps (fun t ht => hc.keeps t (hclean t ht) (hfixed t ht)) henv

/-- Folding takes whatever step a run of the tree justifies. -/
theorem ends_fold_of (hc : ctx.Compiling P) (hclean : m.term.Forall (Term.Clean ctx))
    (hok : ∀ v, m.FixedTo ctx (.ok v) → Rewrites ctx n (literal v))
    (herror : ∀ e, m.FixedTo ctx (.error e) → Rejects ctx n)
    (hkept : (m.isPrecomputable && !m.isLiteral) = false → Rewrites ctx n m) (henv : P env) :
    (m.fold env).Ends P (Rewrites ctx n) (Rejects ctx n) := by
  unfold fold
  split
  · rename_i hcase
    have hpre : m.isPrecomputable = true := by simp_all
    refine ⟨⟨keeps_execute hc hclean hpre henv, fun m' hm' => ?_⟩, fun e he => ?_⟩
    · obtain ⟨v, hv, rfl⟩ := Except.map_eq_ok.1 hm'
      exact hok v ⟨hclean, hpre, env, hc.values env henv, hv⟩
    · exact herror e ⟨hclean, hpre, env, hc.values env henv, Except.map_eq_error.1 he⟩
  · rename_i hcase
    exact .ok henv (hkept (Bool.eq_false_of_not_eq_true hcase))

theorem ends_fold (hc : ctx.Compiling P) (hm : Rewrites ctx n m)
    (hclean : m.term.Forall (Term.Clean ctx)) (henv : P env) :
    (m.fold env).Ends P (Rewrites ctx n) (Rejects ctx n) :=
  ends_fold_of hc hclean (fun _ => .folded hm) (fun _ => .folded hm) (fun _ => hm) henv

/-- What a look at an operand tells : the truth value to which it is fixed, or that it is
never a truth value if it is fixed to something else. -/
structure Tells (ctx : BuildContext) (P : Env → Prop) (n : Node) (p : Probe) : Prop where
  env : P p.env
  known : ∀ b, p.known = some b → n.FixedTo ctx (.ok (.boolean b))
  stuck : p.known = none → n.isPrecomputable = true → Stuck ctx n p.node
  ran : n.isPrecomputable = true →
    ∃ env, ctx.ConstantValues env.scope ∧ p.node = (n.execute env).node

theorem Built.tells (hb : Built ctx es n) (hpure : ctx.registry.PureAnswers)
    (hc : ctx.Compiling P) (henv : P env) : Tells ctx P n (n.probe env) := by
  have hvalues : ctx.ConstantValues env.scope := hc.values env henv
  unfold probe
  cases hpre : n.isPrecomputable with
  | false => exact ⟨henv, by simp, by simp [hpre], by simp [hpre]⟩
  | true =>
    have henv' := keeps_execute hc hb.clean hpre henv
    simp only [if_pos]
    split
    · rename_i b hres
      refine ⟨henv', fun c hknown => ?_, by simp, fun _ => ⟨env, hvalues, rfl⟩⟩
      obtain rfl := Option.some.inj hknown
      exact ⟨hb.clean, hpre, env, hvalues, hres⟩
    · rename_i hres
      refine ⟨henv', by simp, fun _ _ => ⟨hb.clean, hpre, fun env₁ b env₂ henv₁ heval => ?_,
        env, hvalues, rfl⟩, fun _ => ⟨env, hvalues, rfl⟩⟩
      have hsame := Term.eval_fixed hpure hb.clean (isPrecomputable_iff.1 hpre) hvalues henv₁
      have hrun := hb.answer_eq_eval (.inr hpre) hvalues.kinds
      refine hres b ?_
      rw [heval, ← hrun] at hsame
      exact hsame

theorem rewrites_dropRight {op : Connective} {l l' r : Node} (hl : Rewrites ctx l l')
    (hr : r.FixedTo ctx (.ok (.boolean op.identity))) :
    Rewrites ctx (logic op l r (.ofKind (some .boolean)))
      (dropIdentity op false (.ofKind (some .boolean)) l') := by
  unfold dropIdentity
  split
  · exact .onlyLeft hl ‹_› hr
  · exact .logic hl (.folded (.refl r) hr)

theorem rewrites_dropLeft {op : Connective} {l r r' : Node}
    (hl : l.FixedTo ctx (.ok (.boolean op.identity))) (hr : Rewrites ctx r r') :
    Rewrites ctx (logic op l r (.ofKind (some .boolean)))
      (dropIdentity op true (.ofKind (some .boolean)) r') := by
  unfold dropIdentity
  split
  · exact .onlyRight hl hr ‹_›
  · exact .logic (.folded (.refl l) hl) hr

/-- A connective of two operands whose values are fixed may be run after they were. -/
theorem fixedTo_logic (hpure : ctx.registry.PureAnswers) {op : Connective} {l l' r r' : Node}
    {s : Slot} {res : Except Fault Value}
    (hclean : (logic op l r s).term.Forall (Term.Clean ctx))
    (hpre : (logic op l r s).isPrecomputable = true)
    (hl : ∃ env, ctx.ConstantValues env.scope ∧ l' = (l.execute env).node)
    (hr : ∃ env, ctx.ConstantValues env.scope ∧ r' = (r.execute env).node)
    (h : (logic op l' r' s).FixedTo ctx res) : (logic op l r s).FixedTo ctx res := by
  obtain ⟨env₁, henv₁, rfl⟩ := hl
  obtain ⟨env₂, henv₂, rfl⟩ := hr
  obtain ⟨env, henv, hres⟩ := h.ran
  refine ⟨hclean, hpre, env, henv, ?_⟩
  rw [term, Term.forall_logic] at hclean
  simp only [isPrecomputable, Bool.and_eq_true] at hpre
  have hl := matches_execute_fixed hpure hclean.2.1 hpre.1 henv₁
  have hr := matches_execute_fixed hpure hclean.2.2 hpre.2 henv₂
  rw [← (hl.logic hr).answer_eq henv]
  exact hres

theorem ends_logic (hpure : ctx.registry.PureAnswers) (hc : ctx.Compiling P) {op : Connective}
    {l r : Node} (hbl : Built ctx es l) (hbr : Built ctx es r)
    (ihl : ∀ {env}, P env → (l.optimize env).Ends P (Rewrites ctx l) (Rejects ctx l))
    (ihr : ∀ {env}, P env → (r.optimize env).Ends P (Rewrites ctx r) (Rejects ctx r))
    (henv : P env) : ((logic op l r (.ofKind (some .boolean))).optimize env).Ends P
      (Rewrites ctx (logic op l r (.ofKind (some .boolean))))
        (Rejects ctx (logic op l r (.ofKind (some .boolean)))) := by
  have hp := hbl.tells hpure hc henv
  have hq := hbr.tells hpure hc hp.env
  have hclean : (logic op l r (.ofKind (some .boolean))).term.Forall (Term.Clean ctx) :=
    (Built.logic hbl hbr).clean
  have hidentity : ∀ {known : Option Bool}, known.isSome = true → known ≠ some op.absorbing →
      known = some op.identity := by
    intro known hsome hne
    obtain ⟨b, rfl⟩ := Option.isSome_iff_exists.1 hsome
    rw [Connective.identity, Bool.eq_not_of_ne fun hb => hne (congrArg some hb)]
  rw [optimize]
  generalize l.probe env = p at *
  generalize r.probe p.env = q at *
  split
  · rename_i hdecided
    exact .ok hq.env (.decided (hdecided.imp (hp.known _) (hq.known _)))
  rename_i hdecided
  obtain ⟨hpne, hqne⟩ := not_or.1 hdecided
  split
  · rename_i hboth
    obtain ⟨hpsome, hqsome⟩ := (Bool.and_eq_true _ _).mp hboth
    have hl := hp.known _ (hidentity hpsome hpne)
    have hr := hq.known _ (hidentity hqsome hqne)
    exact .ok hq.env (.onlyRight hl (.folded (.refl r) hr) rfl)
  split
  · rename_i hpre
    obtain ⟨hprel, hprer⟩ := (Bool.and_eq_true _ _).mp hpre
    have hfixed : ∀ {res}, (logic op p.node q.node (.ofKind (some .boolean))).FixedTo ctx res →
        (logic op l r (.ofKind (some .boolean))).FixedTo ctx res :=
      fixedTo_logic hpure hclean hpre (hp.ran hprel) (hq.ran hprer)
    have hterm : (logic op p.node q.node (.ofKind (some .boolean))).term =
        (logic op l r (.ofKind (some .boolean))).term := by
      obtain ⟨env₁, -, hp'⟩ := hp.ran hprel
      obtain ⟨env₂, -, hq'⟩ := hq.ran hprer
      simp only [term, hp', hq', term_execute]
    have hpre' : (logic op p.node q.node (.ofKind (some .boolean))).isPrecomputable = true := by
      rw [isPrecomputable_iff, hterm, ← isPrecomputable_iff]
      exact hpre
    refine ends_fold_of hc (hterm ▸ hclean) (fun v hv => .folded (.refl _) (hfixed hv))
      (fun e he => .folded (.refl _) (hfixed he)) (fun hkept => ?_) hq.env
    simp [hpre', isLiteral] at hkept
  rename_i hpre
  split
  · rename_i hpsome
    have hl := hp.known _ (hidentity hpsome hpne)
    exact (ihr hq.env).andThen (.logicRight (.inl hl)) fun r' env henv hr =>
      .ok henv (rewrites_dropLeft hl hr)
  split
  · rename_i hqsome
    have hr := hq.known _ (hidentity hqsome hqne)
    exact (ihl hq.env).andThen .logicLeft fun l' env henv hl =>
      .ok henv (rewrites_dropRight hl hr)
  rename_i hpnone hqnone
  rw [Option.not_isSome_iff_eq_none] at hpnone hqnone
  cases hprel : l.isPrecomputable with
  | true =>
    have hprer : r.isPrecomputable = false := by simpa [hprel] using hpre
    have hl := hp.stuck hpnone hprel
    simp only [hprer, if_pos, Reduction.andThen]
    exact (ihr hq.env).andThen (.logicRight (.inr hl.never)) fun r' env henv hr =>
      .ok henv (.stuckLeft hl hr)
  | false =>
    simp only [Bool.false_eq_true, if_false]
    refine (ihl hq.env).andThen .logicLeft fun l' env henv hl => ?_
    cases hprer : r.isPrecomputable with
    | true => exact .ok henv (.stuckRight hl (hq.stuck hqnone hprer))
    | false =>
      exact (ihr henv).andThen (.logicGuarded hprel hprer) fun r' env henv hr =>
        .ok henv (.logic hl hr)

/-- The arguments of a call are optimized one after the other. -/
theorem ends_optimizeAll {Q : Node → Node → Prop} {E : Node → Prop} {ns : List Node}
    (ih : ∀ n ∈ ns, ∀ {env}, P env → (n.optimize env).Ends P (Q n) (E n))
    (henv : P env) : P (optimizeAll ns env).env ∧
      (∀ ms, (optimizeAll ns env).result = .ok ms → List.Forall₂ Q ns ms) ∧
        ∀ e, (optimizeAll ns env).result = .error e → ∃ n ∈ ns, E n := by
  induction ns generalizing env with
  | nil =>
    rw [optimizeAll]
    refine ⟨henv, fun ms hms => ?_, by simp⟩
    obtain rfl := Except.ok.inj hms
    exact .nil
  | cons n ns ihs =>
    rw [List.forall_mem_cons] at ih
    have hn := ih.1 henv
    rw [optimizeAll]
    cases hres : (n.optimize env).result with
    | error e => exact ⟨hn.env, by simp, fun _ _ => ⟨n, by simp, hn.fault e hres⟩⟩
    | ok m =>
      obtain ⟨henv', hok, herror⟩ := ihs ih.2 hn.env
      refine ⟨henv', fun ms hms => ?_, fun e he => ?_⟩
      · obtain ⟨rest, hrest, rfl⟩ := Except.map_eq_ok.1 hms
        exact .cons (hn.node m hres) (hok rest hrest)
      · obtain ⟨a, ha, hreject⟩ := herror e (Except.map_eq_error.1 he)
        exact ⟨a, by simp [ha], hreject⟩

/-- Optimizing a tree that was built takes the steps of `Rewrites`, or fails as `Rejects` has
it. -/
theorem Built.optimize_ends (hb : Built ctx es n) (hpure : ctx.registry.PureAnswers)
    (hc : ctx.Compiling P) (henv : P env) :
    (n.optimize env).Ends P (Rewrites ctx n) (Rejects ctx n) := by
  have hclean : ∀ {n m : Node}, Built ctx es n → Rewrites ctx n m →
      m.term.Forall (Term.Clean ctx) :=
    fun hb hm => hm.forall_local Term.Clean.isLocal hb.clean
  induction hb generalizing env with
  | literal v =>
    rw [optimize]
    exact .ok henv (.refl _)
  | read he hrole hbound =>
    rw [optimize]
    exact ends_fold hc (.refl _) (Built.read he hrole hbound).clean henv
  | logic hl hr ihl ihr => exact ends_logic hpure hc hl hr ihl ihr henv
  | not ha ih =>
    rw [optimize]
    refine (ih henv).andThen .not fun a' env henv hm => ?_
    exact ends_fold hc (.not hm) (hclean (.not ha) (.not hm)) henv
  | @sign g a ha ih =>
    rw [optimize]
    refine (ih henv).andThen .sign fun a' env henv hm => ?_
    split
    · exact ends_fold hc (.sign hm) (hclean (.sign ha) (.sign hm)) henv
    · split
      · rename_i hplus
        obtain ⟨rfl, hnum⟩ := hplus
        exact .ok henv (.unsigned hm hnum)
      · exact .ok henv (.sign hm)
  | arith hl hr ihl ihr =>
    rw [optimize]
    refine (ihl henv).andThen .arithLeft fun l' env henv hml =>
      (ihr henv).andThen .arithRight fun r' env henv hmr => ?_
    exact ends_fold hc (.arith hml hmr) (hclean (.arith hl hr) (.arith hml hmr)) henv
  | compare hl hr ihl ihr =>
    rw [optimize]
    refine (ihl henv).andThen .compareLeft fun l' env henv hml =>
      (ihr henv).andThen .compareRight fun r' env henv hmr => ?_
    exact ends_fold hc (.compare hml hmr) (hclean (.compare hl hr) (.compare hml hmr)) henv
  | assign he hrole hvar hop hv ih =>
    rw [optimize]
    exact (ih henv).andThen .assign fun v' env henv hm => .ok henv (.assign hm)
  | @call e f args he hrole hlen hf hargs ih =>
    obtain ⟨henv', hok, herror⟩ := ends_optimizeAll (fun a ha _ henv => ih a ha henv) henv
    rw [optimize]
    cases hres : (optimizeAll args env).result with
    | error fault =>
      obtain ⟨a, ha, hreject⟩ := herror fault hres
      exact ⟨⟨henv', by simp⟩, fun _ _ => .call ha hreject⟩
    | ok ms =>
      have hm : Rewrites ctx (Node.call e.lexeme f args .fresh (.ofKind none))
          (Node.call e.lexeme f ms .fresh (.ofKind none)) := .of_forall₂ (hok ms hres)
      exact ends_fold hc hm (hclean (.call he hrole hlen hf hargs) hm) henv'
  | sequence ha hb iha ihb =>
    rw [optimize]
    refine (iha henv).here.andThen .first fun a' env₁ henv₁ hma =>
      (ihb henv₁).andThen .second fun b' env₂ henv₂ hmb => ?_
    obtain ⟨hma, hmade⟩ := hma
    split
    · exact .ok henv₂ (.onlySecond hma ⟨env, hc.values env henv, hmade⟩ ‹_› hmb)
    · exact .ok henv₂ (.sequence hma hmb)

end Node

end Formula

import Formula.Proofs.Builtins
import Formula.Proofs.Loosening
import Formula.Proofs.Rebuilding
import Formula.Proofs.Recompiling
import Formula.Proofs.Sessions

/-!
# Strict settings refuse, and do nothing else

A text that compiles in strict settings compiles in others, and the tree that was built fixes
fewer kinds there (`Node.Relaxed`). Optimizing then drops fewer signs and operands, and what it
makes of the tree is looser (`Node.Rebuilt.optimize`). And so the expression of the settings
that are not strict comes to the same values and leaves the same variables, run after run, as
long as the strict one comes to values (`Compiler.lenient_of_strict`).

Where the strict expression fails, nothing is said of the other one : it may come to a value.
-/

namespace Formula

/-- The second reduction comes to a tree where the first one does, in the same surroundings. -/
def Reduction.Along (Q : Node → Node → Prop) (r r' : Reduction) : Prop :=
  ∀ a, r.result = .ok a → ∃ b, r' = ⟨.ok b, r.env⟩ ∧ Q a b

namespace Reduction.Along

variable {Q Q' : Node → Node → Prop} {r r' : Reduction}

theorem ok {a b : Node} {env : Env} (h : Q a b) : Along Q ⟨.ok a, env⟩ ⟨.ok b, env⟩ := by
  intro a' ha
  obtain rfl := Except.ok.inj ha
  exact ⟨b, rfl, h⟩

theorem imp (h : r.Along Q r') (hq : ∀ a b, Q a b → Q' a b) : r.Along Q' r' := by
  intro a ha
  obtain ⟨b, hb, hab⟩ := h a ha
  exact ⟨b, hb, hq a b hab⟩

theorem andThen {f g : Node → Env → Reduction} (h : r.Along Q r')
    (hf : ∀ a b env, Q a b → (f a env).Along Q' (g b env)) :
    (r.andThen f).Along Q' (r'.andThen g) := by
  unfold Reduction.andThen
  cases hr : r.result with
  | error e => exact fun a ha => by cases ha
  | ok a =>
    obtain ⟨b, rfl, hab⟩ := h a hr
    exact hf a b r.env hab

end Reduction.Along

/-! ## Trees with fewer kinds -/

/-- Constants are fixed to the same kind, and other variables to the same or to none. -/
def Unpins (constant : Bool) (k k' : Option Kind) : Prop :=
  Kind.AtMost k' k ∧ (constant = true → k' = k)

namespace Node

/-- The same tree with fewer kinds fixed. -/
abbrev Relaxed : Node → Node → Prop := Rebuilt Eq Unpins

variable {n m a b l l' r r' : Node} {env : Env}

theorem static?_atMost {op : AssignOp} {k k' t t' : Option Kind} (h : Kind.AtMost k' k)
    (ht : Kind.AtMost t' t) : Kind.AtMost (op.static? t' k') (op.static? t k) := by
  unfold AssignOp.static?
  cases op.arith? with
  | none => exact h
  | some op => exact ht.static? h

namespace Rebuilt

theorem atMost (h : Relaxed n m) : Kind.AtMost m.kind? n.kind? := by
  induction h with
  | literal h => exact h ▸ .refl
  | read h => exact h.1
  | logic | not | compare => exact .refl
  | sign _ ih => exact ih.filter _
  | arith _ _ ihl ihr => exact ihl.static? ihr
  | assign ht _ ih => exact static?_atMost ih ht.1
  | call => exact .refl
  | sequence _ _ _ ih => exact ih

theorem looser (h : Relaxed n m) : Looser n m := by
  induction h with
  | @literal v w h =>
    obtain rfl : v = w := h
    exact .literal v
  | read h => exact .read h.1
  | logic _ _ ihl ihr => exact .logic ihl ihr .refl
  | not _ ih => exact .not ih .refl
  | sign ha ih => exact .sign ih (ha.atMost.filter _)
  | arith hl hr ihl ihr => exact .arith ihl ihr (hl.atMost.static? hr.atMost)
  | compare _ _ ihl ihr => exact .compare ihl ihr .refl
  | assign ht hv ih => exact .assign ht.1 ih (static?_atMost hv.atMost ht.1)
  | call hlen _ ih => exact .call hlen ih .refl
  | sequence _ hb iha ihb => exact .sequence iha ihb hb.atMost

theorem isPrecomputable (h : Relaxed n m) : m.isPrecomputable = n.isPrecomputable :=
  h.looser.isPrecomputable

/-- Nothing is fixed to other kinds in a tree that reads no variables but constants. -/
theorem eq_of_isPrecomputable (h : Relaxed n m) (hn : n.isPrecomputable = true) : m = n := by
  induction h with
  | literal h => rw [h]
  | read h => rw [h.2 hn]
  | logic _ _ ihl ihr =>
    rw [Node.isPrecomputable, Bool.and_eq_true] at hn
    rw [ihl hn.1, ihr hn.2]
  | not _ ih => rw [ih hn]
  | sign _ ih => rw [ih hn]
  | arith _ _ ihl ihr =>
    rw [Node.isPrecomputable, Bool.and_eq_true] at hn
    rw [ihl hn.1, ihr hn.2]
  | compare _ _ ihl ihr =>
    rw [Node.isPrecomputable, Bool.and_eq_true] at hn
    rw [ihl hn.1, ihr hn.2]
  | assign => cases hn
  | @call name f args args' hlen _ ih =>
    rw [Node.isPrecomputable, Bool.and_eq_true, allPrecomputable_iff] at hn
    have hall : List.Forall₂ Eq args args' := List.forall₂_iff_zip.2
      ⟨hlen, fun {a a'} hmem => (ih a a' hmem (hn.2 a (List.of_mem_zip hmem).1)).symm⟩
    rw [List.forall₂_eq_eq_eq] at hall
    rw [hall]
  | sequence _ _ iha ihb =>
    rw [Node.isPrecomputable, Bool.and_eq_true] at hn
    rw [iha hn.1, ihb hn.2]

end Rebuilt

/-! ## Optimizing them -/

/-- The second tree is looser, and of the kind of the first is known what `k` says. -/
def LooserAt (k : Option Kind) (a b : Node) : Prop := Looser a b ∧ Kind.AtMost k a.kind?

theorem fold_of_isPrecomputable (hn : n.isPrecomputable = true) :
    n.fold env = ⟨(n.execute env).result.map literal, (n.execute env).env⟩ := by
  rw [fold, hn, Bool.true_and]
  cases n with
  | literal v => rfl
  | _ => rfl

theorem Looser.fold (h : Looser n m) : (n.fold env).Along (LooserAt n.kind?) (m.fold env) := by
  cases hn : n.isPrecomputable with
  | false =>
    have hm : m.isPrecomputable = false := h.isPrecomputable.trans hn
    rw [Node.fold, Node.fold, hn, hm]
    exact .ok ⟨h, .refl⟩
  | true =>
    rw [fold_of_isPrecomputable hn, fold_of_isPrecomputable (h.isPrecomputable.trans hn)]
    intro a ha
    obtain ⟨v, hv, rfl⟩ := Except.map_eq_ok.1 ha
    have hrun := execute_eq_iff.2 ⟨hv, rfl, rfl⟩
    obtain ⟨m', hm, -⟩ := h.run hrun
    exact ⟨Node.literal v, by rw [hm]; rfl, .literal v, kind?_of_execute_ok hrun⟩

theorem kind?_dropIdentity (op : Connective) (onRight : Bool) (s : Slot) (n : Node) :
    (dropIdentity op onRight s n).kind? = some .boolean := by
  unfold dropIdentity
  split
  · assumption
  · cases onRight <;> rfl

theorem Looser.dropIdentity (h : Looser a b) (op : Connective) (onRight : Bool)
    {s : Slot} (hs : Kind.AtMost s.kind (some .boolean)) :
    Looser (Node.dropIdentity op onRight s a) (Node.dropIdentity op onRight s b) := by
  unfold Node.dropIdentity
  by_cases hb : b.kind? = some .boolean
  · have ha : a.kind? = some .boolean := by
      rcases h.atMost with h | h
      · cases hb.symm.trans h
      · exact h.symm.trans hb
    rw [if_pos ha, if_pos hb]
    exact h
  by_cases ha : a.kind? = some .boolean
  · rw [if_pos ha, if_neg hb]
    cases onRight with
    | true => exact .onRight h ha hs
    | false => exact .onLeft h ha hs
  · rw [if_neg ha, if_neg hb]
    cases onRight with
    | true => exact .logic (.literal _) h .refl
    | false => exact .logic h (.literal _) .refl

theorem isNumeric_iff : n.isNumeric = true ↔ ∃ k, n.kind? = some k ∧ k.isNumeric = true := by
  rw [isNumeric, Option.any_eq_true]

/-- What is known to be a number in the looser tree, is in the other one. -/
theorem Looser.isNumeric (h : Looser a b) (hb : b.isNumeric = true) : a.isNumeric = true := by
  obtain ⟨k, hk, hnum⟩ := isNumeric_iff.1 hb
  rcases h.atMost with hnone | hsame
  · cases hk.symm.trans hnone
  · exact isNumeric_iff.2 ⟨k, hsame ▸ hk, hnum⟩

/-- The same truth value or none, the same tree if it is fixed, and the same surroundings. -/
structure LooksAlike (n : Node) (p p' : Probe) : Prop where
  known : p'.known = p.known
  env : p'.env = p.env
  node : n.isPrecomputable = true → p'.node = p.node

theorem Rebuilt.probe (h : Relaxed n m) : LooksAlike n (n.probe env) (m.probe env) := by
  cases hn : n.isPrecomputable with
  | true =>
    rw [h.eq_of_isPrecomputable hn]
    exact ⟨rfl, rfl, fun _ => rfl⟩
  | false =>
    have hm : m.isPrecomputable = false := h.isPrecomputable.trans hn
    rw [Node.probe, Node.probe, hn, hm]
    exact ⟨rfl, rfl, by simp [hn]⟩

theorem optimize_logic_along {op : Connective} (hl : Relaxed l l') (hr : Relaxed r r')
    (ihl : ∀ {env}, (l.optimize env).Along (LooserAt l.kind?) (l'.optimize env))
    (ihr : ∀ {env}, (r.optimize env).Along (LooserAt r.kind?) (r'.optimize env)) :
    ((logic op l r (.ofKind (some .boolean))).optimize env).Along (LooserAt (some .boolean))
      ((logic op l' r' (.ofKind (some .boolean))).optimize env) := by
  -- the two looks decide alike which rule applies
  have hpl : LooksAlike l (l.probe env) (l'.probe env) := hl.probe
  have hpr : LooksAlike r (r.probe (l.probe env).env) (r'.probe (l.probe env).env) := hr.probe
  have hdropped : ∀ {k a b env} (onRight : Bool), LooserAt k a b →
      Reduction.Along (LooserAt (some .boolean))
        ⟨.ok (dropIdentity op onRight (.ofKind (some .boolean)) a), env⟩
        ⟨.ok (dropIdentity op onRight (.ofKind (some .boolean)) b), env⟩ :=
    fun onRight h => .ok ⟨h.1.dropIdentity op onRight .refl, .inr (kind?_dropIdentity ..).symm⟩
  simp only [optimize, hpl.known, hpl.env, hpr.known, hpr.env, hl.isPrecomputable,
    hr.isPrecomputable]
  split
  · exact .ok ⟨.literal _, .refl⟩
  split
  · exact .ok ⟨.literal _, .refl⟩
  split
  · rename_i hfixed
    rw [Bool.and_eq_true] at hfixed
    rw [hpl.node hfixed.1, hpr.node hfixed.2]
    exact (Looser.refl _).fold
  split
  · exact ihr.andThen fun _ _ _ h => hdropped true h
  split
  · exact ihl.andThen fun _ _ _ h => hdropped false h
  refine Reduction.Along.andThen (Q := Looser) ?_ fun _ _ _ ha =>
    Reduction.Along.andThen (Q := Looser) ?_ fun _ _ _ hb => .ok ⟨.logic ha hb .refl, .refl⟩
  · split
    · rw [hpl.node ‹_›]
      exact .ok (.refl _)
    · exact ihl.imp fun _ _ h => h.1
  · split
    · rw [hpr.node ‹_›]
      exact .ok (.refl _)
    · exact ihr.imp fun _ _ h => h.1

theorem optimize_sign_along {g : Sign} (h : Relaxed n m)
    (ih : ∀ {env}, (n.optimize env).Along (LooserAt n.kind?) (m.optimize env)) :
    ((sign g n (.ofKind (n.kind?.filter Kind.isNumeric))).optimize env).Along
      (LooserAt (n.kind?.filter Kind.isNumeric))
      ((sign g m (.ofKind (m.kind?.filter Kind.isNumeric))).optimize env) := by
  have hs : Kind.AtMost (m.kind?.filter Kind.isNumeric) (n.kind?.filter Kind.isNumeric) :=
    h.atMost.filter _
  rw [optimize, optimize]
  refine ih.andThen fun a b env hab => ?_
  have hloose : Looser (sign g a (.ofKind (n.kind?.filter Kind.isNumeric)))
      (sign g b (.ofKind (m.kind?.filter Kind.isNumeric))) := .sign hab.1 hs
  rw [hab.1.isPrecomputable]
  split
  · exact hloose.fold
  by_cases hplain : g = .plus ∧ a.isNumeric = true
  · -- the first tree loses its sign, and the second one may keep it
    obtain ⟨rfl, hnum⟩ := hplain
    obtain ⟨k, hk, hknum⟩ := isNumeric_iff.1 hnum
    have hknown : Kind.AtMost (n.kind?.filter Kind.isNumeric) (some k) := by
      have hfilter := hab.2.filter Kind.isNumeric
      rwa [hk, Option.filter_some_pos hknum] at hfilter
    rw [if_pos ⟨rfl, hnum⟩]
    split
    · exact .ok ⟨hab.1, hk ▸ hknown⟩
    · exact .ok ⟨.plus hab.1 hk hknum (hs.trans hknown), hk ▸ hknown⟩
  · have hplain' : ¬ (g = .plus ∧ b.isNumeric = true) :=
      fun h => hplain ⟨h.1, hab.1.isNumeric h.2⟩
    rw [if_neg hplain, if_neg hplain']
    exact .ok ⟨hloose, .refl⟩

theorem optimizeAll_along {ns ms as : List Node}
    (h : List.Forall₂ (fun n m => ∀ {env}, (n.optimize env).Along Looser (m.optimize env)) ns ms)
    (has : (optimizeAll ns env).result = .ok as) :
    ∃ bs, optimizeAll ms env = ⟨.ok bs, (optimizeAll ns env).env⟩ ∧
      List.Forall₂ Looser as bs := by
  induction h generalizing env as with
  | nil =>
    obtain rfl := Except.ok.inj has
    exact ⟨[], rfl, .nil⟩
  | @cons n m ns ms hn _ ih =>
    rw [optimizeAll] at has
    rw [optimizeAll, optimizeAll]
    cases hr : (n.optimize env).result with
    | error e => simp [hr] at has
    | ok a =>
      simp only [hr] at has
      obtain ⟨rest, hrest, rfl⟩ := Except.map_eq_ok.1 has
      obtain ⟨b, hb, hab⟩ := hn a hr
      obtain ⟨bs, hbs, hall⟩ := ih hrest
      simp only [hb, hbs]
      exact ⟨b :: bs, rfl, .cons hab hall⟩

/-- What optimizing makes of a tree with fewer kinds fixed is looser. -/
theorem Rebuilt.optimize (h : Relaxed n m) :
    (n.optimize env).Along (LooserAt n.kind?) (m.optimize env) := by
  induction h generalizing env with
  | @literal v w h =>
    obtain rfl : v = w := h
    exact .ok ⟨.literal v, .refl⟩
  | read h => exact (Rebuilt.looser (.read h)).fold
  | logic hl hr ihl ihr => exact optimize_logic_along hl hr ihl ihr
  | not _ ih =>
    rw [Node.optimize, Node.optimize]
    exact ih.andThen fun _ _ _ hab => (Looser.not hab.1 .refl).fold
  | sign ha ih => exact optimize_sign_along ha ih
  | arith hl hr ihl ihr =>
    rw [Node.optimize, Node.optimize]
    refine ihl.andThen fun _ _ _ hl' => ihr.andThen fun _ _ _ hr' => ?_
    exact (Looser.arith hl'.1 hr'.1 (hl.atMost.static? hr.atMost)).fold
  | compare _ _ ihl ihr =>
    rw [Node.optimize, Node.optimize]
    refine ihl.andThen fun _ _ _ hl' => ihr.andThen fun _ _ _ hr' => ?_
    exact (Looser.compare hl'.1 hr'.1 .refl).fold
  | assign ht hv ih =>
    rw [Node.optimize, Node.optimize]
    refine ih.andThen fun _ _ _ h => .ok ⟨.assign ht.1 h.1 ?_, .refl⟩
    exact static?_atMost hv.atMost ht.1
  | @call name f args args' hlen _ ih =>
    have hall : List.Forall₂ (fun n m => ∀ {env}, (n.optimize env).Along Looser (m.optimize env))
        args args' :=
      List.forall₂_iff_zip.2 ⟨hlen, fun {a a'} hmem {_} => (ih a a' hmem).imp fun _ _ h => h.1⟩
    rw [Node.optimize, Node.optimize]
    cases hres : (optimizeAll args env).result with
    | error e => exact fun a ha => by cases ha
    | ok as =>
      obtain ⟨bs, hbs, hloose⟩ := optimizeAll_along hall hres
      simp only [hbs]
      exact (Looser.of_forall₂ hloose .refl).fold
  | @sequence a a' b b' _ hb iha ihb =>
    rw [Node.optimize, Node.optimize]
    refine iha.andThen fun x x' env hx => ihb.andThen fun y y' env hy => ?_
    rw [hx.1.isPrecomputable]
    split
    · exact .ok hy
    · exact .ok ⟨.sequence hx.1 hy.1 hb.atMost, .refl⟩

end Node

/-! ## Functions that look at their arguments alone -/

/-- What a function answers depends on its arguments only, whatever was called before. -/
def Registry.Stateless (r : Registry) : Prop :=
  ∀ e ∈ r.entries, ∀ h h' args, e.2.answer h args = e.2.answer h' args

theorem Registry.stateless_builtins : builtins.Stateless :=
  fun e he h h' args => (uniform_builtins e he).answer h' h args

/-- Nothing in a formula then notices the calls that were made before. -/
theorem Term.blind_clean {ctx : BuildContext} (hcalls : ctx.registry.Stateless) :
    Blind (fun env env' => env'.scope = env.scope) (Clean ctx) where
  toLocal := Clean.isLocal
  keepsBoth t ht := by
    cases t with
    | read name c =>
      intro env env' h
      rw [h]
    | assign op name v =>
      intro env env' h
      exact ⟨by rw [h], fun v => .of_scope h fun s _ => rfl⟩
    | call name f args =>
      intro env env' vs h
      obtain ⟨name, hf⟩ := ht
      exact ⟨hcalls _ (List.mem_of_getElem? hf) _ _ vs, h⟩
    | _ => trivial

namespace Expression

variable {e e' : Expression}

/-- Runs of an expression come to the same values whatever was called before. -/
theorem observed_runs_congr {ctx : BuildContext} (hcalls : ctx.registry.Stateless)
    (he : e.root.term.Forall (Term.Clean ctx)) (history history' : History)
    (scopes : List Scope) :
    (e.runs history' scopes).map Run.observed = (e.runs history scopes).map Run.observed := by
  induction scopes generalizing e history history' with
  | nil => rfl
  | cons s ss ih =>
    have hrun : (e.root.execute ⟨s, history⟩).Matches (fun env env' => env'.scope = env.scope)
        (e.root.execute ⟨s, history'⟩) :=
      Node.execute_matches (he.imp (Term.blind_clean hcalls).keepsBoth) rfl
    have hnext : (e.execute ⟨s, history'⟩).expression = (e.execute ⟨s, history⟩).expression := by
      simp only [execute, hrun.node]
    have hclean : (e.execute ⟨s, history⟩).expression.root.term.Forall (Term.Clean ctx) := by
      have hterm : (e.execute ⟨s, history⟩).expression.root.term = e.root.term :=
        Node.term_execute
      rwa [hterm]
    rw [runs, runs, List.map_cons, List.map_cons, hnext, ih hclean]
    exact congrArg (· :: _) (Prod.ext hrun.result hrun.env)

/-- As long as runs of an expression come to values, those of a looser one come to the same
values and leave the same variables. -/
theorem observed_runs_of_looser {o : Expression} {history : History} {scopes : List Scope}
    (h : Node.Looser e.root o.root) (n : Nat)
    (hok : ∀ r ∈ (e.runs history scopes).take n, ∃ v, r.result = .ok v) :
    ((o.runs history scopes).take n).map Run.observed =
      ((e.runs history scopes).take n).map Run.observed := by
  induction scopes generalizing e o history n with
  | nil => simp [runs]
  | cons s ss ih =>
    cases n with
    | zero => simp
    | succ n =>
      rw [runs, List.take_succ_cons, List.forall_mem_cons] at hok
      obtain ⟨⟨v, hv⟩, hok⟩ := hok
      have hrun : e.root.execute ⟨s, history⟩ = ⟨(e.execute ⟨s, history⟩).expression.root,
          (e.execute ⟨s, history⟩).env, .ok v⟩ := Node.execute_eq_iff.2 ⟨hv, rfl, rfl⟩
      obtain ⟨m, hm, hloose⟩ := h.run hrun
      have ho : o.execute ⟨s, history⟩ =
          ⟨{ o with root := m, executed := true }, (e.execute ⟨s, history⟩).env, .ok v⟩ := by
        rw [execute, hm]
      have hrest := ih (o := { o with root := m, executed := true }) hloose n hok
      rw [runs, runs, List.take_succ_cons, List.take_succ_cons, List.map_cons, List.map_cons, ho,
        hrest]
      exact congrArg (· :: _) (Prod.ext hv.symm rfl)

/-- As long as the runs of the first expression come to values, the second one comes to the
same values and leaves the same variables, whatever was called before. -/
def CoveredBy (e e' : Expression) : Prop :=
  ∀ history history' scopes n, (∀ r ∈ (e.runs history scopes).take n, ∃ v, r.result = .ok v) →
    ((e'.runs history' scopes).take n).map Run.observed =
      ((e.runs history scopes).take n).map Run.observed

theorem coveredBy_of_looser {ctx : BuildContext} (hcalls : ctx.registry.Stateless)
    (h : Node.Looser e.root e'.root) (he' : e'.root.term.Forall (Term.Clean ctx)) :
    e.CoveredBy e' := by
  intro history history' scopes n hok
  rw [← observed_runs_of_looser h n hok, List.map_take, List.map_take,
    observed_runs_congr hcalls he' history history' scopes]

end Expression

namespace Compiler

/-- The compiler with strict settings, or with others. -/
def withStrict (c : Compiler) (strict : Bool) : Compiler :=
  { c with settings := { c.settings with strict } }

variable {c : Compiler} {source : String} {scope : Scope}

theorem rebuilds_withStrict (c : Compiler) (scope : Scope) :
    BuildContext.Rebuilds Eq Unpins ⟨(c.withStrict true).settings, c.registry, scope⟩
      ⟨(c.withStrict false).settings, c.registry, scope⟩ where
  isConstant _ := rfl
  registry := rfl
  scope := rfl
  literal _ kind v hv := by
    refine ⟨v, ?_, rfl⟩
    cases kind with
    | _ => exact hv
  pinned name := by
    simp only [BuildContext.pinned, withStrict, Bool.or_true, if_true, Bool.or_false]
    split
    · exact ⟨.refl, fun _ => rfl⟩
    · exact ⟨.of_none, fun hconst => absurd hconst ‹_›⟩

/-- What can be built in strict settings can be built in others, with fewer kinds fixed. -/
theorem build_withStrict {root : Node} (h : (c.withStrict true).build source scope = .ok root) :
    ∃ root', (c.withStrict false).build source scope = .ok root' ∧ root.Relaxed root' := by
  obtain ⟨es, hes, hroot, -⟩ := build_eq_ok.1 h
  obtain ⟨root', hroot', hrelaxed⟩ := Node.ofPostfix_rebuilt (rebuilds_withStrict c scope) hroot
  exact ⟨root', build_eq_ok.2 ⟨es, hes, hroot', fun h => by cases h⟩, hrelaxed⟩

/-- Strict settings only remove behaviours. What compiles with them compiles without, whether
it is optimized or not. As long as the runs of the strict expression come to values, the other
one comes to the same values and leaves the same variables, in any scopes and whatever was
called before. The functions look at their arguments alone. -/
theorem lenient_of_strict (hcalls : c.registry.Stateless) :
    (∀ e, (c.withStrict true).compilePlain source scope = .ok e →
      ∃ e', (c.withStrict false).compilePlain source scope = .ok e' ∧ e.CoveredBy e') ∧
    ∀ e before, ((c.withStrict true).compile source scope before).result = .ok e → ∀ before',
      ∃ e', ((c.withStrict false).compile source scope before').result = .ok e' ∧
        e.CoveredBy e' := by
  constructor
  · intro e he
    obtain ⟨root, hroot, rfl⟩ := Except.map_eq_ok.1 he
    obtain ⟨root', hroot', hrelaxed⟩ := build_withStrict hroot
    obtain ⟨es, -, hbuilt, -⟩ := build_built hroot'
    exact ⟨.ofNode root', Except.map_eq_ok.2 ⟨root', hroot', rfl⟩,
      Expression.coveredBy_of_looser hcalls hrelaxed.looser hbuilt.clean⟩
  · intro e before he before'
    obtain ⟨root, n, hroot, hn, rfl⟩ := compile_eq_ok.1 he
    obtain ⟨root', hroot', hrelaxed⟩ := build_withStrict hroot
    obtain ⟨es, -, hbuilt, -⟩ := build_built hroot'
    obtain ⟨m, hm, hloose, -⟩ := hrelaxed.optimize n hn
    -- the calls made before make no difference to what optimizing makes of the tree
    have hagain : (root'.optimize ⟨scope.toSealed, before⟩).Matches _ _
        (root'.optimize ⟨scope.toSealed, before'⟩) :=
      Node.optimize_matches (Term.blind_clean hcalls) hbuilt.clean rfl
    rw [hm] at hagain
    exact ⟨.ofNode m, compile_eq_ok.2 ⟨root', m, hroot', hagain.result, rfl⟩,
      Expression.coveredBy_of_looser hcalls hloose (hagain.node m rfl)⟩

/-- Strict settings drop a sign and an operand that the others keep. The runs of both come to
the same values. -/
theorem lenient_of_strict_sign :
    ∃ strict lenient,
      ((standard.withStrict true).compile "y = +x * 2; true && b"
        (.store (.ofList [("x", .integer 3), ("b", .boolean true)])) []).result = .ok strict ∧
      ((standard.withStrict false).compile "y = +x * 2; true && b"
        (.store (.ofList [("x", .integer 3), ("b", .boolean true)])) []).result = .ok lenient ∧
      lenient.text ≠ strict.text ∧
      (lenient.runs [] [.store (.ofList [("x", .integer 3), ("b", .boolean true)]),
          .store (.ofList [("x", .integer 7), ("b", .boolean false)])]).map Run.observed =
        (strict.runs [] [.store (.ofList [("x", .integer 3), ("b", .boolean true)]),
          .store (.ofList [("x", .integer 7), ("b", .boolean false)])]).map Run.observed ∧
      (strict.runs [] [.store (.ofList [("x", .integer 3), ("b", .boolean true)]),
          .store (.ofList [("x", .integer 7), ("b", .boolean false)])]).map Run.result =
        [.ok (.boolean true), .ok (.boolean false)] := by
  have hstrict : ((standard.withStrict true).compile "y = +x * 2; true && b"
      (.store (.ofList [("x", .integer 3), ("b", .boolean true)])) []).result.map (fun e =>
        (e.text, (e.runs [] [.store (.ofList [("x", .integer 3), ("b", .boolean true)]),
          .store (.ofList [("x", .integer 7), ("b", .boolean false)])]).map Run.result)) =
      .ok ("(; (= y (* x 2)) b)", [.ok (.boolean true), .ok (.boolean false)]) := by cbv
  have hlenient : ((standard.withStrict false).compile "y = +x * 2; true && b"
      (.store (.ofList [("x", .integer 3), ("b", .boolean true)])) []).result.map (fun e =>
        e.text) = .ok "(; (= y (* (+ x) 2)) (&& true b))" := by cbv
  obtain ⟨strict, hstrict, hboth⟩ := Except.map_eq_ok.1 hstrict
  obtain ⟨htext, hresults⟩ := Prod.mk.injEq .. ▸ hboth
  obtain ⟨lenient, hcompile, hcovered⟩ :=
    (lenient_of_strict Registry.stateless_builtins).2 strict [] hstrict []
  have hsame := hcovered [] [] [.store (.ofList [("x", .integer 3), ("b", .boolean true)]),
    .store (.ofList [("x", .integer 7), ("b", .boolean false)])] 2
  have hvalues : ∀ r ∈ strict.runs [] [.store (.ofList [("x", .integer 3), ("b", .boolean true)]),
      .store (.ofList [("x", .integer 7), ("b", .boolean false)])], ∃ v, r.result = .ok v := by
    intro r hr
    have hr := List.mem_map_of_mem (f := Run.result) hr
    rw [hresults] at hr
    simp only [List.mem_cons, List.not_mem_nil, or_false] at hr
    rcases hr with hr | hr
    · exact ⟨_, hr⟩
    · exact ⟨_, hr⟩
  rw [hcompile] at hlenient
  have htext' : lenient.text = "(; (= y (* (+ x) 2)) (&& true b))" := Except.ok.inj hlenient
  refine ⟨strict, lenient, hstrict, hcompile, ?_, hsame hvalues, hresults⟩
  rw [htext, htext']
  decide

end Compiler

end Formula

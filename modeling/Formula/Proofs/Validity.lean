import Formula.Proofs.Compiling
import Formula.Proofs.Sessions
import Formula.Proofs.Signatures

/-!
# Validity of what compiling returns

In strict settings a tree is checked when it is built, and optimized after that. The check knows
nothing of the kinds of calls, but optimizing puts their values in, and so the tree that it makes
can clash where the built one did not (`Compiler.validate_compile_clash`).

That is the only way. Runs of what is fixed and all that optimizing does keep a tree consistent
(`Node.leavesConsistent`, `Node.optimizesConsistent`) under every signature that
is right about the calls made on the way. So what compiling returns is valid if no function was
called meanwhile, or if the built tree is valid with a signature that is right about the calls
(`Compiler.validate_compile`).
-/

namespace Formula

/-! ## Signatures that are right about calls -/

/-- The second history goes on from the first one, and where one of the calls since then came to a
value, the signature says of what kind. -/
inductive Signature.Covers (sig : Signature) (r : Registry) (before : History) : History → Prop
  | start : Covers sig r before before
  | call {h : History} {c : Call} (hh : Covers sig r before h)
      (hc : ∀ name f, r.entries[c.number]? = some (name, f) →
        ∀ v, f.answer h c.args = .ok v → sig c.number (c.args.map Value.kind) = some v.kind) :
      Covers sig r before (c :: h)

namespace Signature.Covers

variable {sig : Signature} {r : Registry} {before h after : History} {c : Call}

/-- A signature is right about the calls made up to some point if it is right about all. -/
theorem of_suffix (hafter : sig.Covers r before after) (hh : h <:+ after)
    (hbefore : before <:+ h) : sig.Covers r before h := by
  induction hafter with
  | start =>
    obtain rfl := hh.eq_of_length_le hbefore.length_le
    exact .start
  | @call rest c hrest hc ih =>
    rcases List.suffix_cons_iff.1 hh with rfl | hh
    · exact .call hrest hc
    · exact ih hh

/-- The signature is right about the last call. -/
theorem head (hafter : sig.Covers r before (c :: h)) (hbefore : before <:+ h) {name : String}
    {f : Function} (hf : r.entries[c.number]? = some (name, f)) {v : Value}
    (hv : f.answer h c.args = .ok v) : sig c.number (c.args.map Value.kind) = some v.kind := by
  cases hafter with
  | start => simpa using hbefore.length_le
  | call hh hc => exact hc name f hf v hv

end Signature.Covers

/-! ## Histories only grow -/

theorem Term.keeps_history (before : History) (t : Term) :
    t.Keeps fun env => before <:+ env.history := by
  cases t with
  | assign op name v => exact fun env v scope henv hset => henv
  | call name f args => exact fun env vs henv => henv.trans (List.suffix_cons ..)
  | _ => trivial

/-- The reduction starts from a history that it only adds to. -/
abbrev Reduction.After (h : History) (r : Reduction) : Prop := h <:+ r.env.history

theorem Reduction.After.andThen {h : History} {r : Reduction} {f : Node → Env → Reduction}
    (hr : r.After h) (hf : ∀ n env, (f n env).After env.history) : (r.andThen f).After h := by
  unfold Reduction.andThen
  split
  · exact hr
  · exact hr.trans (hf ..)

namespace Node

variable {n : Node} {env : Env}

/-- A run adds to the history. -/
theorem suffix_execute : env.history <:+ (n.execute env).env.history :=
  answer_keeps (P := fun env' => env.history <:+ env'.history)
    (fun t _ => t.keeps_history env.history) (List.suffix_refl _)

theorem suffix_executeAll {ns : List Node} :
    env.history <:+ (executeAll ns env).env.history := by
  have hanswer : (answerAll ns env).env = (executeAll ns env).env := by
    unfold answerAll ArgsOutcome.answer
    cases (executeAll ns env).fault <;> rfl
  rw [← hanswer]
  exact answerAll_keeps (P := fun env' => env.history <:+ env'.history)
    (fun n _ _ henv => henv.trans suffix_execute) (List.suffix_refl _)

theorem suffix_probe : env.history <:+ (n.probe env).env.history := by
  unfold probe
  split
  · simp only
    split
    · exact suffix_execute
    · exact suffix_execute
  · exact List.suffix_refl _

theorem after_fold : (n.fold env).After env.history := by
  unfold fold
  split
  · exact suffix_execute
  · exact List.suffix_refl _

/-- Optimizing adds to the history. -/
theorem after_optimize : (n.optimize env).After env.history := by
  have hp : Term.Local fun _ => True :=
    { assign := fun _ _ _ _ h => h, call := fun _ _ _ _ h => h }
  exact (optimize_meets (P := fun env' => env.history <:+ env'.history) hp
    (fun t _ _ => t.keeps_history env.history) (fun _ _ => trivial) (List.suffix_refl _)).env

/-- A side of a connective that is fixed stays as the look has left it, and the other one is
optimized. -/
theorem after_side (fixed : Bool) (m n : Node) (env : Env) :
    Reduction.After env.history (if fixed then ⟨.ok m, env⟩ else n.optimize env) := by
  cases fixed
  · exact after_optimize
  · exact List.suffix_refl _

theorem after_optimizeAll {ns : List Node} :
    env.history <:+ (optimizeAll ns env).env.history :=
  (meets_optimizeAll (P := fun env' => env.history <:+ env'.history) (Q := fun _ => True)
    (fun _ _ _ henv => ⟨henv.trans after_optimize, fun _ _ => trivial⟩) (List.suffix_refl _)).1

/-! ## Runs of consistent trees -/

section

variable {ctx : BuildContext} {sig : Signature} {before : History} {k : Option Kind}

/-- A run leaves a consistent tree of the kind, and if it comes to a value then to one of the
kind, which is known. -/
structure Consistent.Leaves (sig : Signature) (k : Option Kind) (o : Outcome) : Prop where
  node : Consistent sig o.node k
  value : ∀ v, o.result = .ok v → k = some v.kind

/-- The end of a run leaves a consistent tree if the slot may hold any value of the kind. -/
theorem Consistent.Leaves.commit {node : Slot → Node} {s : Slot} {r : Except Fault Value}
    (hnode : Consistent sig (node s) k)
    (hkept : ∀ v : Value, k = some v.kind → Consistent sig (node (.holding v)) k)
    (hvalue : ∀ v, r = .ok v → s.Admits v.kind → k = some v.kind) :
    Leaves sig k (Node.commit node s env r) := by
  cases r with
  | error e => exact ⟨hnode, by simp [Node.commit]⟩
  | ok v =>
    rw [Node.commit]
    cases hs : s.store v with
    | error e => exact ⟨hnode, by simp⟩
    | ok kept =>
      obtain ⟨hadmits, rfl⟩ := Slot.store_eq_ok.1 hs
      have hk := hvalue v rfl hadmits
      exact ⟨hkept v hk, fun w hw => Except.ok.inj hw ▸ hk⟩

/-- Wherever the tree is consistent, a run of it leaves it so, if the signature is right about the
calls made on the way. -/
def LeavesConsistent (ctx : BuildContext) (sig : Signature) (before : History) (n : Node) : Prop :=
  ∀ ⦃k env⦄, Consistent sig n k → before <:+ env.history →
    sig.Covers ctx.registry before (n.execute env).env.history →
      Consistent.Leaves sig k (n.execute env)

namespace LeavesConsistent

variable {l r a b : Node} {s : Slot}

theorem literal (v : Value) : (literal v).LeavesConsistent ctx sig before := by
  intro k env h _ _
  cases h with
  | literal => exact ⟨by rw [execute]; exact .literal v, by simp [execute]⟩

/-- The kind of a constant is known. -/
theorem read {name : String} : (read name true s).LeavesConsistent ctx sig before := by
  intro k env h _ _
  cases h with
  | read hc =>
    obtain ⟨k, hk⟩ := Option.isSome_iff_exists.1 (hc rfl)
    rw [execute]
    refine .commit (.read hc) (fun v hv => hv ▸ .read fun _ => rfl) fun v _ hadmits => ?_
    rcases hadmits with hnone | hsome
    · simp [hnone] at hk
    · exact hsome

theorem logic {op : Connective} (hl : l.LeavesConsistent ctx sig before)
    (hr : r.LeavesConsistent ctx sig before) :
    (logic op l r s).LeavesConsistent ctx sig before := by
  intro k env h hbefore hcovers
  cases h with
  | logic hcl hcr hkl hkr =>
    have hbefore' := hbefore.trans (suffix_execute (n := l))
    cases hres : (l.execute env).result.bind (Value.asBool op.symbol) with
    | error e =>
      simp only [execute, hres] at hcovers ⊢
      exact ⟨.logic (hl hcl hbefore hcovers).node hcr hkl hkr, by simp⟩
    | ok b =>
      by_cases hb : b = op.absorbing
      · simp only [execute, hres, if_pos hb, env_commit] at hcovers ⊢
        have hl' := (hl hcl hbefore hcovers).node
        refine .commit (.logic hl' hcr hkl hkr) (fun _ _ => .logic hl' hcr hkl hkr) ?_
        intro v hv _
        rw [← Except.ok.inj hv]
        rfl
      · simp only [execute, hres, if_neg hb, env_commit] at hcovers ⊢
        have hl' := (hl hcl hbefore (hcovers.of_suffix suffix_execute hbefore')).node
        have hr' := (hr hcr hbefore' hcovers).node
        refine .commit (.logic hl' hr' hkl hkr) (fun _ _ => .logic hl' hr' hkl hkr) ?_
        intro v hv _
        obtain ⟨c, -, rfl⟩ := Except.map_eq_ok.1 hv
        rfl

theorem not (ha : a.LeavesConsistent ctx sig before) :
    (not a s).LeavesConsistent ctx sig before := by
  intro k env h hbefore hcovers
  cases h with
  | not hca hk =>
    simp only [execute, env_commit] at hcovers ⊢
    have ha' := (ha hca hbefore hcovers).node
    refine .commit (.not ha' hk) (fun _ _ => .not ha' hk) fun v hv _ => ?_
    obtain ⟨b, -, rfl⟩ := Except.map_eq_ok.1 hv
    rfl

theorem sign {g : Sign} (ha : a.LeavesConsistent ctx sig before) :
    (sign g a s).LeavesConsistent ctx sig before := by
  intro k env h hbefore hcovers
  cases h with
  | sign hca hk hs =>
    simp only [execute, env_commit] at hcovers ⊢
    have ha' := ha hca hbefore hcovers
    refine .commit (.sign ha'.node hk hs)
      (fun v hv => .sign ha'.node hk (.inr hv.symm)) fun v hv _ => ?_
    obtain ⟨w, hw, hv⟩ := Except.bind_eq_ok.1 hv
    rw [ha'.value w hw, (applySign_kind hv).2]

theorem arith {op : ArithOp} (hl : l.LeavesConsistent ctx sig before)
    (hr : r.LeavesConsistent ctx sig before) :
    (arith op l r s).LeavesConsistent ctx sig before := by
  intro k env h hbefore hcovers
  cases h with
  | arith hcl hcr hk hs =>
    have hbefore' := hbefore.trans (suffix_execute (n := l))
    cases hres : (l.execute env).result with
    | error e =>
      simp only [execute, hres] at hcovers ⊢
      exact ⟨.arith (hl hcl hbefore hcovers).node hcr hk hs, by simp⟩
    | ok v =>
      simp only [execute, hres, env_commit] at hcovers ⊢
      have hl' := hl hcl hbefore (hcovers.of_suffix suffix_execute hbefore')
      have hr' := hr hcr hbefore' hcovers
      refine .commit (.arith hl'.node hr'.node hk hs)
        (fun w hw => .arith hl'.node hr'.node hk (.inr hw.symm)) fun u hu _ => ?_
      obtain ⟨w, hw, hu⟩ := Except.bind_eq_ok.1 hu
      rw [hl'.value v hres, hr'.value w hw, Kind.static?, Value.arith_kind hu]
      rfl

theorem compare {op : CompareOp} (hl : l.LeavesConsistent ctx sig before)
    (hr : r.LeavesConsistent ctx sig before) :
    (compare op l r s).LeavesConsistent ctx sig before := by
  intro k env h hbefore hcovers
  cases h with
  | compare hcl hcr hk =>
    have hbefore' := hbefore.trans (suffix_execute (n := l))
    cases hres : (l.execute env).result with
    | error e =>
      simp only [execute, hres] at hcovers ⊢
      exact ⟨.compare (hl hcl hbefore hcovers).node hcr hk, by simp⟩
    | ok v =>
      simp only [execute, hres, env_commit] at hcovers ⊢
      have hl' := hl hcl hbefore (hcovers.of_suffix suffix_execute hbefore')
      have hr' := hr hcr hbefore' hcovers
      refine .commit (.compare hl'.node hr'.node hk)
        (fun _ _ => .compare hl'.node hr'.node hk) fun u hu _ => ?_
      obtain ⟨c, -, rfl⟩ := Except.map_eq_ok.1 hu
      rfl

/-- Arguments stay consistent, and if none fails then all their kinds are known. -/
theorem executeAll {ns : List Node} {ks : List (Option Kind)}
    (hns : ∀ n ∈ ns, n.LeavesConsistent ctx sig before)
    (h : List.Forall₂ (Consistent sig) ns ks) (hbefore : before <:+ env.history)
    (hcovers : sig.Covers ctx.registry before (executeAll ns env).env.history) :
    List.Forall₂ (Consistent sig) (executeAll ns env).nodes ks ∧
      ((executeAll ns env).fault = none →
        ks = ((executeAll ns env).values.map Value.kind).map some) := by
  induction h generalizing env with
  | nil => exact ⟨.nil, fun _ => rfl⟩
  | @cons n k ns ks hn hrest ihs =>
    rw [List.forall_mem_cons] at hns
    cases hres : (n.execute env).result with
    | error e =>
      simp only [Node.executeAll, hres] at hcovers ⊢
      exact ⟨.cons (hns.1 hn hbefore hcovers).node hrest, by simp⟩
    | ok v =>
      simp only [Node.executeAll, hres] at hcovers ⊢
      have hbefore' := hbefore.trans (suffix_execute (n := n))
      have hn' := hns.1 hn hbefore (hcovers.of_suffix suffix_executeAll hbefore')
      obtain ⟨hnodes, hvalues⟩ := ihs hns.2 hbefore' hcovers
      refine ⟨.cons hn'.node hnodes, fun hfault => ?_⟩
      rw [hvalues hfault, hn'.value v hres]
      rfl

/-- The call itself is one that the signature is right about. -/
theorem call {name : String} {f : Overload} {args : List Node} {buffer : Buffer}
    (hf : f.RegisteredIn ctx.registry) (hargs : ∀ a ∈ args, a.LeavesConsistent ctx sig before) :
    (call name f args buffer s).LeavesConsistent ctx sig before := by
  intro k env h hbefore hcovers
  cases h with
  | @call _ _ _ _ _ ks hcs hs =>
    cases hfault : (Node.executeAll args env).fault with
    | some e =>
      simp only [execute_call, hfault] at hcovers ⊢
      exact ⟨.call (executeAll hargs hcs hbefore hcovers).1 hs, by simp⟩
    | none =>
      simp only [execute_call, hfault, env_commit] at hcovers ⊢
      have hbefore' := hbefore.trans (@suffix_executeAll env args)
      obtain ⟨hnodes, hks⟩ := executeAll hargs hcs hbefore
        (hcovers.of_suffix (List.suffix_cons ..) hbefore')
      refine .commit (.call hnodes hs) (fun v hv => .call hnodes (.inr hv.symm))
        fun v hv _ => ?_
      obtain ⟨registered, hf⟩ := hf
      rw [hks hfault, Signature.answer_known]
      exact hcovers.head hbefore' hf hv

theorem sequence (ha : a.LeavesConsistent ctx sig before)
    (hb : b.LeavesConsistent ctx sig before) :
    (sequence a b s).LeavesConsistent ctx sig before := by
  intro k env h hbefore hcovers
  cases h with
  | sequence hca hcb hs =>
    have hbefore' := hbefore.trans (suffix_execute (n := a))
    cases hres : (a.execute env).result with
    | error e =>
      simp only [execute, hres] at hcovers ⊢
      exact ⟨.sequence (ha hca hbefore hcovers).node hcb hs, by simp⟩
    | ok v =>
      simp only [execute, hres, env_commit] at hcovers ⊢
      have ha' := ha hca hbefore (hcovers.of_suffix suffix_execute hbefore')
      have hb' := hb hcb hbefore' hcovers
      exact .commit (.sequence ha'.node hb'.node hs)
        (fun w hw => .sequence ha'.node hb'.node (.inr hw.symm)) fun w hw _ => hb'.value w hw

end LeavesConsistent

/-- Runs of what is fixed keep a tree consistent, if the signature is right about the calls made
on the way. -/
theorem leavesConsistent (hclean : n.term.Forall (Term.Clean ctx))
    (hpre : n.isPrecomputable = true) : n.LeavesConsistent ctx sig before := by
  induction n with
  | literal v => exact .literal v
  | read name c s =>
    obtain rfl : c = true := hpre
    exact .read
  | logic op l r s ihl ihr =>
    rw [term, Term.forall_logic] at hclean
    simp only [isPrecomputable, Bool.and_eq_true] at hpre
    exact .logic (ihl hclean.2.1 hpre.1) (ihr hclean.2.2 hpre.2)
  | not a s ih => exact .not (ih (Term.forall_not.1 hclean).2 hpre)
  | sign g a s ih => exact .sign (ih (Term.forall_sign.1 hclean).2 hpre)
  | arith op l r s ihl ihr =>
    rw [term, Term.forall_arith] at hclean
    simp only [isPrecomputable, Bool.and_eq_true] at hpre
    exact .arith (ihl hclean.2.1 hpre.1) (ihr hclean.2.2 hpre.2)
  | compare op l r s ihl ihr =>
    rw [term, Term.forall_compare] at hclean
    simp only [isPrecomputable, Bool.and_eq_true] at hpre
    exact .compare (ihl hclean.2.1 hpre.1) (ihr hclean.2.2 hpre.2)
  | assign op name target v s ih => simp [isPrecomputable] at hpre
  | call name f args b s ih =>
    rw [term, terms_eq_map, Term.forall_call, List.forall_mem_map] at hclean
    simp only [isPrecomputable, Bool.and_eq_true, allPrecomputable_iff] at hpre
    exact .call hclean.1 fun a ha => ih a ha (hclean.2 a ha) (hpre.2 a ha)
  | sequence a b s iha ihb =>
    rw [term, Term.forall_sequence] at hclean
    simp only [isPrecomputable, Bool.and_eq_true] at hpre
    exact .sequence (iha hclean.2.1 hpre.1) (ihb hclean.2.2 hpre.2)

/-! ## Optimizing consistent trees -/

/-- The tree that a reduction comes to is consistent and of the kind, if the signature is right
about the calls made till then. -/
def ConsistentReduction (sig : Signature) (r : Registry) (before : History) (k : Option Kind)
    (red : Reduction) : Prop :=
  sig.Covers r before red.env.history → ∀ m, red.result = .ok m → Consistent sig m k

variable {red : Reduction} {k' : Option Kind}

theorem ConsistentReduction.ok {m : Node} (h : Consistent sig m k) :
    ConsistentReduction sig ctx.registry before k ⟨.ok m, env⟩ :=
  fun _ _ hm => Except.ok.inj hm ▸ h

theorem ConsistentReduction.andThen {f : Node → Env → Reduction}
    (h : ConsistentReduction sig ctx.registry before k red)
    (hbefore : red.After before) (hafter : ∀ m env, (f m env).After env.history)
    (hf : ∀ m, red.result = .ok m → Consistent sig m k →
      ConsistentReduction sig ctx.registry before k' (f m red.env)) :
    ConsistentReduction sig ctx.registry before k' (red.andThen f) := by
  unfold Reduction.andThen
  cases hres : red.result with
  | error e => exact fun _ m hm => by simp at hm
  | ok m =>
    intro hcovers
    have hm := h (hcovers.of_suffix (hafter m red.env) hbefore) m hres
    exact hf m hres hm hcovers

/-- Folding a consistent tree leaves a consistent one, or a value of its kind. -/
theorem Consistent.fold (h : Consistent sig n k) (hclean : n.term.Forall (Term.Clean ctx))
    (hbefore : before <:+ env.history) :
    ConsistentReduction sig ctx.registry before k (n.fold env) := by
  unfold Node.fold
  split
  · rename_i hcase
    have hpre : n.isPrecomputable = true := ((Bool.and_eq_true _ _).mp hcase).1
    intro hcovers m hm
    obtain ⟨v, hv, rfl⟩ := Except.map_eq_ok.1 hm
    rw [(leavesConsistent hclean hpre h hbefore hcovers).value v hv]
    exact .literal v
  · exact .ok h

theorem probe_of_isPrecomputable (hpre : n.isPrecomputable = true) (env : Env) :
    (n.probe env).node = (n.execute env).node ∧ (n.probe env).env = (n.execute env).env := by
  unfold probe
  rw [if_pos hpre]
  simp only
  split
  · exact ⟨rfl, rfl⟩
  · exact ⟨rfl, rfl⟩

/-- A look at an operand leaves it consistent. -/
theorem Consistent.probe (h : Consistent sig n k) (hclean : n.term.Forall (Term.Clean ctx))
    (hbefore : before <:+ env.history)
    (hcovers : sig.Covers ctx.registry before (n.probe env).env.history) :
    Consistent sig (n.probe env).node k := by
  cases hpre : n.isPrecomputable with
  | false =>
    rw [Node.probe, hpre]
    exact h
  | true =>
    obtain ⟨hnode, henv⟩ := probe_of_isPrecomputable hpre env
    rw [henv] at hcovers
    rw [hnode]
    exact (leavesConsistent hclean hpre h hbefore hcovers).node

/-- An operand that may take the place of its connective is a truth value. -/
theorem Consistent.dropIdentity {op : Connective} {onRight : Bool} {s : Slot}
    (h : Consistent sig n k) (hk : Kind.checkBoolean op.symbol k = .ok ()) :
    Consistent sig (dropIdentity op onRight s n) (some .boolean) := by
  unfold Node.dropIdentity
  split
  · rename_i hkind
    rcases h.atMost with hnone | hsome
    · simp [hnone] at hkind
    · rwa [← hkind, hsome]
  · have hliteral : Consistent sig (Node.literal (.boolean op.identity)) (some .boolean) :=
      .literal _
    cases onRight
    · exact .logic h hliteral hk rfl
    · exact .logic hliteral h rfl hk

/-- Wherever the tree is consistent, optimizing leaves a consistent one of the same kind, if the
signature is right about the calls made on the way. -/
def OptimizesConsistent (ctx : BuildContext) (sig : Signature) (before : History) (n : Node) :
    Prop :=
  ∀ ⦃k env⦄, Consistent sig n k → before <:+ env.history →
    ConsistentReduction sig ctx.registry before k (n.optimize env)

namespace OptimizesConsistent

variable {l r a b : Node} {s : Slot}

theorem logic {op : Connective} (hl : l.OptimizesConsistent ctx sig before)
    (hr : r.OptimizesConsistent ctx sig before)
    (hclean : (logic op l r s).term.Forall (Term.Clean ctx)) :
    (logic op l r s).OptimizesConsistent ctx sig before := by
  intro k env h hbefore
  cases h with
  | @logic _ _ _ _ kl kr hcl hcr hkl hkr =>
    have hp : before <:+ (l.probe env).env.history := hbefore.trans suffix_probe
    have hq : before <:+ (r.probe (l.probe env).env).env.history := hp.trans suffix_probe
    -- whatever comes after the two looks, they have left consistent operands
    have hprobes : ∀ {red : Reduction},
        red.After (r.probe (l.probe env).env).env.history →
        (Consistent sig (l.probe env).node kl → Consistent sig (r.probe (l.probe env).env).node kr →
          ConsistentReduction sig ctx.registry before (some .boolean) red) →
        ConsistentReduction sig ctx.registry before (some .boolean) red := by
      intro red hafter h hcovers
      rw [term, Term.forall_logic] at hclean
      have hcovers' := hcovers.of_suffix hafter hq
      exact h (hcl.probe hclean.2.1 hbefore (hcovers'.of_suffix suffix_probe hp))
        (hcr.probe hclean.2.2 hp hcovers') hcovers
    rw [optimize]
    split
    · exact .ok (.literal _)
    split
    · exact .ok (.literal _)
    split
    · refine hprobes after_fold fun hl' hr' =>
        (Consistent.logic hl' hr' hkl hkr).fold ?_ hq
      rw [term, Term.forall_logic] at hclean ⊢
      rw [term_probe, term_probe]
      exact ⟨Term.Clean.isLocal.logic .., hclean.2⟩
    split
    · exact (hr hcr hq).andThen (hq.trans after_optimize) (fun _ _ => List.suffix_refl _)
        fun m _ hm => .ok (hm.dropIdentity hkr)
    split
    · exact (hl hcl hq).andThen (hq.trans after_optimize) (fun _ _ => List.suffix_refl _)
        fun m _ hm => .ok (hm.dropIdentity hkl)
    have hafter := after_side l.isPrecomputable (l.probe env).node l
      (r.probe (l.probe env).env).env
    refine hprobes
      (hafter.andThen fun _ _ => (after_side ..).andThen fun _ _ => List.suffix_refl _)
      fun hl' hr' => ConsistentReduction.andThen (k := kl) ?_ (hq.trans hafter)
        (fun _ _ => (after_side ..).andThen fun _ _ => List.suffix_refl _) fun a _ ha =>
        ConsistentReduction.andThen (k := kr) ?_ ((hq.trans hafter).trans (after_side ..))
          (fun _ _ => List.suffix_refl _) fun b _ hb => .ok (.logic ha hb hkl hkr)
    · split
      · exact .ok hl'
      · exact hl hcl hq
    · split
      · exact .ok hr'
      · exact hr hcr (hq.trans hafter)

theorem not (ha : a.OptimizesConsistent ctx sig before)
    (hclean : a.term.Forall (Term.Clean ctx)) :
    (not a s).OptimizesConsistent ctx sig before := by
  intro k env h hbefore
  rw [optimize]
  cases h with
  | not hca hk =>
    refine (ha hca hbefore).andThen (hbefore.trans after_optimize)
      (fun _ _ => after_fold) fun m hm hcm => (Consistent.not hcm hk).fold ?_ ?_
    · exact Term.forall_not.2
        ⟨Term.Clean.isLocal.not _, forall_optimize Term.Clean.isLocal hclean hm⟩
    · exact hbefore.trans after_optimize

theorem sign {g : Sign} (ha : a.OptimizesConsistent ctx sig before)
    (hclean : a.term.Forall (Term.Clean ctx)) :
    (sign g a s).OptimizesConsistent ctx sig before := by
  intro k env h hbefore
  rw [optimize]
  cases h with
  | sign hca hk hs =>
    have hbefore' := hbefore.trans (after_optimize (n := a))
    refine (ha hca hbefore).andThen hbefore' (fun m env => ?_) fun m hm hcm => ?_
    · split
      · exact after_fold
      split
      · exact List.suffix_refl _
      · exact List.suffix_refl _
    · split
      · refine (Consistent.sign hcm hk hs).fold ?_ hbefore'
        exact Term.forall_sign.2
          ⟨Term.Clean.isLocal.sign _ _, forall_optimize Term.Clean.isLocal hclean hm⟩
      split
      · exact .ok hcm
      · exact .ok (.sign hcm hk hs)

theorem arith {op : ArithOp} (hl : l.OptimizesConsistent ctx sig before)
    (hr : r.OptimizesConsistent ctx sig before)
    (hcleanl : l.term.Forall (Term.Clean ctx)) (hcleanr : r.term.Forall (Term.Clean ctx)) :
    (arith op l r s).OptimizesConsistent ctx sig before := by
  intro k env h hbefore
  rw [optimize]
  cases h with
  | arith hcl hcr hk hs =>
    have hbefore' := hbefore.trans (after_optimize (n := l))
    refine (hl hcl hbefore).andThen hbefore'
      (fun _ _ => after_optimize.andThen fun _ _ => after_fold) fun a ha hca =>
      (hr hcr hbefore').andThen (hbefore'.trans after_optimize)
        (fun _ _ => after_fold) fun b hb hcb =>
        (Consistent.arith hca hcb hk hs).fold ?_ (hbefore'.trans after_optimize)
    exact Term.forall_arith.2 ⟨Term.Clean.isLocal.arith _ _ _,
      forall_optimize Term.Clean.isLocal hcleanl ha, forall_optimize Term.Clean.isLocal hcleanr hb⟩

theorem compare {op : CompareOp} (hl : l.OptimizesConsistent ctx sig before)
    (hr : r.OptimizesConsistent ctx sig before)
    (hcleanl : l.term.Forall (Term.Clean ctx)) (hcleanr : r.term.Forall (Term.Clean ctx)) :
    (compare op l r s).OptimizesConsistent ctx sig before := by
  intro k env h hbefore
  rw [optimize]
  cases h with
  | compare hcl hcr hk =>
    have hbefore' := hbefore.trans (after_optimize (n := l))
    refine (hl hcl hbefore).andThen hbefore'
      (fun _ _ => after_optimize.andThen fun _ _ => after_fold) fun a ha hca =>
      (hr hcr hbefore').andThen (hbefore'.trans after_optimize)
        (fun _ _ => after_fold) fun b hb hcb =>
        (Consistent.compare hca hcb hk).fold ?_ (hbefore'.trans after_optimize)
    exact Term.forall_compare.2 ⟨Term.Clean.isLocal.compare _ _ _,
      forall_optimize Term.Clean.isLocal hcleanl ha, forall_optimize Term.Clean.isLocal hcleanr hb⟩

theorem assign {op : AssignOp} {name : String} {target : Option Kind}
    (ha : a.OptimizesConsistent ctx sig before) :
    (assign op name target a s).OptimizesConsistent ctx sig before := by
  intro k env h hbefore
  rw [optimize]
  cases h with
  | assign hca hk hs =>
    exact (ha hca hbefore).andThen (hbefore.trans after_optimize)
      (fun _ _ => List.suffix_refl _) fun m _ hcm => .ok (.assign hcm hk hs)

theorem optimizeAll {ns : List Node} {ks : List (Option Kind)}
    (hns : ∀ n ∈ ns, n.OptimizesConsistent ctx sig before)
    (h : List.Forall₂ (Consistent sig) ns ks) (hbefore : before <:+ env.history)
    (hcovers : sig.Covers ctx.registry before (optimizeAll ns env).env.history) :
    ∀ ms, (optimizeAll ns env).result = .ok ms → List.Forall₂ (Consistent sig) ms ks := by
  induction h generalizing env with
  | nil =>
    intro ms hms
    rw [← Except.ok.inj hms]
    exact .nil
  | @cons n k ns ks hn _ ih =>
    rw [List.forall_mem_cons] at hns
    rw [Node.optimizeAll] at hcovers ⊢
    cases hres : (n.optimize env).result with
    | error e => simp
    | ok m =>
      simp only [hres] at hcovers ⊢
      have hbefore' := hbefore.trans (after_optimize (n := n))
      intro ms hms
      obtain ⟨rest, hrest, rfl⟩ := Except.map_eq_ok.1 hms
      exact .cons (hns.1 hn hbefore (hcovers.of_suffix after_optimizeAll hbefore') m hres)
        (ih hns.2 hbefore' hcovers rest hrest)

theorem call {name : String} {f : Overload} {args : List Node} {buffer : Buffer}
    (hargs : ∀ a ∈ args, a.OptimizesConsistent ctx sig before)
    (hclean : (call name f args buffer s).term.Forall (Term.Clean ctx)) :
    (call name f args buffer s).OptimizesConsistent ctx sig before := by
  intro k env h hbefore
  rw [term, terms_eq_map, Term.forall_call, List.forall_mem_map] at hclean
  rw [optimize]
  cases h with
  | call hcs hs =>
    have hbefore' := hbefore.trans (@after_optimizeAll env args)
    cases hres : (Node.optimizeAll args env).result with
    | error e => exact fun _ m hm => by simp at hm
    | ok ms =>
      intro hcovers
      have hms := optimizeAll hargs hcs hbefore (hcovers.of_suffix after_fold hbefore') ms hres
      refine (Consistent.call hms hs).fold ?_ hbefore' hcovers
      rw [term, terms_eq_map, Term.forall_call, List.forall_mem_map]
      exact ⟨Term.Clean.isLocal.call _ _ _ _ hclean.1,
        forall_optimizeAll Term.Clean.isLocal hclean.2 hres⟩

theorem sequence (ha : a.OptimizesConsistent ctx sig before)
    (hb : b.OptimizesConsistent ctx sig before) :
    (sequence a b s).OptimizesConsistent ctx sig before := by
  intro k env h hbefore
  rw [optimize]
  cases h with
  | sequence hca hcb hs =>
    have hbefore' := hbefore.trans (after_optimize (n := a))
    refine (ha hca hbefore).andThen hbefore'
      (fun _ _ => after_optimize.andThen fun _ _ => List.suffix_refl _) fun _ _ hca' =>
      (hb hcb hbefore').andThen (hbefore'.trans after_optimize)
        (fun _ _ => List.suffix_refl _) fun _ _ hcb' => .ok ?_
    split
    · exact hcb'
    · exact .sequence hca' hcb' hs

end OptimizesConsistent

/-- Optimizing keeps a tree consistent and of the same kind. -/
theorem optimizesConsistent (hclean : n.term.Forall (Term.Clean ctx)) :
    n.OptimizesConsistent ctx sig before := by
  induction n with
  | literal v =>
    intro k env h _
    rw [optimize]
    exact .ok h
  | read name c s =>
    intro k env h hbefore
    rw [optimize]
    exact h.fold hclean hbefore
  | logic op l r s ihl ihr =>
    have hparts := Term.forall_logic.1 hclean
    exact .logic (ihl hparts.2.1) (ihr hparts.2.2) hclean
  | not a s ih =>
    have hparts := Term.forall_not.1 hclean
    exact .not (ih hparts.2) hparts.2
  | sign g a s ih =>
    have hparts := Term.forall_sign.1 hclean
    exact .sign (ih hparts.2) hparts.2
  | arith op l r s ihl ihr =>
    have hparts := Term.forall_arith.1 hclean
    exact .arith (ihl hparts.2.1) (ihr hparts.2.2) hparts.2.1 hparts.2.2
  | compare op l r s ihl ihr =>
    have hparts := Term.forall_compare.1 hclean
    exact .compare (ihl hparts.2.1) (ihr hparts.2.2) hparts.2.1 hparts.2.2
  | assign op name target a s ih => exact .assign (ih (Term.forall_assign.1 hclean).2)
  | call name f args b s ih =>
    have hparts := hclean
    rw [term, terms_eq_map, Term.forall_call, List.forall_mem_map] at hparts
    exact .call (fun a ha => ih a ha (hparts.2 a ha)) hclean
  | sequence a b s iha ihb =>
    have hparts := Term.forall_sequence.1 hclean
    exact .sequence (iha hparts.2.1) (ihb hparts.2.2)

end

end Node

namespace Compiler

/-- What compiling returns in strict settings is valid if no function was called meanwhile. If some
were, it is valid if the tree was valid when it was built and would have been so if the kinds with
which these functions answer had been known. -/
theorem validate_compile {c : Compiler} {source : String} {scope : Scope} {before : History}
    {e : Expression} (hstrict : c.settings.strict = true)
    (h : (c.compile source scope before).result = .ok e) :
    ((c.compile source scope before).history = before → e.validate = .ok ()) ∧
    ∀ (root : Node) (sig : Signature), c.build source scope = .ok root →
      sig.Covers c.registry before (c.compile source scope before).history →
        (root.withSignature sig).validate = .ok () → e.validate = .ok () := by
  obtain ⟨root, m, hroot, hm, rfl⟩ := compile_eq_ok.1 h
  obtain ⟨es, -, hbuilt, hvalid⟩ := build_built hroot
  have hhistory : (c.compile source scope before).history =
      (root.optimize ⟨scope.toSealed, before⟩).env.history := by
    rw [compile, hroot]
  have hrules : ∀ sig : Signature,
      sig.Covers c.registry before (c.compile source scope before).history →
        (root.withSignature sig).validate = .ok () → m.validate = .ok () := by
    intro sig hcovers hsig
    rw [hhistory] at hcovers
    have hoptimizes : root.OptimizesConsistent _ sig before := Node.optimizesConsistent hbuilt.clean
    exact (hoptimizes (hbuilt.consistent hsig) (List.suffix_refl _) hcovers m hm).validate
  constructor
  · intro hnone
    refine hrules .unknown ?_ ?_
    · rw [hnone]
      exact .start
    · rw [hbuilt.withSignature_unknown]
      exact hvalid hstrict
  · intro root' sig hroot' hcovers hsig
    obtain rfl := Except.ok.inj (hroot.symm.trans hroot')
    exact hrules sig hcovers hsig

/-- The call is made while compiling, and its answer is of the kind of the variable. -/
theorem validate_compile_max :
    ∃ e, (compile ⟨{ Settings.standard with strict := true }, .builtins⟩ "x + max(1, 2)"
        (.store (.ofList [("x", .integer 5)])) []).result = .ok e ∧ e.validate = .ok () := by
  have hcompile : (compile ⟨{ Settings.standard with strict := true }, .builtins⟩ "x + max(1, 2)"
      (.store (.ofList [("x", .integer 5)])) []).result.isOk = true := by cbv
  have hhistory : (compile ⟨{ Settings.standard with strict := true }, .builtins⟩ "x + max(1, 2)"
      (.store (.ofList [("x", .integer 5)])) []).history =
        [⟨2, true, [.integer 1, .integer 2]⟩] := by cbv
  have hbuild : (build ⟨{ Settings.standard with strict := true }, .builtins⟩ "x + max(1, 2)"
      (.store (.ofList [("x", .integer 5)]))).map
        (fun n => (n.withSignature fun _ _ => some .integer).validate) = .ok (.ok ()) := by cbv
  obtain ⟨e, he⟩ := Except.isOk_iff.1 hcompile
  obtain ⟨root, hroot, hvalid⟩ := Except.map_eq_ok.1 hbuild
  refine ⟨e, he, (validate_compile rfl he).2 root _ hroot ?_ hvalid⟩
  rw [hhistory]
  refine .call .start fun name f hf v hv => ?_
  obtain ⟨-, rfl⟩ := Prod.mk.inj (Option.some.inj hf)
  have hmax : Builtin.extreme .gt [.integer 1, .integer 2] = .ok (.integer 2) := by cbv
  obtain rfl := Except.ok.inj (hmax.symm.trans hv)
  rfl

/-- The call is made while compiling, and its answer clashes with the variable. -/
theorem validate_compile_clash :
    ∃ e, (compile ⟨{ Settings.standard with strict := true }, .builtins⟩ "x + max(1, 2)"
        (.store (.ofList [("x", .string "a")])) []).result = .ok e ∧
      e.validate = .error (.kind (.notNumericPair .string .integer)) := by
  have hclash : (compile ⟨{ Settings.standard with strict := true }, .builtins⟩ "x + max(1, 2)"
      (.store (.ofList [("x", .string "a")])) []).result.map Expression.validate =
        .ok (.error (.kind (.notNumericPair .string .integer))) := by cbv
  exact Except.map_eq_ok.1 hclash

end Compiler

end Formula

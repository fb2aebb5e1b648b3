import Formula.Proofs.Reduced
import Formula.Proofs.Sessions

/-!
# Optimizing again

A second pass of optimizing finds the same tree again where each connective in it is undecided, and
only there (`Compiler.optimize_again_iff`). Everywhere else one pass goes all the way : operators,
calls and statements are dealt with after their operands, and what is left of a tree is reduced
(`Node.shrinks_optimize`).

A connective looks at its operands before they are optimized, and does not look again. So an operand
that only optimizing has fixed is left in place, whatever it is fixed to, and the second pass takes
it away, or fails there (`Compiler.optimize_again_ne_of_decided`).
-/

namespace Formula

/-- A reduction that goes on comes to a tree if both parts of it do. -/
theorem Reduction.andThen_eq_ok {r : Reduction} {f : Node → Env → Reduction} {m : Node} :
    (r.andThen f).result = .ok m ↔ ∃ n, r.result = .ok n ∧ (f n r.env).result = .ok m := by
  unfold Reduction.andThen
  cases r.result with
  | error e => simp
  | ok n => simp

namespace Node

variable {ctx : BuildContext} {op : Connective} {n m l r a other : Node} {env : Env}

/-! ## Undecided connectives -/

/-- The operand has to stay beside the other one. If it is fixed to a truth value, it is the literal
that leaves the result to the other, and that one is not known to be a truth value. -/
def Stays (ctx : BuildContext) (op : Connective) (a other : Node) : Prop :=
  ∀ b, a.FixedTo ctx (.ok (.boolean b)) →
    a = literal (.boolean op.identity) ∧ other.kind? ≠ some .boolean

/-- The operands do not fix the result, and neither leaves it to the other. -/
structure Undecided (ctx : BuildContext) (op : Connective) (l r : Node) : Prop where
  notBoth : ¬ (l.isPrecomputable && r.isPrecomputable) = true
  left : Stays ctx op l r
  right : Stays ctx op r l

theorem Undecided.right_open (h : Undecided ctx op l r) (hl : l.isPrecomputable = true) :
    r.isPrecomputable = false := by
  simpa [hl] using h.notBoth

theorem Undecided.left_open (h : Undecided ctx op l r) (hr : r.isPrecomputable = true) :
    l.isPrecomputable = false := by
  simpa [hr] using h.notBoth

/-- Every connective to which optimizing comes is undecided. It does not come into a fixed operand
of another one. -/
inductive Settled (ctx : BuildContext) : Node → Prop
  | literal (v : Value) : Settled ctx (literal v)
  | read (name : String) (c : Bool) (s : Slot) : Settled ctx (read name c s)
  | logic {op : Connective} {l r : Node} {s : Slot} (hundecided : Undecided ctx op l r)
      (hl : l.isPrecomputable = false → Settled ctx l)
      (hr : r.isPrecomputable = false → Settled ctx r) : Settled ctx (logic op l r s)
  | not {a : Node} {s : Slot} (ha : Settled ctx a) : Settled ctx (not a s)
  | sign {g : Sign} {a : Node} {s : Slot} (ha : Settled ctx a) : Settled ctx (sign g a s)
  | arith {op : ArithOp} {l r : Node} {s : Slot} (hl : Settled ctx l) (hr : Settled ctx r) :
      Settled ctx (arith op l r s)
  | compare {op : CompareOp} {l r : Node} {s : Slot} (hl : Settled ctx l) (hr : Settled ctx r) :
      Settled ctx (compare op l r s)
  | assign {op : AssignOp} {name : String} {target : Option Kind} {a : Node} {s : Slot}
      (ha : Settled ctx a) : Settled ctx (assign op name target a s)
  | call {name : String} {f : Overload} {args : List Node} {b : Buffer} {s : Slot}
      (hargs : ∀ a ∈ args, Settled ctx a) : Settled ctx (call name f args b s)
  | sequence {a b : Node} {s : Slot} (ha : Settled ctx a) (hb : Settled ctx b) :
      Settled ctx (sequence a b s)

theorem FixedTo.eq_of_literal {v : Value} {res : Except Fault Value}
    (h : (literal v).FixedTo ctx res) : res = .ok v := by
  obtain ⟨env, -, hres⟩ := h.ran
  rw [answer_literal] at hres
  exact hres.symm

theorem Stays.eq_identity {b : Bool} (h : Stays ctx op a other)
    (hb : a.FixedTo ctx (.ok (.boolean b))) : b = op.identity := by
  obtain ⟨rfl, -⟩ := h b hb
  exact Value.boolean.inj (Except.ok.inj hb.eq_of_literal)

/-- An operand that is not fixed stays. -/
theorem Stays.of_open (ha : a.isPrecomputable = false) : Stays ctx op a other :=
  fun _ h => absurd h.fixed (by simp [ha])

/-- What a look at an operand leaves. It has told the truth value to which the operand is fixed, or
that there is none. -/
structure Seen (ctx : BuildContext) (n : Node) (p : Probe) : Prop where
  known : ∀ b, p.known = some b ↔ n.FixedTo ctx (.ok (.boolean b))
  env : ctx.ConstantValues p.env.scope
  term : p.node.term = n.term

theorem seen_probe (hpure : ctx.registry.PureAnswers) (hclean : n.term.Forall (Term.Clean ctx))
    (henv : ctx.ConstantValues env.scope) : Seen ctx n (n.probe env) := by
  unfold probe
  cases hpre : n.isPrecomputable with
  | false =>
    refine ⟨fun b => ⟨by simp, fun h => absurd h.fixed (by simp [hpre])⟩, henv, rfl⟩
  | true =>
    have hrun := keeps_execute BuildContext.compiling_values hclean hpre henv
    have hresult : ∀ b, n.FixedTo ctx (.ok (.boolean b)) → (n.execute env).result =
        .ok (.boolean b) := fun b h => h.result hpure henv
    simp only [if_pos]
    split
    · rename_i c hres
      refine ⟨fun b => ⟨fun h => ?_, fun h => ?_⟩, hrun, term_execute⟩
      · obtain rfl := Option.some.inj h
        exact ⟨hclean, hpre, env, henv, hres⟩
      · rw [hresult b h] at hres
        exact congrArg some (Value.boolean.inj (Except.ok.inj hres)).symm
    · rename_i hres
      exact ⟨fun b => ⟨by simp, fun h => absurd (hresult b h) (hres b)⟩, hrun, term_execute⟩

theorem constantValues_optimize (hclean : n.term.Forall (Term.Clean ctx))
    (henv : ctx.ConstantValues env.scope) : ctx.ConstantValues (n.optimize env).env.scope :=
  (optimize_meets Term.Clean.isLocal (fun _ ht hfixed => BuildContext.compiling_values.keeps _ ht
    hfixed) hclean henv).env

/-! ## Settled trees come again -/

/-- The second tree is the first one again, up to what the nodes inside keep. -/
structure Repeats (n m : Node) : Prop where
  term : m.term = n.term
  kind : m.kind? = n.kind?

/-- A reduction comes to the tree again, and does not fail. -/
abbrev Again (ctx : BuildContext) (n : Node) (r : Reduction) : Prop :=
  r.Ends (fun env => ctx.ConstantValues env.scope) n.Repeats False

namespace Repeats

variable {l' r' a' b b' : Node} {s : Slot}

/-- Whatever is known of the kinds of its operands, a connective is a truth value. -/
theorem logic (hl : l'.term = l.term) (hr : r'.term = r.term) :
    (logic op l r s).Repeats (.logic op l' r' s) :=
  ⟨by rw [Node.term, Node.term, hl, hr], rfl⟩

theorem not (h : a.Repeats a') : (not a s).Repeats (.not a' s) :=
  ⟨by rw [Node.term, Node.term, h.term], rfl⟩

theorem sign {g : Sign} (h : a.Repeats a') : (sign g a s).Repeats (.sign g a' s) :=
  ⟨by rw [Node.term, Node.term, h.term], rfl⟩

theorem arith {op : ArithOp} (hl : l.Repeats l') (hr : r.Repeats r') :
    (arith op l r s).Repeats (.arith op l' r' s) :=
  ⟨by rw [Node.term, Node.term, hl.term, hr.term], rfl⟩

theorem compare {op : CompareOp} (hl : l.Repeats l') (hr : r.Repeats r') :
    (compare op l r s).Repeats (.compare op l' r' s) :=
  ⟨by rw [Node.term, Node.term, hl.term, hr.term], rfl⟩

theorem assign {op : AssignOp} {name : String} {target : Option Kind} (h : a.Repeats a') :
    (assign op name target a s).Repeats (.assign op name target a' s) :=
  ⟨by rw [Node.term, Node.term, h.term], rfl⟩

theorem sequence (ha : a.Repeats a') (hb : b.Repeats b') :
    (sequence a b s).Repeats (.sequence a' b' s) :=
  ⟨by rw [Node.term, Node.term, ha.term, hb.term], rfl⟩

theorem call {name : String} {f : Overload} {args args' : List Node} {buffer : Buffer}
    (h : List.Forall₂ Repeats args args') :
    (call name f args buffer s).Repeats (.call name f args' buffer s) := by
  have hterms : terms args' = terms args := by
    rw [terms_eq_map, terms_eq_map, ← List.forall₂_eq_eq_eq, List.forall₂_map_left_iff,
      List.forall₂_map_right_iff]
    exact h.flip.imp fun _ _ h => h.term
  exact ⟨by rw [Node.term, Node.term, hterms], rfl⟩

/-- A tree whose value is not fixed is not folded. -/
theorem fold (h : n.Repeats m) (hn : n.isPrecomputable = false)
    (henv : ctx.ConstantValues env.scope) : Again ctx n (m.fold env) := by
  rw [fold_of_not_isPrecomputable ((isPrecomputable_congr h.term).trans hn)]
  exact .ok henv h

end Repeats

theorem repeats_logic (hpure : ctx.registry.PureAnswers) {s : Slot}
    (hundecided : Undecided ctx op l r) (hl : l.term.Forall (Term.Clean ctx))
    (hr : r.term.Forall (Term.Clean ctx))
    (ihl : l.isPrecomputable = false → ∀ {env : Env}, ctx.ConstantValues env.scope →
      Again ctx l (l.optimize env))
    (ihr : r.isPrecomputable = false → ∀ {env : Env}, ctx.ConstantValues env.scope →
      Again ctx r (r.optimize env))
    (henv : ctx.ConstantValues env.scope) :
    Again ctx (logic op l r s) ((logic op l r s).optimize env) := by
  have hp := seen_probe hpure hl henv
  have hq := seen_probe hpure hr hp.env
  rw [optimize]
  generalize l.probe env = p at *
  generalize r.probe p.env = q at *
  -- what is known of an operand leaves the result to the other one, which is not fixed
  have hpid : ∀ b, p.known = some b → b = op.identity :=
    fun b hb => hundecided.left.eq_identity ((hp.known b).1 hb)
  have hqid : ∀ b, q.known = some b → b = op.identity :=
    fun b hb => hundecided.right.eq_identity ((hq.known b).1 hb)
  have hdecided : ¬ (p.known = some op.absorbing ∨ q.known = some op.absorbing) := by
    rintro (hb | hb)
    · exact op.identity_ne_absorbing (hpid _ hb).symm
    · exact op.identity_ne_absorbing (hqid _ hb).symm
  have hboth : ¬ (p.known.isSome && q.known.isSome) = true := by
    rw [Bool.and_eq_true, Option.isSome_iff_exists, Option.isSome_iff_exists]
    rintro ⟨⟨b, hb⟩, c, hc⟩
    have hopen := hundecided.right_open ((hp.known b).1 hb).fixed
    exact absurd ((hq.known c).1 hc).fixed (by simp [hopen])
  rw [if_neg hdecided, if_neg hboth, if_neg hundecided.notBoth]
  split
  · rename_i hsome
    obtain ⟨b, hb⟩ := Option.isSome_iff_exists.1 hsome
    obtain ⟨rfl, hkind⟩ := hundecided.left b ((hp.known b).1 hb)
    refine (ihr (hundecided.right_open rfl) hq.env).andThen id fun r' env henv hr' => .ok henv ?_
    rw [dropIdentity, hr'.kind, if_neg hkind, if_pos rfl]
    exact .logic rfl hr'.term
  split
  · rename_i hsome
    obtain ⟨b, hb⟩ := Option.isSome_iff_exists.1 hsome
    obtain ⟨rfl, hkind⟩ := hundecided.right b ((hq.known b).1 hb)
    refine (ihl (hundecided.left_open rfl) hq.env).andThen id fun l' env henv hl' => .ok henv ?_
    rw [dropIdentity, hl'.kind, if_neg hkind, if_neg Bool.false_ne_true]
    exact .logic hl'.term rfl
  -- a fixed operand is left as a run leaves it
  refine (ends_operand (fun _ => hp.term) (fun h => ?_) hq.env).andThen id fun l' env henv hl' =>
    (ends_operand (fun _ => hq.term) (fun h => ?_) henv).andThen id fun r' env henv hr' =>
      .ok henv (.logic hl' hr')
  · exact (ihl h hq.env).imp fun _ h => h.term
  · exact (ihr h henv).imp fun _ h => h.term

/-- Optimizing a reduced tree that is settled comes to the same tree again. -/
theorem Reduced.repeats (hpure : ctx.registry.PureAnswers) (hn : n.Reduced)
    (hsettled : n.Settled ctx) (hclean : n.term.Forall (Term.Clean ctx))
    (henv : ctx.ConstantValues env.scope) : Again ctx n (n.optimize env) := by
  induction hn generalizing env with
  | literal v =>
    rw [optimize]
    exact .ok henv ⟨rfl, rfl⟩
  | read name s =>
    rw [optimize]
    exact Repeats.fold ⟨rfl, rfl⟩ rfl henv
  | logic _ _ ihl ihr =>
    cases hsettled with
    | logic hundecided hsl hsr =>
      rw [term, Term.forall_logic] at hclean
      exact repeats_logic hpure hundecided hclean.2.1 hclean.2.2
        (fun h _ henv => ihl h (hsl h) hclean.2.1 henv)
        (fun h _ henv => ihr h (hsr h) hclean.2.2 henv) henv
  | not _ hpre ih =>
    cases hsettled with
    | not hs =>
      rw [term, Term.forall_not] at hclean
      rw [optimize]
      exact (ih hs hclean.2 henv).andThen id fun a' env henv ha' =>
        Repeats.fold (.not ha') hpre henv
  | sign _ hpre hplain ih =>
    cases hsettled with
    | sign hs =>
      rw [term, Term.forall_sign] at hclean
      rw [optimize]
      refine (ih hs hclean.2 henv).andThen id fun a' env henv ha' => ?_
      have hpre' : ¬ a'.isPrecomputable = true := by simp [isPrecomputable_congr ha'.term, hpre]
      rw [isNumeric, ← ha'.kind, ← isNumeric] at hplain
      rw [if_neg hpre', if_neg hplain]
      exact .ok henv (.sign ha')
  | arith _ _ hpre ihl ihr =>
    cases hsettled with
    | arith hsl hsr =>
      rw [term, Term.forall_arith] at hclean
      rw [optimize]
      exact (ihl hsl hclean.2.1 henv).andThen id fun l' env henv hl' =>
        (ihr hsr hclean.2.2 henv).andThen id fun r' env henv hr' =>
          Repeats.fold (.arith hl' hr') hpre henv
  | compare _ _ hpre ihl ihr =>
    cases hsettled with
    | compare hsl hsr =>
      rw [term, Term.forall_compare] at hclean
      rw [optimize]
      exact (ihl hsl hclean.2.1 henv).andThen id fun l' env henv hl' =>
        (ihr hsr hclean.2.2 henv).andThen id fun r' env henv hr' =>
          Repeats.fold (.compare hl' hr') hpre henv
  | assign _ ih =>
    cases hsettled with
    | assign hs =>
      rw [term, Term.forall_assign] at hclean
      rw [optimize]
      exact (ih hs hclean.2 henv).andThen id fun a' env henv ha' => .ok henv (.assign ha')
  | @call name f args b s _ hpre ih =>
    cases hsettled with
    | call hs =>
      rw [term, terms_eq_map, Term.forall_call, List.forall_mem_map] at hclean
      obtain ⟨henv', hok, herror⟩ := ends_optimizeAll (E := fun _ => False)
        (fun a ha _ henv => ih a ha (hs a ha) (hclean.2 a ha) henv) henv
      rw [optimize]
      cases hres : (optimizeAll args env).result with
      | error e =>
        obtain ⟨_, _, hfalse⟩ := herror e hres
        exact hfalse.elim
      | ok ms => exact Repeats.fold (.call (hok ms hres)) hpre henv'
  | sequence _ _ hpre iha ihb =>
    cases hsettled with
    | sequence hsa hsb =>
      rw [term, Term.forall_sequence] at hclean
      rw [optimize]
      refine (iha hsa hclean.2.1 henv).andThen id fun a' env henv ha' =>
        (ihb hsb hclean.2.2 henv).andThen id fun b' env henv hb' => .ok henv ?_
      rw [if_neg (by simp [isPrecomputable_congr ha'.term, hpre])]
      exact .sequence ha' hb'

/-! ## Trees that come again are settled -/

theorem eq_literal_of_term {v : Value} (h : n.term = .literal v) : n = literal v := by
  cases n with
  | literal w => exact congrArg literal (Term.literal.inj h)
  | _ => cases h

/-- A tree is not what optimizing makes of a smaller one. -/
theorem term_ne_of_size_lt (hm : (a.optimize env).result = .ok m) (ha : a.size < n.size) :
    m.term ≠ n.term := by
  intro hterm
  have hle : m.size ≤ a.size := ((shrinks_optimize a).node m hm).2
  have hsize : m.size = n.size := size_congr hterm
  omega

/-- Folding leaves a tree alone or makes a literal of it. -/
theorem eq_of_fold (hm : (n.fold env).result = .ok m) : m = n ∨ ∃ v, m = literal v := by
  cases hpre : n.isPrecomputable with
  | false =>
    rw [fold_of_not_isPrecomputable hpre] at hm
    exact .inl (Except.ok.inj hm).symm
  | true =>
    rw [fold_of_isPrecomputable hpre] at hm
    obtain ⟨v, -, rfl⟩ := Except.map_eq_ok.1 hm
    exact .inr ⟨v, rfl⟩

theorem settled_all {ns ms : List Node}
    (h : List.Forall₂ (fun n m => m.term = n.term → n.Settled ctx) ns ms)
    (hterms : terms ms = terms ns) : ∀ n ∈ ns, n.Settled ctx := by
  induction h with
  | nil => simp
  | cons hn _ ih =>
    rw [terms, terms, List.cons.injEq] at hterms
    exact List.forall_mem_cons.2 ⟨hn hterms.1, ih hterms.2⟩

/-- Where the operand does not take the place of the connective, no truth value is known of it, and
the other operand is the literal that leaves the result to it. -/
theorem term_of_dropIdentity {onRight : Bool} {s : Slot}
    (h : (dropIdentity op onRight s m).term = n.term) (hne : m.term ≠ n.term) :
    m.kind? ≠ some .boolean ∧ n.term =
      if onRight then .logic op (.literal (.boolean op.identity)) m.term
      else .logic op m.term (.literal (.boolean op.identity)) := by
  unfold dropIdentity at h
  split at h
  · exact absurd h hne
  · rename_i hkind
    cases onRight with
    | true => exact ⟨hkind, h.symm⟩
    | false => exact ⟨hkind, h.symm⟩

theorem settled_logic (hpure : ctx.registry.PureAnswers) {s : Slot}
    (hl : l.term.Forall (Term.Clean ctx)) (hr : r.term.Forall (Term.Clean ctx))
    (ihl : ∀ {env m}, ctx.ConstantValues env.scope → (l.optimize env).result = .ok m →
      m.term = l.term → l.Settled ctx ∧ m.kind? = l.kind?)
    (ihr : ∀ {env m}, ctx.ConstantValues env.scope → (r.optimize env).result = .ok m →
      m.term = r.term → r.Settled ctx ∧ m.kind? = r.kind?)
    (henv : ctx.ConstantValues env.scope) (hm : ((logic op l r s).optimize env).result = .ok m)
    (hterm : m.term = (logic op l r s).term) : (logic op l r s).Settled ctx := by
  have hp := seen_probe hpure hl henv
  have hq := seen_probe hpure hr hp.env
  rw [optimize] at hm
  generalize l.probe env = p at *
  generalize r.probe p.env = q at *
  split at hm
  · obtain rfl := Except.ok.inj hm
    cases hterm
  split at hm
  · obtain rfl := Except.ok.inj hm
    cases hterm
  split at hm
  · rename_i hboth
    have hpre : (logic op p.node q.node s).isPrecomputable = true := by
      rwa [isPrecomputable, isPrecomputable_congr hp.term, isPrecomputable_congr hq.term]
    rw [fold_of_isPrecomputable hpre] at hm
    obtain ⟨v, -, rfl⟩ := Except.map_eq_ok.1 hm
    cases hterm
  rename_i hboth
  split at hm
  · obtain ⟨r', hr', hm⟩ := Reduction.andThen_eq_ok.1 hm
    obtain rfl := Except.ok.inj hm
    obtain ⟨hkind, hlogic⟩ :=
      term_of_dropIdentity hterm (term_ne_of_size_lt hr' (by rw [size_logic]; omega))
    obtain ⟨-, hlterm, hrterm⟩ := Term.logic.inj hlogic
    obtain rfl := eq_literal_of_term hlterm
    obtain ⟨hsettled, hsame⟩ := ihr hq.env hr' hrterm.symm
    have hrpre : r.isPrecomputable = false := by simpa [isPrecomputable] using hboth
    exact .logic ⟨hboth, fun _ _ => ⟨rfl, hsame ▸ hkind⟩, .of_open hrpre⟩
      (fun _ => .literal _) (fun _ => hsettled)
  split at hm
  · obtain ⟨l', hl', hm⟩ := Reduction.andThen_eq_ok.1 hm
    obtain rfl := Except.ok.inj hm
    obtain ⟨hkind, hlogic⟩ :=
      term_of_dropIdentity hterm (term_ne_of_size_lt hl' (by rw [size_logic]; omega))
    obtain ⟨-, hlterm, hrterm⟩ := Term.logic.inj hlogic
    obtain rfl := eq_literal_of_term hrterm
    obtain ⟨hsettled, hsame⟩ := ihl hq.env hl' hlterm.symm
    have hlpre : l.isPrecomputable = false := by simpa [isPrecomputable] using hboth
    exact .logic ⟨hboth, .of_open hlpre, fun _ _ => ⟨rfl, hsame ▸ hkind⟩⟩
      (fun _ => hsettled) (fun _ => .literal _)
  -- nothing is known of the operands, and each that is not fixed has been optimized
  rename_i hpnone hqnone
  obtain ⟨l', hl', hm⟩ := Reduction.andThen_eq_ok.1 hm
  obtain ⟨r', hr', hm⟩ := Reduction.andThen_eq_ok.1 hm
  obtain rfl := Except.ok.inj hm
  obtain ⟨-, hlterm, hrterm⟩ := Term.logic.inj hterm
  have hleft : Stays ctx op l r := fun b hb => by simp [(hp.known b).2 hb] at hpnone
  have hright : Stays ctx op r l := fun b hb => by simp [(hq.known b).2 hb] at hqnone
  refine .logic ⟨hboth, hleft, hright⟩ (fun h => ?_) (fun h => ?_)
  · rw [if_neg (by simp [h])] at hl'
    exact (ihl hq.env hl' hlterm).1
  · rw [if_neg (by simp [h])] at hr'
    refine (ihr ?_ hr' hrterm).1
    split
    · exact hq.env
    · exact constantValues_optimize hl hq.env

/-- Where optimizing a tree comes to the same tree again, the tree is settled, and the same kind is
known of it. -/
theorem settled_of_term_eq (hpure : ctx.registry.PureAnswers)
    (hclean : n.term.Forall (Term.Clean ctx)) (henv : ctx.ConstantValues env.scope)
    (hm : (n.optimize env).result = .ok m) (hterm : m.term = n.term) :
    n.Settled ctx ∧ m.kind? = n.kind? := by
  induction n generalizing env m with
  | literal v =>
    obtain rfl := Except.ok.inj hm
    exact ⟨.literal v, rfl⟩
  | read name c s =>
    rcases eq_of_fold hm with rfl | ⟨v, rfl⟩
    · exact ⟨.read name c s, rfl⟩
    · cases hterm
  | logic op l r s ihl ihr =>
    rw [term, Term.forall_logic] at hclean
    refine ⟨settled_logic hpure hclean.2.1 hclean.2.2 (ihl hclean.2.1) (ihr hclean.2.2) henv hm
      hterm, ?_⟩
    cases m with
    | logic => rfl
    | _ => cases hterm
  | not a s ih =>
    rw [term, Term.forall_not] at hclean
    obtain ⟨a', ha', hm⟩ := Reduction.andThen_eq_ok.1 hm
    rcases eq_of_fold hm with rfl | ⟨v, rfl⟩
    · exact ⟨.not (ih hclean.2 henv ha' (Term.not.inj hterm)).1, rfl⟩
    · cases hterm
  | sign g a s ih =>
    rw [term, Term.forall_sign] at hclean
    obtain ⟨a', ha', hm⟩ := Reduction.andThen_eq_ok.1 hm
    have hsettled : a'.term = a.term → (sign g a s).Settled ctx :=
      fun haterm => .sign (ih hclean.2 henv ha' haterm).1
    split at hm
    · rcases eq_of_fold hm with rfl | ⟨v, rfl⟩
      · exact ⟨hsettled (Term.sign.inj hterm).2, rfl⟩
      · cases hterm
    split at hm
    · obtain rfl := Except.ok.inj hm
      exact absurd hterm (term_ne_of_size_lt ha' (by rw [size_sign]; omega))
    · obtain rfl := Except.ok.inj hm
      exact ⟨hsettled (Term.sign.inj hterm).2, rfl⟩
  | arith op l r s ihl ihr =>
    rw [term, Term.forall_arith] at hclean
    obtain ⟨l', hl', hm⟩ := Reduction.andThen_eq_ok.1 hm
    obtain ⟨r', hr', hm⟩ := Reduction.andThen_eq_ok.1 hm
    have henv' := constantValues_optimize hclean.2.1 henv
    rcases eq_of_fold hm with rfl | ⟨v, rfl⟩
    · obtain ⟨-, hlterm, hrterm⟩ := Term.arith.inj hterm
      exact ⟨.arith (ihl hclean.2.1 henv hl' hlterm).1 (ihr hclean.2.2 henv' hr' hrterm).1, rfl⟩
    · cases hterm
  | compare op l r s ihl ihr =>
    rw [term, Term.forall_compare] at hclean
    obtain ⟨l', hl', hm⟩ := Reduction.andThen_eq_ok.1 hm
    obtain ⟨r', hr', hm⟩ := Reduction.andThen_eq_ok.1 hm
    have henv' := constantValues_optimize hclean.2.1 henv
    rcases eq_of_fold hm with rfl | ⟨v, rfl⟩
    · obtain ⟨-, hlterm, hrterm⟩ := Term.compare.inj hterm
      exact ⟨.compare (ihl hclean.2.1 henv hl' hlterm).1 (ihr hclean.2.2 henv' hr' hrterm).1, rfl⟩
    · cases hterm
  | assign op name target a s ih =>
    rw [term, Term.forall_assign] at hclean
    obtain ⟨a', ha', hm⟩ := Reduction.andThen_eq_ok.1 hm
    obtain rfl := Except.ok.inj hm
    obtain ⟨-, -, haterm⟩ := Term.assign.inj hterm
    exact ⟨.assign (ih hclean.2 henv ha' haterm).1, rfl⟩
  | call name f args b s ih =>
    rw [term, terms_eq_map, Term.forall_call, List.forall_mem_map] at hclean
    have hends : ∀ a ∈ args, ∀ {env : Env}, ctx.ConstantValues env.scope →
        (a.optimize env).Ends (fun env => ctx.ConstantValues env.scope)
          (fun m => m.term = a.term → a.Settled ctx) True :=
      fun a ha env henv => ⟨⟨constantValues_optimize (hclean.2 a ha) henv,
        fun _ hm hterm => (ih a ha (hclean.2 a ha) henv hm hterm).1⟩, fun _ _ => trivial⟩
    obtain ⟨-, hok, -⟩ := ends_optimizeAll hends henv
    rw [optimize] at hm
    cases hres : (optimizeAll args env).result with
    | error e =>
      rw [hres] at hm
      cases hm
    | ok ms =>
      rw [hres] at hm
      rcases eq_of_fold hm with rfl | ⟨v, rfl⟩
      · obtain ⟨-, -, hterms⟩ := Term.call.inj hterm
        exact ⟨.call (settled_all (hok ms hres) hterms), rfl⟩
      · cases hterm
  | sequence a b s iha ihb =>
    rw [term, Term.forall_sequence] at hclean
    obtain ⟨a', ha', hm⟩ := Reduction.andThen_eq_ok.1 hm
    obtain ⟨b', hb', hm⟩ := Reduction.andThen_eq_ok.1 hm
    obtain rfl := Except.ok.inj hm
    have henv' := constantValues_optimize hclean.2.1 henv
    split at hterm
    · exact absurd hterm (term_ne_of_size_lt hb' (by rw [size_sequence]; omega))
    · obtain ⟨haterm, hbterm⟩ := Term.sequence.inj hterm
      rename_i hpre
      rw [if_neg hpre]
      exact ⟨.sequence (iha hclean.2.1 henv ha' haterm).1 (ihb hclean.2.2 henv' hb' hbterm).1, rfl⟩

end Node

namespace Compiler

variable {c : Compiler} {source : String} {scope : Scope}

/-- Optimizing is idempotent where every connective that it leaves is undecided, and only there.
What optimizing makes of the tree of a text is optimized again in the same scope, whatever was
called before. It comes to a tree with the same operators, names and literals in the same places
if, and only if, neither operand of any `&&` and `||` fixes the result or leaves it to the other. -/
theorem optimize_again_iff {before history : History} {t u : Node}
    (hpure : c.registry.PureAnswers) (ht : c.build source scope = .ok t)
    (hu : (t.optimize ⟨scope.toSealed, before⟩).result = .ok u) :
    (∃ w, (u.optimize ⟨scope.toSealed, history⟩).result = .ok w ∧ w.term = u.term) ↔
      u.Settled ⟨c.settings, c.registry, scope⟩ := by
  obtain ⟨es, -, hbuilt, -⟩ := build_built ht
  have hclean := Node.forall_optimize Term.Clean.isLocal hbuilt.clean hu
  have hreduced : u.Reduced := ((Node.shrinks_optimize t).node u hu).1
  have hstart : BuildContext.ConstantValues ⟨c.settings, c.registry, scope⟩ scope.toSealed :=
    fun _ _ _ hv => hv
  constructor
  · rintro ⟨w, hw, hterm⟩
    exact (Node.settled_of_term_eq hpure hclean hstart hw hterm).1
  · intro hsettled
    have hagain : u.Again ⟨c.settings, c.registry, scope⟩ (u.optimize ⟨scope.toSealed, history⟩) :=
      hreduced.repeats hpure hsettled hclean hstart
    cases hres : (u.optimize ⟨scope.toSealed, history⟩).result with
    | error e => exact (hagain.fault e hres).elim
    | ok w => exact ⟨w, rfl, (hagain.node w hres).term⟩

/-- A product is folded, and `true` stays in front of a variable of which no kind is known. -/
theorem optimize_again_iff_identity :
    ∃ t u, standard.build "y = 2 * 3; true && x" .empty = .ok t ∧
      (t.optimize ⟨Scope.empty.toSealed, []⟩).result = .ok u ∧
      u.render = "(; (= y 6) (&& true x))" ∧
      ∃ w, (u.optimize ⟨Scope.empty.toSealed, []⟩).result = .ok w ∧ w.term = u.term := by
  have hu : ((standard.build "y = 2 * 3; true && x" .empty).bind fun t =>
      (t.optimize ⟨Scope.empty.toSealed, []⟩).result) =
      .ok (.sequence
        (.assign .set "y" none (.literal (.integer 6)) (.ofKind (some .integer)))
        (.logic .and (.literal (.boolean true)) (.read "x" false (.ofKind none))
          (.ofKind (some .boolean)))
        (.ofKind (some .boolean))) := by cbv
  obtain ⟨t, ht, hu⟩ := Except.bind_eq_ok.1 hu
  have hpure : Registry.builtins.PureAnswers := Registry.lawful_builtins.pure_answer
  refine ⟨t, _, ht, hu, by cbv, (optimize_again_iff hpure ht hu).2 ?_⟩
  have hundecided : Node.Undecided ⟨standard.settings, standard.registry, .empty⟩ .and
      (.literal (.boolean true)) (.read "x" false (.ofKind none)) :=
    ⟨by decide, fun _ _ => ⟨rfl, by decide⟩, .of_open rfl⟩
  exact .sequence (.assign (.literal _))
    (.logic hundecided (fun _ => .literal _) fun _ => .read "x" false _)

/-- The left operand is looked at before it is optimized, and so the `false` that it becomes stays.
The second pass finds that it decides. -/
theorem optimize_again_ne_of_decided :
    ∃ t u, standard.build "(false && y) && x" .empty = .ok t ∧
      (t.optimize ⟨Scope.empty.toSealed, []⟩).result = .ok u ∧
      u.render = "(&& false x)" ∧
      (u.optimize ⟨Scope.empty.toSealed, []⟩).result = .ok (.literal (.boolean false)) ∧
      ¬ ∃ w, (u.optimize ⟨Scope.empty.toSealed, []⟩).result = .ok w ∧ w.term = u.term := by
  have hu : ((standard.build "(false && y) && x" .empty).bind fun t =>
      (t.optimize ⟨Scope.empty.toSealed, []⟩).result) =
      .ok (.logic .and (.literal (.boolean false)) (.read "x" false (.ofKind none))
        (.ofKind (some .boolean))) := by cbv
  obtain ⟨t, ht, hu⟩ := Except.bind_eq_ok.1 hu
  refine ⟨t, _, ht, hu, by cbv, rfl, ?_⟩
  rintro ⟨w, hw, hterm⟩
  obtain rfl : .literal (.boolean false) = w := Except.ok.inj hw
  cases hterm

end Compiler

end Formula

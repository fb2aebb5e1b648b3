import Formula.Proofs.Rewriting

/-!
# Compiling again

Optimizing runs what is fixed, and nothing else. Where nothing fixed in a tree tells two
surroundings apart, it makes the same tree in both, or fails in both with the same fault
(`Node.optimize_matches_of_fixed`). What the calls of pure functions keep of the surroundings,
optimizing keeps, and it asks for nothing that the tree did not ask for
(`Node.optimize_meets`).
-/

namespace Formula

/-- A property of places that says enough of them that none can tell related surroundings
apart. -/
structure Term.Blind (R : Env → Env → Prop) (p : Term → Prop) : Prop extends Local p where
  keepsBoth : ∀ t, p t → t.KeepsBoth R

/-- A property of places that says enough of the fixed ones that none of them can tell related
surroundings apart. -/
structure Term.FixedBlind (R : Env → Env → Prop) (p : Term → Prop) : Prop extends Local p where
  keepsBoth : ∀ t, p t → t.Fixed → t.KeepsBoth R

variable {R : Env → Env → Prop} {p : Term → Prop}

theorem Term.Blind.fixedBlind (hp : Term.Blind R p) : Term.FixedBlind R p :=
  ⟨hp.toLocal, fun t ht _ => hp.keepsBoth t ht⟩

namespace Reduction

/-- The same tree, all of whose places have `p`, or the same fault. The surroundings that are
left are related. -/
structure Matches (R : Env → Env → Prop) (p : Term → Prop) (r r' : Reduction) : Prop where
  result : r'.result = r.result
  env : R r.env r'.env
  node : ∀ m, r.result = .ok m → m.term.Forall p

variable {r r' : Reduction}

theorem Matches.ok {n : Node} {env env' : Env} (h : R env env') (hn : n.term.Forall p) :
    Matches R p ⟨.ok n, env⟩ ⟨.ok n, env'⟩ :=
  ⟨rfl, h, fun _ hm => Except.ok.inj hm ▸ hn⟩

theorem Matches.andThen {f : Node → Env → Reduction} (h : r.Matches R p r')
    (hf : ∀ n env env', R env env' → n.term.Forall p → (f n env).Matches R p (f n env')) :
    (r.andThen f).Matches R p (r'.andThen f) := by
  unfold Reduction.andThen
  rw [h.result]
  cases hr : r.result with
  | error e => exact ⟨rfl, h.env, by simp⟩
  | ok n => exact hf n _ _ h.env (h.node n hr)

end Reduction

namespace Node

variable {n l r : Node} {env env' : Env}

theorem execute_fixed_matches (hp : Term.FixedBlind R p) (hn : n.term.Forall p)
    (hpre : n.isPrecomputable = true) (h : R env env') :
    (n.execute env).Matches R (n.execute env') :=
  execute_matches (fun t ht => hp.keepsBoth t (hn t ht) (isPrecomputable_iff.1 hpre t ht)) h

theorem fold_matches (hp : Term.FixedBlind R p) (hn : n.term.Forall p) (h : R env env') :
    (n.fold env).Matches R p (n.fold env') := by
  unfold fold
  split
  · rename_i hcase
    have hpre : n.isPrecomputable = true := ((Bool.and_eq_true _ _).mp hcase).1
    have hrun := execute_fixed_matches hp hn hpre h
    simp only [hrun.result]
    refine ⟨rfl, hrun.env, fun m hm => ?_⟩
    obtain ⟨v, -, rfl⟩ := Except.map_eq_ok.1 hm
    exact Term.forall_literal.2 (hp.literal ..)
  · exact .ok h hn

/-- The same truth value or none, the same tree, and surroundings that are related. -/
structure ProbesAlike (R : Env → Env → Prop) (n : Node) (p p' : Probe) : Prop where
  known : p'.known = p.known
  node : p'.node = p.node
  env : R p.env p'.env
  term : p.node.term = n.term

theorem probe_alike (hp : Term.FixedBlind R p) (hn : n.term.Forall p) (h : R env env') :
    ProbesAlike R n (n.probe env) (n.probe env') := by
  unfold probe
  split
  · rename_i hpre
    have hrun := execute_fixed_matches hp hn hpre h
    simp only [hrun.result, hrun.node]
    split
    · exact ⟨rfl, rfl, hrun.env, term_execute⟩
    · exact ⟨rfl, rfl, hrun.env, term_execute⟩
  · exact ⟨rfl, rfl, h, rfl⟩

theorem forall_dropIdentity {op : Connective} {onRight : Bool} {s : Slot}
    (hp : Term.Local p) (hn : n.term.Forall p) :
    (dropIdentity op onRight s n).term.Forall p := by
  unfold dropIdentity
  split
  · exact hn
  · cases onRight
    · exact Term.forall_logic.2 ⟨hp.logic .., hn, Term.forall_literal.2 (hp.literal ..)⟩
    · exact Term.forall_logic.2 ⟨hp.logic .., Term.forall_literal.2 (hp.literal ..), hn⟩

theorem optimize_logic_matches (hp : Term.FixedBlind R p) {op : Connective} {s : Slot}
    (ihl : ∀ {env env'}, R env env' → (l.optimize env).Matches R p (l.optimize env'))
    (ihr : ∀ {env env'}, R env env' → (r.optimize env).Matches R p (r.optimize env'))
    (hl : l.term.Forall p) (hr : r.term.Forall p) (h : R env env') :
    ((logic op l r s).optimize env).Matches R p ((logic op l r s).optimize env') := by
  -- the two looks decide alike which rule applies, and what they have run is of the same term
  have hpl := probe_alike hp hl h
  have hpr := probe_alike hp hr hpl.env
  have hl' : (l.probe env).node.term.Forall p := hpl.term ▸ hl
  have hr' : (r.probe (l.probe env).env).node.term.Forall p := hpr.term ▸ hr
  have hboth : ∀ {a b : Node}, a.term.Forall p → b.term.Forall p →
      (logic op a b s).term.Forall p :=
    fun ha hb => Term.forall_logic.2 ⟨hp.logic .., ha, hb⟩
  simp only [optimize, hpl.known, hpr.known, hpl.node, hpr.node]
  split
  · exact .ok hpr.env (Term.forall_literal.2 (hp.literal ..))
  split
  · exact .ok hpr.env (Term.forall_literal.2 (hp.literal ..))
  split
  · exact fold_matches hp (hboth hl' hr') hpr.env
  split
  · exact (ihr hpr.env).andThen fun m _ _ h hm => .ok h (forall_dropIdentity hp.toLocal hm)
  split
  · exact (ihl hpr.env).andThen fun m _ _ h hm => .ok h (forall_dropIdentity hp.toLocal hm)
  refine Reduction.Matches.andThen ?_ fun a _ _ h ha =>
    Reduction.Matches.andThen ?_ fun b _ _ h hb => .ok h (hboth ha hb)
  · split
    · exact .ok hpr.env hl'
    · exact ihl hpr.env
  · split
    · exact .ok h hr'
    · exact ihr h

theorem optimizeAll_matches {ns : List Node}
    (ih : ∀ n ∈ ns, ∀ {env env'}, R env env' → (n.optimize env).Matches R p (n.optimize env'))
    (h : R env env') :
    (optimizeAll ns env').result = (optimizeAll ns env).result ∧
      R (optimizeAll ns env).env (optimizeAll ns env').env ∧
        ∀ ms, (optimizeAll ns env).result = .ok ms → ∀ m ∈ ms, m.term.Forall p := by
  induction ns generalizing env env' with
  | nil => exact ⟨rfl, h, by simp [optimizeAll]⟩
  | cons n ns ihs =>
    rw [List.forall_mem_cons] at ih
    have hn := ih.1 h
    obtain ⟨hresult, henv, hall⟩ := ihs ih.2 hn.env
    rw [optimizeAll, optimizeAll, hn.result]
    cases hr : (n.optimize env).result with
    | error e => exact ⟨rfl, hn.env, by simp⟩
    | ok m =>
      simp only [hresult, true_and]
      refine ⟨henv, fun ms hms => ?_⟩
      obtain ⟨rest, hrest, rfl⟩ := Except.map_eq_ok.1 hms
      exact List.forall_mem_cons.2 ⟨hn.node m hr, hall rest hrest⟩

/-- The arguments of a call keep what each of them keeps. -/
theorem meets_optimizeAll {P : Env → Prop} {Q : Node → Prop} {ns : List Node}
    (ih : ∀ n ∈ ns, ∀ {env : Env}, P env → (n.optimize env).Meets P Q) (henv : P env) :
    P (optimizeAll ns env).env ∧
      ∀ ms, (optimizeAll ns env).result = .ok ms → ∀ m ∈ ms, Q m := by
  induction ns generalizing env with
  | nil =>
    rw [optimizeAll]
    exact ⟨henv, fun ms hms => by simp [← Except.ok.inj hms]⟩
  | cons n ns ihs =>
    rw [List.forall_mem_cons] at ih
    have hn := ih.1 henv
    rw [optimizeAll]
    cases hres : (n.optimize env).result with
    | error e => exact ⟨hn.env, by simp⟩
    | ok m =>
      obtain ⟨henv', hall⟩ := ihs ih.2 hn.env
      refine ⟨henv', fun ms hms => ?_⟩
      obtain ⟨rest, hrest, rfl⟩ := Except.map_eq_ok.1 hms
      exact List.forall_mem_cons.2 ⟨hn.node m hres, hall rest hrest⟩

/-- Where nothing fixed in a tree tells two surroundings apart, optimizing makes the same of it
in both. -/
theorem optimize_matches_of_fixed (hp : Term.FixedBlind R p) (hn : n.term.Forall p)
    (h : R env env') :
    (n.optimize env).Matches R p (n.optimize env') := by
  induction n generalizing env env' with
  | literal v => exact .ok h hn
  | read name c s => exact fold_matches hp hn h
  | logic op l r s ihl ihr =>
    rw [term, Term.forall_logic] at hn
    exact optimize_logic_matches hp (ihl hn.2.1) (ihr hn.2.2) hn.2.1 hn.2.2 h
  | not a s ih =>
    rw [term, Term.forall_not] at hn
    exact (ih hn.2 h).andThen fun m _ _ h hm =>
      fold_matches hp (Term.forall_not.2 ⟨hp.not .., hm⟩) h
  | sign g a s ih =>
    rw [term, Term.forall_sign] at hn
    refine (ih hn.2 h).andThen fun m _ _ h hm => ?_
    have hsign : (sign g m s).term.Forall p := Term.forall_sign.2 ⟨hp.sign .., hm⟩
    split
    · exact fold_matches hp hsign h
    split
    · exact .ok h hm
    · exact .ok h hsign
  | arith op l r s ihl ihr =>
    rw [term, Term.forall_arith] at hn
    exact (ihl hn.2.1 h).andThen fun a _ _ h ha => (ihr hn.2.2 h).andThen fun b _ _ h hb =>
      fold_matches hp (Term.forall_arith.2 ⟨hp.arith .., ha, hb⟩) h
  | compare op l r s ihl ihr =>
    rw [term, Term.forall_compare] at hn
    exact (ihl hn.2.1 h).andThen fun a _ _ h ha => (ihr hn.2.2 h).andThen fun b _ _ h hb =>
      fold_matches hp (Term.forall_compare.2 ⟨hp.compare .., ha, hb⟩) h
  | assign op name target v s ih =>
    rw [term, Term.forall_assign] at hn
    exact (ih hn.2 h).andThen fun m _ _ h hm =>
      .ok h (Term.forall_assign.2 ⟨hp.assign _ _ _ _ hn.1, hm⟩)
  | call name f args b s ih =>
    rw [term, terms_eq_map, Term.forall_call, List.forall_mem_map] at hn
    obtain ⟨hresult, henv, hall⟩ := optimizeAll_matches (fun a ha => ih a ha (hn.2 a ha)) h
    rw [optimize, optimize, hresult]
    cases hr : (optimizeAll args env).result with
    | error e => exact ⟨rfl, henv, by simp⟩
    | ok ms =>
      refine fold_matches hp ?_ henv
      rw [term, terms_eq_map, Term.forall_call, List.forall_mem_map]
      exact ⟨hp.call _ _ _ _ hn.1, hall ms hr⟩
  | sequence a b s iha ihb =>
    rw [term, Term.forall_sequence] at hn
    refine (iha hn.2.1 h).andThen fun a _ _ h ha =>
      (ihb hn.2.2 h).andThen fun b _ _ h hb => .ok h ?_
    split
    · exact hb
    · exact Term.forall_sequence.2 ⟨hp.sequence .., ha, hb⟩

/-- Where nothing in a tree tells two surroundings apart, optimizing makes the same of it in
both. -/
theorem optimize_matches (hp : Term.Blind R p) (hn : n.term.Forall p) (h : R env env') :
    (n.optimize env).Matches R p (n.optimize env') :=
  optimize_matches_of_fixed hp.fixedBlind hn h

/-- What every fixed place keeps of the surroundings, optimizing keeps, and what is asked of
each place of the tree holds of those of the optimized one. -/
theorem optimize_meets {P : Env → Prop} (hp : Term.Local p)
    (hkeeps : ∀ t, p t → t.Fixed → t.Keeps P) (hn : n.term.Forall p) (henv : P env) :
    (n.optimize env).Meets P fun m => m.term.Forall p := by
  have hblind : Term.FixedBlind (Env.Within P) p := by
    refine ⟨hp, fun t ht hfixed => ?_⟩
    have hkeep := hkeeps t ht hfixed
    cases t with
    | read name c =>
      rintro _ env ⟨rfl, -⟩
      rfl
    | assign op name v => exact hfixed.elim
    | call name f args =>
      rintro _ env vs ⟨rfl, henv⟩
      exact ⟨rfl, rfl, hkeep env vs henv⟩
    | _ => trivial
  have hopt := optimize_matches_of_fixed hblind hn ⟨rfl, henv⟩
  exact ⟨hopt.env.2, hopt.node⟩

/-- What is asked of each place of a tree holds of those of the optimized one. -/
theorem forall_optimize {m : Node} (hp : Term.Local p) (hn : n.term.Forall p)
    (hm : (n.optimize env).result = .ok m) : m.term.Forall p := by
  have hkeeps : ∀ t : Term, t.Keeps fun _ => True := fun t => by cases t <;> simp [Term.Keeps]
  exact (optimize_meets hp (fun t _ _ => hkeeps t) hn trivial).node m hm

end Node

end Formula

import Formula.Proofs.Runs
import Mathlib.Data.List.Forall2

/-!
# Runs side by side

Two runs match if they come to the same result and leave surroundings in some relation `R`
(`Answer.Matches`). A tree matches another one if their runs match wherever they start in
surroundings in `R` (`Node.Matches`). Trees whose operands match do match, form by form.

A term comes to the same in two surroundings if nothing that it reads, binds or calls tells them
apart (`Term.KeepsBoth`, `Term.eval_matches`), and a tree of such a term matches itself. What the
two runs leave of the tree is then the same, too (`Node.execute_matches`).
-/

namespace Formula

variable {R : Env → Env → Prop} {P : Env → Prop}

namespace Answer

variable {α β : Type}

/-- The same result, and surroundings that are related. -/
structure Matches (R : Env → Env → Prop) (a b : Answer α) : Prop where
  result : b.result = a.result
  env : R a.env b.env

namespace Matches

variable {a b : Answer α}

theorem pass (h : a.Matches R b) (f : α → Except Fault β) : (a.pass f).Matches R (b.pass f) :=
  ⟨result_pass_congr h.result f, h.env⟩

theorem map (h : a.Matches R b) (f : α → β) : (a.map f).Matches R (b.map f) :=
  ⟨result_map_congr h.result f, h.env⟩

theorem fitting {a b : Answer Value} (h : a.Matches R b) (s : Slot) :
    (a.fitting s).Matches R (b.fitting s) :=
  h.pass _

theorem andThen {f g : α → Env → Answer β} (h : a.Matches R b)
    (hf : ∀ v, a.result = .ok v → (f v a.env).Matches R (g v b.env)) :
    (a.andThen f).Matches R (b.andThen g) := by
  cases hr : a.result with
  | error e =>
    rw [andThen_error hr, andThen_error (h.result.trans hr)]
    exact ⟨rfl, h.env⟩
  | ok v =>
    rw [andThen_ok hr, andThen_ok (h.result.trans hr)]
    exact hf v hr

end Matches

end Answer

/-! ## What does not tell surroundings apart -/

/-- Binding a value to a name fails in both surroundings alike, or leaves related ones. -/
def Env.SetsBoth (R : Env → Env → Prop) (name : String) (v : Value) (env env' : Env) : Prop :=
  (∃ e, env.scope.set name v = .error e ∧ env'.scope.set name v = .error e) ∨
    ∃ s s', env.scope.set name v = .ok s ∧ env'.scope.set name v = .ok s' ∧
      R { env with scope := s } { env' with scope := s' }

/-- In the same scope, a value is bound by both or by none. -/
theorem Env.SetsBoth.of_scope {env env' : Env} {name : String} {v : Value}
    (hscope : env'.scope = env.scope)
    (h : ∀ s, env.scope.set name v = .ok s → R { env with scope := s } { env' with scope := s }) :
    SetsBoth R name v env env' := by
  unfold SetsBoth
  rw [hscope]
  cases hset : env.scope.set name v with
  | error e => exact .inl ⟨e, rfl, rfl⟩
  | ok s => exact .inr ⟨s, s, rfl, rfl, h s hset⟩

namespace Term

/-- What the term itself reads, binds or calls does not tell related surroundings apart, and
leaves related ones. -/
def KeepsBoth (R : Env → Env → Prop) : Term → Prop
  | read name _ => ∀ env env', R env env' → env'.scope.get? name = env.scope.get? name
  | assign _ name _ => ∀ env env', R env env' →
    env'.scope.get? name = env.scope.get? name ∧ ∀ v, Env.SetsBoth R name v env env'
  | call _ f _ => ∀ env env' args, R env env' →
    (callFunction f args env).Matches R (callFunction f args env')
  | _ => True

end Term

namespace Node

/-- What is read of a variable follows from what it is bound to. -/
theorem readVariable_congr {scope scope' : Scope} {name : String}
    (h : scope'.get? name = scope.get? name) :
    readVariable scope' name = readVariable scope name := by
  rw [readVariable, readVariable, h]

theorem assigned_congr {scope scope' : Scope} {op : AssignOp} {name : String}
    (h : scope'.get? name = scope.get? name) :
    assigned op scope' name = assigned op scope name := by
  funext v
  rw [assigned, assigned, readVariable_congr h]

/-- A slot or a fixed kind of the variable refuses a value in all surroundings. -/
theorem bindVariable_both {env env' : Env} {name : String} {v : Value}
    (h : Env.SetsBoth R name v env env') (target : Option Kind) (s : Slot) :
    (∃ e, bindVariable env.scope name target s v = .error e ∧
      bindVariable env'.scope name target s v = .error e) ∨
    ∃ t t', bindVariable env.scope name target s v = .ok t ∧
      bindVariable env'.scope name target s v = .ok t' ∧
        R { env with scope := t } { env' with scope := t' } := by
  unfold bindVariable
  cases s.check v.kind with
  | error e => exact .inl ⟨e, rfl, rfl⟩
  | ok _ =>
    cases Kind.checkTarget name target v.kind with
    | error e => exact .inl ⟨e, rfl, rfl⟩
    | ok _ => exact h

end Node

namespace Term

/-! ## Terms in two surroundings -/

/-- Binding a value matches where nothing that is bound tells the surroundings apart. -/
theorem bindValue_matches {env env' : Env} {op : AssignOp} {name : String} {t : Term}
    (hbind : (Term.assign op name t).KeepsBoth R) (h : R env env') (v : Value) :
    (bindValue op name v env).Matches R (bindValue op name v env') := by
  obtain ⟨hget, hset⟩ := hbind env env' h
  unfold bindValue
  rw [Node.assigned_congr hget]
  cases Node.assigned op env.scope name v with
  | error e => exact ⟨rfl, h⟩
  | ok w =>
    obtain ⟨e, he, he'⟩ | ⟨s, s', hs, hs', hR⟩ := hset w
    · simp only [he, he']
      exact ⟨rfl, h⟩
    · simp only [hs, hs']
      exact ⟨rfl, hR⟩

/-- Arguments match if each of them does. -/
theorem evalAll_matches {ts : List Term}
    (ih : ∀ t ∈ ts, ∀ {env env'}, R env env' → (t.eval env).Matches R (t.eval env'))
    {env env' : Env} (h : R env env') : (evalAll ts env).Matches R (evalAll ts env') := by
  induction ts generalizing env env' with
  | nil => exact ⟨rfl, h⟩
  | cons t ts ihs =>
    rw [List.forall_mem_cons] at ih
    rw [evalAll, evalAll]
    exact (ih.1 h).andThen fun v _ => (ihs ih.2 (ih.1 h).env).map _

/-- Where nothing tells the surroundings apart, a term comes to the same. -/
theorem eval_matches {t : Term} (ht : t.Forall (KeepsBoth R)) {env env' : Env} (h : R env env') :
    (t.eval env).Matches R (t.eval env') := by
  induction t generalizing env env' with
  | literal v => exact ⟨rfl, h⟩
  | read name c =>
    rw [forall_read] at ht
    rw [eval, eval, Node.readVariable_congr (ht _ _ h)]
    exact ⟨rfl, h⟩
  | logic op l r ihl ihr =>
    rw [forall_logic] at ht
    have hl := ihl ht.2.1 h
    rw [eval, eval]
    refine (hl.pass _).andThen fun b _ => ?_
    split
    · exact ⟨rfl, hl.env⟩
    · exact ((ihr ht.2.2 hl.env).pass _).map _
  | not a ih => exact ((ih (forall_not.1 ht).2 h).pass _).map _
  | sign g a ih => exact (ih (forall_sign.1 ht).2 h).pass _
  | arith op l r ihl ihr =>
    rw [forall_arith] at ht
    have hl := ihl ht.2.1 h
    rw [eval, eval]
    exact hl.andThen fun v _ => (ihr ht.2.2 hl.env).pass _
  | compare op l r ihl ihr =>
    rw [forall_compare] at ht
    have hl := ihl ht.2.1 h
    rw [eval, eval]
    exact hl.andThen fun v _ => ((ihr ht.2.2 hl.env).pass _).map _
  | assign op name v ih =>
    rw [forall_assign] at ht
    have hv := ih ht.2 h
    rw [eval, eval]
    exact hv.andThen fun w _ => bindValue_matches ht.1 hv.env w
  | call name f args ih =>
    rw [forall_call] at ht
    have hargs := evalAll_matches (fun a ha _ _ => ih a ha (ht.2 a ha)) h
    rw [eval, eval]
    exact hargs.andThen fun vs _ => ht.1 _ _ vs hargs.env
  | sequence a b iha ihb =>
    rw [forall_sequence] at ht
    have ha := iha ht.2.1 h
    rw [eval, eval]
    exact ha.andThen fun v _ => ihb ht.2.2 ha.env

end Term

namespace Node

/-! ## Trees that match -/

/-- Wherever the surroundings are related, runs of the two trees match. -/
def Matches (R : Env → Env → Prop) (n m : Node) : Prop :=
  ∀ env env', R env env' → (n.answer env).Matches R (m.answer env')

namespace Matches

variable {l l' r r' a a' b b' : Node} {args args' : List Node} {s : Slot}

theorem logic {op : Connective} (hl : l.Matches R l') (hr : r.Matches R r') :
    (logic op l r s).Matches R (.logic op l' r' s) := by
  intro env env' h
  rw [answer_logic, answer_logic]
  refine (((hl _ _ h).pass _).andThen fun b _ => ?_).fitting s
  split
  · exact ⟨rfl, (hl _ _ h).env⟩
  · exact ((hr _ _ (hl _ _ h).env).pass _).map _

theorem not (ha : a.Matches R a') : (not a s).Matches R (.not a' s) := by
  intro env env' h
  rw [answer_not, answer_not]
  exact (((ha _ _ h).pass _).map _).fitting s

theorem sign {g : Sign} (ha : a.Matches R a') : (sign g a s).Matches R (.sign g a' s) := by
  intro env env' h
  rw [answer_sign, answer_sign]
  exact ((ha _ _ h).pass _).fitting s

theorem arith {op : ArithOp} (hl : l.Matches R l') (hr : r.Matches R r') :
    (arith op l r s).Matches R (.arith op l' r' s) := by
  intro env env' h
  rw [answer_arith, answer_arith]
  exact ((hl _ _ h).andThen fun v _ => (hr _ _ (hl _ _ h).env).pass _).fitting s

theorem compare {op : CompareOp} (hl : l.Matches R l') (hr : r.Matches R r') :
    (compare op l r s).Matches R (.compare op l' r' s) := by
  intro env env' h
  rw [answer_compare, answer_compare]
  exact ((hl _ _ h).andThen fun v _ => ((hr _ _ (hl _ _ h).env).pass _).map _).fitting s

theorem assign {op : AssignOp} {name : String} {target : Option Kind} {t : Term}
    (hbind : (Term.assign op name t).KeepsBoth R) (ha : a.Matches R a') :
    (assign op name target a s).Matches R (.assign op name target a' s) := by
  intro env env' h
  rw [answer_assign, answer_assign]
  refine (ha _ _ h).andThen fun w _ => ?_
  obtain ⟨hget, hset⟩ := hbind _ _ (ha _ _ h).env
  rw [assigned_congr hget]
  cases assigned op (a.answer env).env.scope name w with
  | error e => exact ⟨rfl, (ha _ _ h).env⟩
  | ok u =>
    obtain ⟨e, he, he'⟩ | ⟨t, t', ht, ht', hR⟩ :=
      bindVariable_both (hset u) target s
    · simp only [he, he']
      exact ⟨rfl, (ha _ _ h).env⟩
    · simp only [ht, ht']
      exact ⟨rfl, hR⟩

theorem answerAll (h : List.Forall₂ (Matches R) args args') {env env' : Env} (hR : R env env') :
    (answerAll args env).Matches R (answerAll args' env') := by
  induction h generalizing env env' with
  | nil => exact ⟨rfl, hR⟩
  | cons hn _ ih =>
    rw [answerAll_cons, answerAll_cons]
    exact (hn _ _ hR).andThen fun v _ => (ih (hn _ _ hR).env).map _

theorem call {name : String} {f : Overload} {ts : List Term} {buffer buffer' : Buffer}
    (hcall : (Term.call name f ts).KeepsBoth R) (hargs : List.Forall₂ (Matches R) args args') :
    (call name f args buffer s).Matches R (.call name f args' buffer' s) := by
  intro env env' h
  rw [answer_call, answer_call]
  exact ((answerAll hargs h).andThen fun vs _ => hcall _ _ vs (answerAll hargs h).env).fitting s

theorem sequence (ha : a.Matches R a') (hb : b.Matches R b') :
    (sequence a b s).Matches R (.sequence a' b' s) := by
  intro env env' h
  rw [answer_sequence, answer_sequence]
  exact ((ha _ _ h).andThen fun v _ => hb _ _ (ha _ _ h).env).fitting s

end Matches

end Node

/-! ## One tree in two surroundings -/

/-- The same tree, the same result, and surroundings that are related. -/
structure Outcome.Matches (R : Env → Env → Prop) (o o' : Outcome) : Prop where
  node : o'.node = o.node
  result : o'.result = o.result
  env : R o.env o'.env

/-- The same trees, the same values or the same fault, and surroundings that are related. -/
structure ArgsOutcome.Matches (R : Env → Env → Prop) (o o' : ArgsOutcome) : Prop where
  nodes : o'.nodes = o.nodes
  values : o'.values = o.values
  fault : o'.fault = o.fault
  env : R o.env o'.env

namespace Node

/-- The end of a run looks at the result alone. -/
theorem commit_matches {env env' : Env} (h : R env env') (node : Slot → Node) (s : Slot)
    (r : Except Fault Value) : (commit node s env r).Matches R (commit node s env' r) := by
  cases r with
  | error e => exact ⟨rfl, rfl, h⟩
  | ok v =>
    rw [commit, commit]
    cases s.store v with
    | error e => exact ⟨rfl, rfl, h⟩
    | ok kept => exact ⟨rfl, rfl, h⟩

theorem executeAll_matches {ns : List Node} {env env' : Env}
    (ih : ∀ n ∈ ns, ∀ {env env'}, R env env' → (n.execute env).Matches R (n.execute env'))
    (h : R env env') : (executeAll ns env).Matches R (executeAll ns env') := by
  induction ns generalizing env env' with
  | nil => exact ⟨rfl, rfl, rfl, h⟩
  | cons n ns ihs =>
    rw [List.forall_mem_cons] at ih
    have hn := ih.1 h
    have hns := ihs ih.2 hn.env
    rw [executeAll, executeAll, hn.result, hn.node]
    cases (n.execute env).result with
    | error e => exact ⟨rfl, rfl, rfl, hn.env⟩
    | ok v =>
      simp only [hns.nodes, hns.values, hns.fault]
      exact ⟨rfl, rfl, rfl, hns.env⟩

/-- Where nothing tells the surroundings apart, runs of one tree leave the same tree. -/
theorem execute_matches {n : Node} (hn : n.term.Forall (Term.KeepsBoth R)) {env env' : Env}
    (h : R env env') : (n.execute env).Matches R (n.execute env') := by
  induction n generalizing env env' with
  | literal v => exact ⟨rfl, rfl, h⟩
  | read name c s =>
    rw [term, Term.forall_read] at hn
    rw [execute, execute, readVariable_congr (hn _ _ h)]
    exact commit_matches h ..
  | logic op l r s ihl ihr =>
    rw [term, Term.forall_logic] at hn
    have hl := ihl hn.2.1 h
    have hr := ihr hn.2.2 hl.env
    rw [execute, execute, hl.result, hl.node]
    cases (l.execute env).result.bind (Value.asBool op.symbol) with
    | error e => exact ⟨rfl, rfl, hl.env⟩
    | ok b =>
      simp only [hr.result, hr.node]
      split
      · exact commit_matches hl.env ..
      · exact commit_matches hr.env ..
  | not a s ih =>
    rw [term, Term.forall_not] at hn
    have ha := ih hn.2 h
    rw [execute, execute, ha.result, ha.node]
    exact commit_matches ha.env ..
  | sign g a s ih =>
    rw [term, Term.forall_sign] at hn
    have ha := ih hn.2 h
    rw [execute, execute, ha.result, ha.node]
    exact commit_matches ha.env ..
  | arith op l r s ihl ihr =>
    rw [term, Term.forall_arith] at hn
    have hl := ihl hn.2.1 h
    have hr := ihr hn.2.2 hl.env
    rw [execute, execute, hl.result, hl.node]
    cases (l.execute env).result with
    | error e => exact ⟨rfl, rfl, hl.env⟩
    | ok v =>
      simp only [hr.result, hr.node]
      exact commit_matches hr.env ..
  | compare op l r s ihl ihr =>
    rw [term, Term.forall_compare] at hn
    have hl := ihl hn.2.1 h
    have hr := ihr hn.2.2 hl.env
    rw [execute, execute, hl.result, hl.node]
    cases (l.execute env).result with
    | error e => exact ⟨rfl, rfl, hl.env⟩
    | ok v =>
      simp only [hr.result, hr.node]
      exact commit_matches hr.env ..
  | assign op name target a s ih =>
    rw [term, Term.forall_assign] at hn
    have ha := ih hn.2 h
    obtain ⟨hget, hset⟩ := hn.1 _ _ ha.env
    rw [execute, execute, ha.result, ha.node, assigned_congr hget]
    cases (a.execute env).result.bind (assigned op (a.execute env).env.scope name) with
    | error e => exact ⟨rfl, rfl, ha.env⟩
    | ok v =>
      obtain ⟨e, he, he'⟩ | ⟨t, t', ht, ht', hR⟩ :=
        bindVariable_both (hset v) target s
      · simp only [he, he']
        exact ⟨rfl, rfl, ha.env⟩
      · simp only [ht, ht']
        exact commit_matches hR ..
  | call name f args b s ih =>
    rw [term, terms_eq_map, Term.forall_call, List.forall_mem_map] at hn
    have hargs := executeAll_matches (fun a ha _ _ => ih a ha (hn.2 a ha)) h
    rw [execute_call, execute_call, hargs.nodes, hargs.values, hargs.fault]
    cases (executeAll args env).fault with
    | some e => exact ⟨rfl, rfl, hargs.env⟩
    | none =>
      have hcall := hn.1 _ _ (executeAll args env).values hargs.env
      have hanswer : (f.call (executeAll args env').env.history (executeAll args env).values).1 =
          (f.call (executeAll args env).env.history (executeAll args env).values).1 := hcall.result
      simp only [hanswer]
      exact commit_matches hcall.env ..
  | sequence a b s iha ihb =>
    rw [term, Term.forall_sequence] at hn
    have ha := iha hn.2.1 h
    have hb := ihb hn.2.2 ha.env
    rw [execute, execute, ha.result, ha.node]
    cases (a.execute env).result with
    | error e => exact ⟨rfl, rfl, ha.env⟩
    | ok v =>
      simp only [hb.result, hb.node]
      exact commit_matches hb.env ..

/-- Where nothing tells the surroundings apart, a tree matches itself. -/
theorem Matches.of_keepsBoth {n : Node} (hn : n.term.Forall (Term.KeepsBoth R)) :
    n.Matches R n :=
  fun _ _ h => ⟨(execute_matches hn h).result, (execute_matches hn h).env⟩

end Node

end Formula

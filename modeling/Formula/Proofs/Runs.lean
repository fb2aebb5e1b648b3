import Formula.Proofs.Evaluation
import Formula.Proofs.Kinds
import Formula.Proofs.Results
import Mathlib.Tactic.Tauto

/-!
# Runs of nodes

A run never changes the term of a tree (`Node.term_execute`). A run that comes to a value is
made of runs of the operands that do, and the slot of the node then holds the value : there
is one such statement for each form of nodes, `Node.execute_logic_ok` and so on.
-/

namespace Formula

/-- The slot that keeps a value. -/
def Slot.holding (v : Value) : Slot := ⟨v, some v.kind⟩

namespace Node

variable {env env' : Env} {n' : Node} {v : Value}

/-! ## What a run keeps -/

/-- A slot makes no difference to the term. -/
theorem term_commit {node : Slot → Node} {t : Term} (h : ∀ s, (node s).term = t) (s : Slot)
    (r : Except Fault Value) : (commit node s env r).node.term = t := by
  cases r with
  | error e => exact h s
  | ok v =>
    unfold commit
    simp only
    split
    · exact h _
    · exact h _

theorem terms_executeAll {ns : List Node}
    (ih : ∀ n ∈ ns, ∀ env, (execute n env).node.term = n.term) :
    terms (executeAll ns env).nodes = terms ns := by
  induction ns generalizing env with
  | nil => simp [executeAll]
  | cons n ns ihs =>
    rw [List.forall_mem_cons] at ih
    rw [executeAll, terms]
    cases (execute n env).result with
    | error e => simp only [terms, ih.1 env]
    | ok v => simp only [terms, ih.1 env, ihs ih.2]

/-- A run does not change the term of a tree. -/
theorem term_execute {n : Node} : (execute n env).node.term = n.term := by
  induction n generalizing env with
  | literal v => simp [execute]
  | read name c s =>
    rw [execute]
    exact term_commit (fun _ => by simp only [term]) ..
  | logic op l r s ihl ihr =>
    rw [execute]
    simp only
    split
    · simp only [term, ihl]
    · split
      · exact term_commit (fun _ => by simp only [term, ihl]) ..
      · exact term_commit (fun _ => by simp only [term, ihl, ihr]) ..
  | not a s ih =>
    rw [execute]
    exact term_commit (fun _ => by simp only [term, ih]) ..
  | sign g a s ih =>
    rw [execute]
    exact term_commit (fun _ => by simp only [term, ih]) ..
  | arith op l r s ihl ihr =>
    rw [execute]
    simp only
    split
    · simp only [term, ihl]
    · exact term_commit (fun _ => by simp only [term, ihl, ihr]) ..
  | compare op l r s ihl ihr =>
    rw [execute]
    simp only
    split
    · simp only [term, ihl]
    · exact term_commit (fun _ => by simp only [term, ihl, ihr]) ..
  | assign op name target a s ih =>
    rw [execute]
    simp only
    split
    · simp only [term, ih]
    · split
      · simp only [term, ih]
      · exact term_commit (fun _ => by simp only [term, ih]) ..
  | call name f args b s ih =>
    have hargs : terms (executeAll args env).nodes = terms args :=
      terms_executeAll fun a ha _ => ih a ha
    rw [execute_call]
    simp only
    split
    · simp only [term, hargs]
    · exact term_commit (fun _ => by simp only [term, hargs]) ..
  | sequence a b s iha ihb =>
    rw [execute]
    simp only
    split
    · simp only [term, iha]
    · exact term_commit (fun _ => by simp only [term, iha, ihb]) ..

/-- Arguments keep what each of them keeps. -/
theorem answerAll_keeps {P : Env → Prop} {ns : List Node}
    (ih : ∀ n ∈ ns, ∀ {env : Env}, P env → P (n.answer env).env) (henv : P env) :
    P (answerAll ns env).env := by
  induction ns generalizing env with
  | nil => exact henv
  | cons n ns ihs =>
    rw [List.forall_mem_cons] at ih
    rw [answerAll_cons]
    refine Answer.env_andThen (ih.1 henv) fun v => ?_
    rw [Answer.env_map]
    exact ihs ih.2 (ih.1 henv)

/-- What every binding and every call of the term keeps, a run keeps, whether it comes to a
value or not. -/
theorem answer_keeps {P : Env → Prop} {n : Node} (hn : n.term.Forall (Term.Keeps P))
    (henv : P env) : P (n.answer env).env := by
  induction n generalizing env with
  | literal v => rwa [answer_literal]
  | read name c s => rwa [answer_read]
  | logic op l r s ihl ihr =>
    rw [term, Term.forall_logic] at hn
    rw [answer_logic]
    refine Answer.env_andThen (ihl hn.2.1 henv) fun b => ?_
    split
    · exact ihl hn.2.1 henv
    · exact ihr hn.2.2 (ihl hn.2.1 henv)
  | not a s ih =>
    rw [answer_not]
    exact ih (Term.forall_not.1 hn).2 henv
  | sign g a s ih =>
    rw [answer_sign]
    exact ih (Term.forall_sign.1 hn).2 henv
  | arith op l r s ihl ihr =>
    rw [term, Term.forall_arith] at hn
    rw [answer_arith]
    exact Answer.env_andThen (ihl hn.2.1 henv) fun v => ihr hn.2.2 (ihl hn.2.1 henv)
  | compare op l r s ihl ihr =>
    rw [term, Term.forall_compare] at hn
    rw [answer_compare]
    exact Answer.env_andThen (ihl hn.2.1 henv) fun v => ihr hn.2.2 (ihl hn.2.1 henv)
  | assign op name target a s ih =>
    rw [term, Term.forall_assign] at hn
    rw [answer_assign]
    refine Answer.env_andThen (ih hn.2 henv) fun w => ?_
    split
    · exact ih hn.2 henv
    · split
      · exact ih hn.2 henv
      · rename_i hb
        exact hn.1 _ _ _ (ih hn.2 henv) (bindVariable_eq_ok.1 hb).2.2
  | call name f args b s ih =>
    rw [term, terms_eq_map, Term.forall_call, List.forall_mem_map] at hn
    have hargs : P (answerAll args env).env :=
      answerAll_keeps (fun a ha _ => ih a ha (hn.2 a ha)) henv
    rw [answer_call]
    exact Answer.env_andThen hargs fun vs => hn.1 _ _ hargs
  | sequence a b s iha ihb =>
    rw [term, Term.forall_sequence] at hn
    rw [answer_sequence]
    exact Answer.env_andThen (iha hn.2.1 henv) fun v => ihb hn.2.2 (iha hn.2.1 henv)

/-! ## Runs that come to a value -/

/-- The end of a run comes to a value that the slot admits, and the slot keeps it. -/
theorem commit_eq_ok {node : Slot → Node} {s : Slot} {r : Except Fault Value} :
    commit node s env r = ⟨n', env', .ok v⟩ ↔
      r = .ok v ∧ s.Admits v.kind ∧ n' = node (.holding v) ∧ env' = env := by
  cases r with
  | error e => simp [commit]
  | ok w =>
    rw [commit]
    cases hs : s.store w with
    | error e =>
      simp only [Outcome.mk.injEq, reduceCtorEq, and_false, Except.ok.injEq, false_iff]
      rintro ⟨rfl, hadmits, -⟩
      simp [Slot.store_eq_ok.2 ⟨hadmits, rfl⟩] at hs
    | ok kept =>
      obtain ⟨hadmits, rfl⟩ := Slot.store_eq_ok.1 hs
      simp only [Outcome.mk.injEq, Except.ok.injEq]
      constructor
      · rintro ⟨rfl, rfl, rfl⟩
        exact ⟨rfl, hadmits, rfl, rfl⟩
      · rintro ⟨rfl, -, rfl, rfl⟩
        exact ⟨rfl, rfl, rfl⟩

theorem execute_read_ok {name : String} {c : Bool} {s : Slot} :
    execute (read name c s) env = ⟨n', env', .ok v⟩ ↔
      readVariable env.scope name = .ok v ∧ s.Admits v.kind ∧
        n' = read name c (.holding v) ∧ env' = env := by
  rw [execute, commit_eq_ok]

/-- A run that comes to a truth value. -/
theorem asBool_execute_ok {n : Node} {what : String} {b : Bool} :
    (n.execute env).result.bind (Value.asBool what) = .ok b ↔
      (n.execute env).result = .ok (.boolean b) := by
  cases (n.execute env).result with
  | error e => simp [Except.bind]
  | ok v => simp [Except.bind, Value.asBool_eq_ok]

/-- A run that comes to a value is told by its result and by what it leaves. -/
theorem execute_eq_iff {n : Node} : n.execute env = ⟨n', env', .ok v⟩ ↔
    (n.execute env).result = .ok v ∧ (n.execute env).node = n' ∧ (n.execute env).env = env' := by
  rcases n.execute env with ⟨m, env₁, r⟩
  simp [and_comm, and_left_comm, and_assoc]

theorem executeAll_eq_iff {ns ns' : List Node} {vs : List Value} :
    executeAll ns env = ⟨ns', env', vs, none⟩ ↔ (executeAll ns env).fault = none ∧
      (executeAll ns env).nodes = ns' ∧ (executeAll ns env).env = env' ∧
        (executeAll ns env).values = vs := by
  rcases executeAll ns env with ⟨ms, env₁, ws, fault⟩
  simp only [ArgsOutcome.mk.injEq]
  tauto

/-- A connective whose left operand decides, and one whose left operand leaves the result to
the right one. -/
theorem execute_logic_ok {op : Connective} {l r : Node} {s : Slot} :
    execute (logic op l r s) env = ⟨n', env', .ok v⟩ ↔ s.Admits .boolean ∧
      ((∃ l', execute l env = ⟨l', env', .ok (.boolean op.absorbing)⟩ ∧
        v = .boolean op.absorbing ∧ n' = logic op l' r (.holding v)) ∨
      ∃ l' env₁ r' b, execute l env = ⟨l', env₁, .ok (.boolean op.identity)⟩ ∧
        execute r env₁ = ⟨r', env', .ok (.boolean b)⟩ ∧
          v = .boolean b ∧ n' = logic op l' r' (.holding v)) := by
  rw [execute]
  constructor
  · intro h
    cases hl : (execute l env).result.bind (Value.asBool op.symbol) with
    | error e => simp [hl] at h
    | ok b =>
      have hl' := asBool_execute_ok.1 hl
      simp only [hl] at h
      split at h
      · rename_i hb
        obtain ⟨hv, hs, rfl, rfl⟩ := commit_eq_ok.1 h
        obtain rfl := Except.ok.inj hv
        rw [hb] at hl' ⊢
        exact ⟨hs, .inl ⟨_, execute_eq_iff.2 ⟨hl', rfl, rfl⟩, rfl, rfl⟩⟩
      · rename_i hb
        obtain rfl : b = op.identity := by
          rw [Connective.identity]
          exact Bool.eq_not_of_ne hb
        obtain ⟨hv, hs, rfl, rfl⟩ := commit_eq_ok.1 h
        obtain ⟨c, hc, rfl⟩ := Except.map_eq_ok.1 hv
        exact ⟨hs, .inr ⟨_, _, _, c, execute_eq_iff.2 ⟨hl', rfl, rfl⟩,
          execute_eq_iff.2 ⟨asBool_execute_ok.1 hc, rfl, rfl⟩, rfl, rfl⟩⟩
  · rintro ⟨hs, ⟨l', hl, rfl, rfl⟩ | ⟨l', env₁, r', b, hl, hr, rfl, rfl⟩⟩
    · simp only [hl, Except.bind, Value.asBool, if_pos]
      exact commit_eq_ok.2 ⟨rfl, hs, rfl, rfl⟩
    · simp only [hl, hr, Except.bind, Value.asBool, if_neg op.identity_ne_absorbing]
      exact commit_eq_ok.2 ⟨rfl, hs, rfl, rfl⟩

theorem execute_not_ok {a : Node} {s : Slot} :
    execute (not a s) env = ⟨n', env', .ok v⟩ ↔ s.Admits .boolean ∧
      ∃ a' b, execute a env = ⟨a', env', .ok (.boolean b)⟩ ∧ v = .boolean (!b) ∧
        n' = not a' (.holding v) := by
  rw [execute, commit_eq_ok]
  constructor
  · rintro ⟨hv, hs, rfl, rfl⟩
    obtain ⟨b, hb, rfl⟩ := Except.map_eq_ok.1 hv
    exact ⟨hs, _, b, execute_eq_iff.2 ⟨asBool_execute_ok.1 hb, rfl, rfl⟩, rfl, rfl⟩
  · rintro ⟨hs, a', b, ha, rfl, rfl⟩
    rw [ha]
    exact ⟨rfl, hs, rfl, rfl⟩

theorem execute_sign_ok {g : Sign} {a : Node} {s : Slot} :
    execute (sign g a s) env = ⟨n', env', .ok v⟩ ↔ s.Admits v.kind ∧
      ∃ a' w, execute a env = ⟨a', env', .ok w⟩ ∧ applySign g w = .ok v ∧
        n' = sign g a' (.holding v) := by
  rw [execute, commit_eq_ok]
  constructor
  · rintro ⟨hv, hs, rfl, rfl⟩
    obtain ⟨w, hw, hv⟩ := Except.bind_eq_ok.1 hv
    exact ⟨hs, _, w, execute_eq_iff.2 ⟨hw, rfl, rfl⟩, hv, rfl⟩
  · rintro ⟨hs, a', w, ha, hv, rfl⟩
    rw [ha]
    exact ⟨hv, hs, rfl, rfl⟩

theorem execute_arith_ok {op : ArithOp} {l r : Node} {s : Slot} :
    execute (arith op l r s) env = ⟨n', env', .ok v⟩ ↔ s.Admits v.kind ∧
      ∃ l' env₁ a r' b, execute l env = ⟨l', env₁, .ok a⟩ ∧
        execute r env₁ = ⟨r', env', .ok b⟩ ∧ a.arith op b = .ok v ∧
          n' = arith op l' r' (.holding v) := by
  rw [execute]
  constructor
  · intro h
    cases hl : (execute l env).result with
    | error e => simp [hl] at h
    | ok a =>
      simp only [hl] at h
      obtain ⟨hv, hs, rfl, rfl⟩ := commit_eq_ok.1 h
      obtain ⟨b, hb, hv⟩ := Except.bind_eq_ok.1 hv
      exact ⟨hs, _, _, a, _, b, execute_eq_iff.2 ⟨hl, rfl, rfl⟩,
        execute_eq_iff.2 ⟨hb, rfl, rfl⟩, hv, rfl⟩
  · rintro ⟨hs, l', env₁, a, r', b, hl, hr, hv, rfl⟩
    simp only [hl, hr, Except.bind]
    exact commit_eq_ok.2 ⟨hv, hs, rfl, rfl⟩

theorem execute_compare_ok {op : CompareOp} {l r : Node} {s : Slot} :
    execute (compare op l r s) env = ⟨n', env', .ok v⟩ ↔ s.Admits .boolean ∧
      ∃ l' env₁ a r' b c, execute l env = ⟨l', env₁, .ok a⟩ ∧
        execute r env₁ = ⟨r', env', .ok b⟩ ∧ a.compare op b = .ok c ∧ v = .boolean c ∧
          n' = compare op l' r' (.holding v) := by
  rw [execute]
  constructor
  · intro h
    cases hl : (execute l env).result with
    | error e => simp [hl] at h
    | ok a =>
      simp only [hl] at h
      obtain ⟨hv, hs, rfl, rfl⟩ := commit_eq_ok.1 h
      obtain ⟨c, hc, rfl⟩ := Except.map_eq_ok.1 hv
      obtain ⟨b, hb, hc⟩ := Except.bind_eq_ok.1 hc
      exact ⟨hs, _, _, a, _, b, c, execute_eq_iff.2 ⟨hl, rfl, rfl⟩,
        execute_eq_iff.2 ⟨hb, rfl, rfl⟩, hc, rfl, rfl⟩
  · rintro ⟨hs, l', env₁, a, r', b, c, hl, hr, hc, rfl, rfl⟩
    simp only [hl, hr, Except.bind, hc]
    exact commit_eq_ok.2 ⟨rfl, hs, rfl, rfl⟩

theorem execute_assign_ok {op : AssignOp} {name : String} {target : Option Kind} {a : Node}
    {s : Slot} : execute (assign op name target a s) env = ⟨n', env', .ok v⟩ ↔
      ∃ a' env₁ w scope, execute a env = ⟨a', env₁, .ok w⟩ ∧
        assigned op env₁.scope name w = .ok v ∧
          bindVariable env₁.scope name target s v = .ok scope ∧
            env' = { env₁ with scope } ∧ n' = assign op name target a' (.holding v) := by
  rw [execute]
  constructor
  · intro h
    cases hw : (execute a env).result.bind (assigned op (execute a env).env.scope name) with
    | error e => simp [hw] at h
    | ok u =>
      simp only [hw] at h
      cases hb : bindVariable (execute a env).env.scope name target s u with
      | error e => simp [hb] at h
      | ok scope =>
        simp only [hb] at h
        obtain ⟨hv, hs, rfl, rfl⟩ := commit_eq_ok.1 h
        obtain rfl := Except.ok.inj hv
        obtain ⟨w, hw, hu⟩ := Except.bind_eq_ok.1 hw
        exact ⟨_, _, w, scope, execute_eq_iff.2 ⟨hw, rfl, rfl⟩, hu, hb, rfl, rfl⟩
  · rintro ⟨a', env₁, w, scope, ha, hu, hb, rfl, rfl⟩
    simp only [ha, Except.bind, hu, hb]
    exact commit_eq_ok.2 ⟨rfl, (bindVariable_eq_ok.1 hb).1, rfl, rfl⟩

theorem execute_call_ok {name : String} {f : Overload} {args : List Node} {b : Buffer}
    {s : Slot} : execute (call name f args b s) env = ⟨n', env', .ok v⟩ ↔ s.Admits v.kind ∧
      ∃ args' env₁ vs, executeAll args env = ⟨args', env₁, vs, none⟩ ∧
        Term.callFunction f vs env₁ = ⟨.ok v, env'⟩ ∧
          n' = call name f args' (b.hold []) (.holding v) := by
  rw [execute_call]
  constructor
  · intro h
    cases hf : (executeAll args env).fault with
    | some e => simp [hf] at h
    | none =>
      simp only [hf] at h
      obtain ⟨hv, hs, rfl, rfl⟩ := commit_eq_ok.1 h
      refine ⟨hs, _, _, _, executeAll_eq_iff.2 ⟨hf, rfl, rfl, rfl⟩, ?_, rfl⟩
      rw [← hv]
      rfl
  · rintro ⟨hs, args', env₁, vs, hargs, hcall, rfl⟩
    rw [Term.callFunction, Answer.mk.injEq] at hcall
    simp only [hargs]
    exact commit_eq_ok.2 ⟨hcall.1, hs, rfl, hcall.2.symm⟩

theorem execute_sequence_ok {a b : Node} {s : Slot} :
    execute (sequence a b s) env = ⟨n', env', .ok v⟩ ↔ s.Admits v.kind ∧
      ∃ a' env₁ u b', execute a env = ⟨a', env₁, .ok u⟩ ∧
        execute b env₁ = ⟨b', env', .ok v⟩ ∧ n' = sequence a' b' (.holding v) := by
  rw [execute]
  constructor
  · intro h
    cases ha : (execute a env).result with
    | error e => simp [ha] at h
    | ok u =>
      simp only [ha] at h
      obtain ⟨hv, hs, rfl, rfl⟩ := commit_eq_ok.1 h
      exact ⟨hs, _, _, u, _, execute_eq_iff.2 ⟨ha, rfl, rfl⟩,
        execute_eq_iff.2 ⟨hv, rfl, rfl⟩, rfl⟩
  · rintro ⟨hs, a', env₁, u, b', ha, hb, rfl⟩
    simp only [ha, hb]
    exact commit_eq_ok.2 ⟨rfl, hs, rfl, rfl⟩

theorem executeAll_cons_ok {n : Node} {ns ns' : List Node} {vs : List Value} :
    executeAll (n :: ns) env = ⟨ns', env', vs, none⟩ ↔
      ∃ n' env₁ v rest ws, execute n env = ⟨n', env₁, .ok v⟩ ∧
        executeAll ns env₁ = ⟨rest, env', ws, none⟩ ∧ ns' = n' :: rest ∧ vs = v :: ws := by
  rw [executeAll]
  constructor
  · intro h
    cases hn : (execute n env).result with
    | error e => simp [hn] at h
    | ok v =>
      simp only [hn, ArgsOutcome.mk.injEq] at h
      obtain ⟨rfl, rfl, rfl, hf⟩ := h
      exact ⟨_, _, v, _, _, execute_eq_iff.2 ⟨hn, rfl, rfl⟩,
        executeAll_eq_iff.2 ⟨hf, rfl, rfl, rfl⟩, rfl, rfl⟩
  · rintro ⟨n', env₁, v, rest, ws, hn, hns, rfl, rfl⟩
    simp only [hn, hns]

/-- The kind that a node is known to have is the one of every value that it comes to. -/
theorem kind?_of_execute_ok {n : Node} (h : n.execute env = ⟨n', env', .ok v⟩) :
    n.kind? = none ∨ n.kind? = some v.kind := by
  cases n with
  | literal w =>
    simp only [execute, Outcome.mk.injEq, Except.ok.injEq] at h
    obtain ⟨-, -, rfl⟩ := h
    exact .inr rfl
  | read name c s => exact (execute_read_ok.1 h).2.1
  | logic op l r s =>
    obtain ⟨-, ⟨l', -, rfl, -⟩ | ⟨l', env₁, r', b, -, -, rfl, -⟩⟩ := execute_logic_ok.1 h
    · exact .inr rfl
    · exact .inr rfl
  | not a s =>
    obtain ⟨-, a', b, -, rfl, -⟩ := execute_not_ok.1 h
    exact .inr rfl
  | sign g a s => exact (execute_sign_ok.1 h).1
  | arith op l r s => exact (execute_arith_ok.1 h).1
  | compare op l r s =>
    obtain ⟨-, l', env₁, a, r', b, c, -, -, -, rfl, -⟩ := execute_compare_ok.1 h
    exact .inr rfl
  | assign op name target a s =>
    obtain ⟨a', env₁, w, scope, -, -, hb, -⟩ := execute_assign_ok.1 h
    exact (bindVariable_eq_ok.1 hb).1
  | call name f args b s => exact (execute_call_ok.1 h).1
  | sequence a b s => exact (execute_sequence_ok.1 h).1

end Node

end Formula

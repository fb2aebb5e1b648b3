import Formula.Node.Execute
import Formula.Proofs.Term

/-!
# What a term means

`Term.eval` evaluates a term in some surroundings. It has no slots : what it comes to depends
on the term and the surroundings alone. Operands are evaluated from left to right, the right
side of `&&` and `||` only if the left one does not decide, and the right side of an
assignment before its variable is read. A fault ends the evaluation where it occurs, and what
was bound or called before it stays.

A run of a tree does the same and minds its slots besides, which can only turn a value into a
fault : `Node.answer` says what a run comes to without the tree that it leaves, and satisfies
the equations of `Term.eval` with a slot that has to admit the value (`Answer.fitting`).
-/

namespace Formula

/-- What evaluating comes to : a value or a fault, and the surroundings that it leaves. -/
structure Answer (α : Type) where
  result : Except Fault α
  env : Env

namespace Answer

variable {α β : Type}

/-- Goes on with the value, in the surroundings that are left. -/
def andThen (a : Answer α) (f : α → Env → Answer β) : Answer β :=
  match a.result with
  | .error e => ⟨.error e, a.env⟩
  | .ok v => f v a.env

/-- Turns the value into another one, or into a fault. -/
def pass (a : Answer α) (f : α → Except Fault β) : Answer β := ⟨a.result.bind f, a.env⟩

/-- Turns the value into another one. -/
def map (f : α → β) (a : Answer α) : Answer β := ⟨a.result.map f, a.env⟩

/-- Keeps the value in a slot, which may refuse it. -/
def fitting (s : Slot) (a : Answer Value) : Answer Value :=
  a.pass fun v => (s.check v.kind).map fun _ => v

@[simp] theorem andThen_error {a : Answer α} {e : Fault} (h : a.result = .error e)
    (f : α → Env → Answer β) : a.andThen f = ⟨.error e, a.env⟩ := by
  simp [andThen, h]

@[simp] theorem andThen_ok {a : Answer α} {v : α} (h : a.result = .ok v)
    (f : α → Env → Answer β) : a.andThen f = f v a.env := by
  simp [andThen, h]

/-- A chain comes to a value if both of its parts do. -/
theorem andThen_eq_ok {a : Answer α} {f : α → Env → Answer β} {w : β} {env : Env} :
    a.andThen f = ⟨.ok w, env⟩ ↔ ∃ v env₁, a = ⟨.ok v, env₁⟩ ∧ f v env₁ = ⟨.ok w, env⟩ := by
  rcases a with ⟨e | v, env₁⟩
  · simp [andThen]
  · simp [andThen, and_assoc]

theorem pass_eq_ok {a : Answer α} {f : α → Except Fault β} {w : β} {env : Env} :
    a.pass f = ⟨.ok w, env⟩ ↔ ∃ v, a = ⟨.ok v, env⟩ ∧ f v = .ok w := by
  rcases a with ⟨e | v, env₁⟩
  · simp [pass, Except.bind]
  · simp [pass, Except.bind, and_assoc, and_comm]

theorem map_eq_ok {a : Answer α} {f : α → β} {w : β} {env : Env} :
    a.map f = ⟨.ok w, env⟩ ↔ ∃ v, a = ⟨.ok v, env⟩ ∧ f v = w := by
  rcases a with ⟨e | v, env₁⟩
  · simp [map, Except.map]
  · simp only [map, Except.map, mk.injEq, Except.ok.injEq, and_assoc]
    exact ⟨fun ⟨h, he⟩ => ⟨v, rfl, he, h⟩, fun ⟨_, h, he, hw⟩ => ⟨h ▸ hw, he⟩⟩

theorem result_andThen_eq_ok {a : Answer α} {f : α → Env → Answer β} {w : β} :
    (a.andThen f).result = .ok w ↔ ∃ v, a.result = .ok v ∧ (f v a.env).result = .ok w := by
  rcases a with ⟨e | v, env⟩ <;> simp [andThen]

theorem result_pass_eq_ok {a : Answer α} {f : α → Except Fault β} {w : β} :
    (a.pass f).result = .ok w ↔ ∃ v, a.result = .ok v ∧ f v = .ok w := by
  rcases a with ⟨e | v, env⟩ <;> simp [pass, Except.bind]

theorem result_map_eq_ok {a : Answer α} {f : α → β} {w : β} :
    (a.map f).result = .ok w ↔ ∃ v, a.result = .ok v ∧ f v = w := by
  rcases a with ⟨e | v, env⟩ <;> simp [map, Except.map]

theorem andThen_eq_error {a : Answer α} {f : α → Env → Answer β} {e : Fault} :
    (a.andThen f).result = .error e ↔
      a.result = .error e ∨ ∃ v, a.result = .ok v ∧ (f v a.env).result = .error e := by
  rcases a with ⟨e | v, env⟩ <;> simp [andThen]

theorem pass_eq_error {a : Answer α} {f : α → Except Fault β} {e : Fault} :
    (a.pass f).result = .error e ↔
      a.result = .error e ∨ ∃ v, a.result = .ok v ∧ f v = .error e := by
  rcases a with ⟨e | v, env⟩ <;> simp [pass, Except.bind]

theorem map_eq_error {a : Answer α} {f : α → β} {e : Fault} :
    (a.map f).result = .error e ↔ a.result = .error e := by
  rcases a with ⟨e | v, env⟩ <;> simp [map, Except.map]

/-- Chains that go on in the same way with every value of the first part are equal. -/
theorem andThen_congr {a : Answer α} {f g : α → Env → Answer β}
    (h : ∀ v, a.result = .ok v → f v a.env = g v a.env) : a.andThen f = a.andThen g := by
  rcases a with ⟨e | v, env⟩
  · rfl
  · exact h v rfl

theorem result_pass_congr {a a' : Answer α} (ha : a.result = a'.result)
    (f : α → Except Fault β) : (a.pass f).result = (a'.pass f).result := by
  rw [pass, pass, ha]

theorem result_map_congr {a a' : Answer α} (ha : a.result = a'.result) (f : α → β) :
    (a.map f).result = (a'.map f).result := by
  rw [map, map, ha]

@[simp] theorem env_pass (a : Answer α) (f : α → Except Fault β) : (a.pass f).env = a.env := rfl

@[simp] theorem env_map (a : Answer α) (f : α → β) : (a.map f).env = a.env := rfl

/-- A property of the surroundings holds after a chain if both parts keep it. -/
theorem env_andThen {P : Env → Prop} {a : Answer α} {f : α → Env → Answer β} (ha : P a.env)
    (hf : ∀ v, P (f v a.env).env) : P (a.andThen f).env := by
  cases h : a.result with
  | error e => rwa [andThen_error h]
  | ok v => rw [andThen_ok h]; exact hf v

end Answer

namespace Node

/-- A variable that is read has the value that it is bound to. -/
theorem readVariable_eq_ok {scope : Scope} {name : String} {v : Value} :
    readVariable scope name = .ok v ↔ scope.get? name = some v := by
  unfold readVariable
  cases scope.get? name <;> simp

/-- Reading a variable fails if it is not bound, and tells its name. -/
theorem readVariable_eq_error {scope : Scope} {name : String} {e : Fault} :
    readVariable scope name = .error e ↔
      scope.get? name = none ∧ e = .runtime (.unbound name) := by
  unfold readVariable
  cases scope.get? name <;> simp [eq_comm]

/-- A value to assign fails to be made if the variable is not bound or the operation fails. -/
theorem assigned_eq_error {op : AssignOp} {scope : Scope} {name : String} {v : Value}
    {e : Fault} : assigned op scope name v = .error e ↔ ∃ a, op.arith? = some a ∧
      (readVariable scope name = .error e ∨
        ∃ w, readVariable scope name = .ok w ∧ w.arith a v = .error e) := by
  unfold assigned
  cases op.arith? with
  | none => simp
  | some a => cases readVariable scope name <;> simp [Except.bind]

end Node

namespace Term

/-- Combines the value on the right side of an assignment with that of the variable, and
binds the outcome. -/
def bindValue (op : AssignOp) (name : String) (v : Value) (env : Env) : Answer Value :=
  match Node.assigned op env.scope name v with
  | .error e => ⟨.error e, env⟩
  | .ok w =>
    match env.scope.set name w with
    | .error e => ⟨.error e, env⟩
    | .ok scope => ⟨.ok w, { env with scope }⟩

/-- Calls a function, and notes the call. -/
def callFunction (f : Overload) (args : List Value) (env : Env) : Answer Value :=
  ⟨(f.call env.history args).1, { env with history := (f.call env.history args).2 }⟩

mutual

/-- Evaluates a term. -/
def eval : Term → Env → Answer Value
  | literal v, env => ⟨.ok v, env⟩
  | read name _, env => ⟨Node.readVariable env.scope name, env⟩
  | logic op l r, env =>
    ((eval l env).pass (Value.asBool op.symbol)).andThen fun b env =>
      if b = op.absorbing then ⟨.ok (.boolean b), env⟩
      else ((eval r env).pass (Value.asBool op.symbol)).map .boolean
  | not a, env => ((eval a env).pass (Value.asBool "!")).map fun b => .boolean !b
  | sign s a, env => (eval a env).pass (Node.applySign s)
  | arith op l r, env =>
    (eval l env).andThen fun v env => (eval r env).pass fun w => v.arith op w
  | compare op l r, env =>
    (eval l env).andThen fun v env =>
      ((eval r env).pass fun w => v.compare op w).map .boolean
  | assign op name v, env => (eval v env).andThen (bindValue op name)
  | call _ f args, env => (evalAll args env).andThen (callFunction f)
  | sequence a b, env => (eval a env).andThen fun _ env => eval b env

/-- Evaluates the arguments of a call, up to the first that fails. -/
def evalAll : List Term → Env → Answer (List Value)
  | [], env => ⟨.ok [], env⟩
  | t :: ts, env =>
    (eval t env).andThen fun v env => (evalAll ts env).map (v :: ·)

end

/-- A value is bound if it can be made and the scope takes it. -/
theorem bindValue_eq_ok {op : AssignOp} {name : String} {v w : Value} {env env' : Env} :
    bindValue op name v env = ⟨.ok w, env'⟩ ↔
      Node.assigned op env.scope name v = .ok w ∧
        ∃ scope, env.scope.set name w = .ok scope ∧ env' = { env with scope } := by
  unfold bindValue
  cases Node.assigned op env.scope name v with
  | error e => simp
  | ok u =>
    simp only [Except.ok.injEq]
    constructor
    · intro h
      cases hset : env.scope.set name u with
      | error e => simp [hset] at h
      | ok scope =>
        obtain ⟨rfl, rfl⟩ : u = w ∧ { env with scope } = env' := by simpa [hset] using h
        exact ⟨rfl, scope, hset, rfl⟩
    · rintro ⟨rfl, scope, hset, rfl⟩
      simp [hset]

/-- Binding fails if the value cannot be made or the scope does not take it. -/
theorem bindValue_eq_error {op : AssignOp} {name : String} {v : Value} {env : Env}
    {e : Fault} : (bindValue op name v env).result = .error e ↔
      Node.assigned op env.scope name v = .error e ∨
        ∃ w, Node.assigned op env.scope name v = .ok w ∧ env.scope.set name w = .error e := by
  unfold bindValue
  cases Node.assigned op env.scope name v with
  | error e' => simp
  | ok w => cases h : env.scope.set name w <;> simp [h]

/-! ## What evaluation keeps -/

/-- Binding a variable and calling a function, where the term itself does that, keep a
property of the surroundings. -/
def Keeps (P : Env → Prop) : Term → Prop
  | assign _ name _ =>
    ∀ env v scope, P env → env.scope.set name v = .ok scope → P { env with scope }
  | call _ f _ => ∀ env args, P env → P (callFunction f args env).env
  | _ => True

theorem evalAll_keeps {P : Env → Prop} {ts : List Term} {env : Env}
    (ih : ∀ t ∈ ts, ∀ {env : Env}, P env → P (t.eval env).env) (henv : P env) :
    P (evalAll ts env).env := by
  induction ts generalizing env with
  | nil => exact henv
  | cons t ts ihs =>
    rw [evalAll]
    refine Answer.env_andThen (ih t (by simp) henv) fun v => ?_
    rw [Answer.env_map]
    exact ihs (fun u hu => ih u (by simp [hu])) (ih t (by simp) henv)

/-- What every binding and every call of a term keeps, evaluating the term keeps. -/
theorem eval_keeps {P : Env → Prop} {t : Term} {env : Env} (ht : t.Forall (Keeps P))
    (henv : P env) : P (t.eval env).env := by
  induction t generalizing env with
  | literal v => exact henv
  | read name c => exact henv
  | logic op l r ihl ihr =>
    rw [forall_logic] at ht
    rw [eval]
    refine Answer.env_andThen (ihl ht.2.1 henv) fun b => ?_
    split
    · exact ihl ht.2.1 henv
    · exact ihr ht.2.2 (ihl ht.2.1 henv)
  | not a ih => exact ih (forall_not.1 ht).2 henv
  | sign s a ih => exact ih (forall_sign.1 ht).2 henv
  | arith op l r ihl ihr =>
    rw [forall_arith] at ht
    rw [eval]
    exact Answer.env_andThen (ihl ht.2.1 henv) fun v => ihr ht.2.2 (ihl ht.2.1 henv)
  | compare op l r ihl ihr =>
    rw [forall_compare] at ht
    rw [eval]
    exact Answer.env_andThen (ihl ht.2.1 henv) fun v => ihr ht.2.2 (ihl ht.2.1 henv)
  | assign op name v ih =>
    rw [forall_assign] at ht
    rw [eval]
    refine Answer.env_andThen (ih ht.2 henv) fun w => ?_
    unfold bindValue
    split
    · exact ih ht.2 henv
    · split
      · exact ih ht.2 henv
      · rename_i hset
        exact ht.1 _ _ _ (ih ht.2 henv) hset
  | call name f args ih =>
    rw [forall_call] at ht
    have hargs : P (evalAll args env).env :=
      evalAll_keeps (fun a ha _ => ih a ha (ht.2 a ha)) henv
    rw [eval]
    exact Answer.env_andThen hargs fun vs => ht.1 _ _ hargs
  | sequence a b iha ihb =>
    rw [forall_sequence] at ht
    rw [eval]
    exact Answer.env_andThen (iha ht.2.1 henv) fun v => ihb ht.2.2 (iha ht.2.1 henv)

end Term

/-! ## Slots -/

namespace Slot

/-- Whether the slot can keep a value of a kind. -/
def Admits (s : Slot) (k : Kind) : Prop := s.kind = none ∨ s.kind = some k

/-- A slot lets a kind pass if it admits it. -/
theorem check_eq_ok {s : Slot} {k : Kind} : s.check k = .ok () ↔ s.Admits k := by
  rcases s with ⟨v, _ | fixed⟩ <;> simp [check, Admits]

/-- A slot that admits a value keeps it, and its kind from then on. -/
theorem store_eq_ok {s t : Slot} {v : Value} :
    s.store v = .ok t ↔ s.Admits v.kind ∧ t = ⟨v, some v.kind⟩ := by
  rw [← check_eq_ok, store]
  cases s.check v.kind <;> simp [Except.map, eq_comm]

end Slot

/-- A slot that admits whatever is come to stays out of the way. -/
theorem Answer.fitting_of_admits {s : Slot} {a : Answer Value}
    (h : ∀ v, a.result = .ok v → s.Admits v.kind) : a.fitting s = a := by
  rcases a with ⟨e | v, env⟩
  · rfl
  · simp [fitting, pass, Except.bind, Slot.check_eq_ok.2 (h v rfl), Except.map]

/-- What passes a slot is admitted by it. -/
theorem Answer.fitting_eq_ok {s : Slot} {a : Answer Value} {v : Value} {env : Env} :
    a.fitting s = ⟨.ok v, env⟩ ↔ a = ⟨.ok v, env⟩ ∧ s.Admits v.kind := by
  rw [fitting, pass_eq_ok, ← Slot.check_eq_ok]
  constructor
  · rintro ⟨w, rfl, h⟩
    cases hs : s.check w.kind with
    | error e => simp [hs, Except.map] at h
    | ok u =>
      obtain rfl : w = v := by simpa [hs, Except.map] using h
      exact ⟨rfl, hs⟩
  · rintro ⟨rfl, h⟩
    exact ⟨v, rfl, by simp [h, Except.map]⟩

/-! ## Binding a variable -/

theorem Kind.checkTarget_eq_ok (name : String) {target : Option Kind} {k : Kind} :
    checkTarget name target k = .ok () ↔ target = none ∨ target = some k := by
  cases target <;> simp [checkTarget]

theorem Node.bindVariable_eq_ok {scope scope' : Scope} {name : String} {target : Option Kind}
    {s : Slot} {v : Value} : bindVariable scope name target s v = .ok scope' ↔
      s.Admits v.kind ∧ (target = none ∨ target = some v.kind) ∧
        scope.set name v = .ok scope' := by
  rw [← Slot.check_eq_ok, ← Kind.checkTarget_eq_ok name, bindVariable]
  cases s.check v.kind with
  | error e => simp [bind, Except.bind]
  | ok _ =>
    cases Kind.checkTarget name target v.kind <;> simp [bind, Except.bind]

theorem Node.bindVariable_of_admits {scope : Scope} {name : String} {target : Option Kind}
    {s : Slot} {v : Value} (hs : s.Admits v.kind) (ht : target = none ∨ target = some v.kind) :
    bindVariable scope name target s v = scope.set name v := by
  rw [bindVariable, Slot.check_eq_ok.2 hs, (Kind.checkTarget_eq_ok name).2 ht]
  rfl

/-! ## What a run comes to -/

namespace Outcome

/-- What a run comes to, without the tree that it leaves. -/
def answer (o : Outcome) : Answer Value := ⟨o.result, o.env⟩

end Outcome

namespace ArgsOutcome

/-- What running arguments comes to, without the trees that it leaves. -/
def answer (o : ArgsOutcome) : Answer (List Value) :=
  match o.fault with
  | some e => ⟨.error e, o.env⟩
  | none => ⟨.ok o.values, o.env⟩

end ArgsOutcome

namespace Node

theorem answer_commit (node : Slot → Node) (s : Slot) (env : Env) (r : Except Fault Value) :
    (commit node s env r).answer = Answer.fitting s ⟨r, env⟩ := by
  cases r with
  | error e => rfl
  | ok v =>
    rw [commit, Slot.store, Answer.fitting, Answer.pass]
    cases h : s.check v.kind <;> simp [h, Except.map, Except.bind, Outcome.answer]

theorem env_commit {node : Slot → Node} {s : Slot} {env : Env} {r : Except Fault Value} :
    (commit node s env r).env = env :=
  congrArg Answer.env (answer_commit node s env r)

/-- What a run of the tree comes to. -/
def answer (n : Node) (env : Env) : Answer Value := (execute n env).answer

/-- What running the arguments comes to. -/
def answerAll (ns : List Node) (env : Env) : Answer (List Value) := (executeAll ns env).answer

attribute [local simp] execute executeAll

theorem answer_literal (v : Value) (env : Env) : (literal v).answer env = ⟨.ok v, env⟩ := by
  simp [answer, Outcome.answer]

theorem answer_read (name : String) (c : Bool) (s : Slot) (env : Env) :
    (read name c s).answer env = Answer.fitting s ⟨readVariable env.scope name, env⟩ := by
  simp [answer, answer_commit]

theorem answer_logic (op : Connective) (l r : Node) (s : Slot) (env : Env) :
    (logic op l r s).answer env = Answer.fitting s
      (((l.answer env).pass (Value.asBool op.symbol)).andThen fun b env =>
        if b = op.absorbing then ⟨.ok (.boolean b), env⟩
        else ((r.answer env).pass (Value.asBool op.symbol)).map .boolean) := by
  rw [answer, execute]
  cases h : (execute l env).result.bind (Value.asBool op.symbol) with
  | error e => rw [Answer.andThen_error h]; rfl
  | ok b =>
    rw [Answer.andThen_ok h]
    by_cases hb : b = op.absorbing
    · simp only [if_pos hb]
      exact answer_commit ..
    · simp only [if_neg hb]
      exact answer_commit ..

theorem answer_not (a : Node) (s : Slot) (env : Env) :
    (not a s).answer env =
      Answer.fitting s (((a.answer env).pass (Value.asBool "!")).map fun b => .boolean !b) := by
  simp only [answer, execute, answer_commit]
  rfl

theorem answer_sign (g : Sign) (a : Node) (s : Slot) (env : Env) :
    (sign g a s).answer env = Answer.fitting s ((a.answer env).pass (applySign g)) := by
  rw [answer, execute, answer_commit]
  rfl

theorem answer_arith (op : ArithOp) (l r : Node) (s : Slot) (env : Env) :
    (arith op l r s).answer env = Answer.fitting s
      ((l.answer env).andThen fun v env => (r.answer env).pass fun w => v.arith op w) := by
  rw [answer, execute]
  cases h : (execute l env).result with
  | error e => rw [Answer.andThen_error h]; rfl
  | ok v => rw [Answer.andThen_ok h]; exact answer_commit ..

theorem answer_compare (op : CompareOp) (l r : Node) (s : Slot) (env : Env) :
    (compare op l r s).answer env = Answer.fitting s
      ((l.answer env).andThen fun v env =>
        ((r.answer env).pass fun w => v.compare op w).map .boolean) := by
  rw [answer, execute]
  cases h : (execute l env).result with
  | error e => rw [Answer.andThen_error h]; rfl
  | ok v => rw [Answer.andThen_ok h]; exact answer_commit ..

theorem answer_call (name : String) (f : Overload) (args : List Node) (b : Buffer) (s : Slot)
    (env : Env) : (call name f args b s).answer env =
      Answer.fitting s ((answerAll args env).andThen (Term.callFunction f)) := by
  rw [answer, execute_call, answerAll, ArgsOutcome.answer]
  cases h : (executeAll args env).fault with
  | some e => rfl
  | none => exact answer_commit ..

theorem answer_sequence (a b : Node) (s : Slot) (env : Env) :
    (sequence a b s).answer env =
      Answer.fitting s ((a.answer env).andThen fun _ env => b.answer env) := by
  rw [answer, execute]
  cases h : (execute a env).result with
  | error e => rw [Answer.andThen_error h]; rfl
  | ok v => rw [Answer.andThen_ok h]; exact answer_commit ..

theorem answerAll_cons (n : Node) (ns : List Node) (env : Env) :
    answerAll (n :: ns) env =
      (n.answer env).andThen fun v env => (answerAll ns env).map (v :: ·) := by
  rw [answerAll, executeAll]
  cases h : (execute n env).result with
  | error e => rw [Answer.andThen_error h]; rfl
  | ok v =>
    rw [Answer.andThen_ok h]
    simp only [ArgsOutcome.answer, answerAll, answer, Outcome.answer]
    cases (executeAll ns (execute n env).env).fault <;> rfl

theorem answer_assign (op : AssignOp) (name : String) (target : Option Kind) (v : Node)
    (s : Slot) (env : Env) :
    (assign op name target v s).answer env = (v.answer env).andThen fun w env =>
      match assigned op env.scope name w with
      | .error e => ⟨.error e, env⟩
      | .ok u =>
        match bindVariable env.scope name target s u with
        | .error e => ⟨.error e, env⟩
        | .ok scope => ⟨.ok u, { env with scope }⟩ := by
  rw [answer, execute]
  cases h : (execute v env).result with
  | error e => rw [Answer.andThen_error h]; rfl
  | ok w =>
    rw [Answer.andThen_ok h]
    simp only [Except.bind, answer, Outcome.answer]
    cases assigned op (execute v env).env.scope name w with
    | error e => rfl
    | ok u =>
      simp only
      cases hb : bindVariable (execute v env).env.scope name target s u with
      | error e => rfl
      | ok scope =>
        refine (answer_commit ..).trans (Answer.fitting_of_admits fun u' hu => ?_)
        obtain rfl : u = u' := by simpa using hu
        exact (bindVariable_eq_ok.1 hb).1

/-! ## A value is what the term means -/

theorem evalAll_of_answerAll_ok {ns : List Node} {env env' : Env} {vs : List Value}
    (ih : ∀ n ∈ ns, ∀ {env env' : Env} {v : Value},
      n.answer env = ⟨.ok v, env'⟩ → n.term.eval env = ⟨.ok v, env'⟩)
    (h : answerAll ns env = ⟨.ok vs, env'⟩) : Term.evalAll (terms ns) env = ⟨.ok vs, env'⟩ := by
  induction ns generalizing env vs with
  | nil => exact h
  | cons n ns ihs =>
    rw [answerAll_cons, Answer.andThen_eq_ok] at h
    obtain ⟨w, env₁, hn, hs⟩ := h
    obtain ⟨ws, hws, rfl⟩ := Answer.map_eq_ok.1 hs
    rw [terms, Term.evalAll]
    exact Answer.andThen_eq_ok.2 ⟨w, env₁, ih n (by simp) hn,
      Answer.map_eq_ok.2 ⟨ws, ihs (fun m hm => ih m (by simp [hm])) hws, rfl⟩⟩

/-- Slots can only refuse a value : if a run comes to one, so does the term. -/
theorem eval_of_answer_ok {n : Node} {env env' : Env} {v : Value}
    (h : n.answer env = ⟨.ok v, env'⟩) : n.term.eval env = ⟨.ok v, env'⟩ := by
  induction n generalizing env env' v with
  | literal u => rwa [answer_literal] at h
  | read name c s =>
    rw [answer_read, Answer.fitting_eq_ok] at h
    exact h.1
  | logic op l r s ihl ihr =>
    rw [answer_logic, Answer.fitting_eq_ok, Answer.andThen_eq_ok] at h
    obtain ⟨⟨b, env₁, hl, hr⟩, -⟩ := h
    obtain ⟨a, hl, ha⟩ := Answer.pass_eq_ok.1 hl
    rw [term, Term.eval, ihl hl, Answer.andThen_eq_ok]
    refine ⟨b, env₁, Answer.pass_eq_ok.2 ⟨a, rfl, ha⟩, ?_⟩
    split at hr
    · rwa [if_pos ‹_›]
    · rw [if_neg ‹_›]
      obtain ⟨c, hc, rfl⟩ := Answer.map_eq_ok.1 hr
      obtain ⟨w, hw, hc⟩ := Answer.pass_eq_ok.1 hc
      exact Answer.map_eq_ok.2 ⟨c, Answer.pass_eq_ok.2 ⟨w, ihr hw, hc⟩, rfl⟩
  | not a s ih =>
    rw [answer_not, Answer.fitting_eq_ok, Answer.map_eq_ok] at h
    obtain ⟨⟨b, hb, rfl⟩, -⟩ := h
    obtain ⟨w, hw, hb⟩ := Answer.pass_eq_ok.1 hb
    rw [term, Term.eval]
    exact Answer.map_eq_ok.2 ⟨b, Answer.pass_eq_ok.2 ⟨w, ih hw, hb⟩, rfl⟩
  | sign g a s ih =>
    rw [answer_sign, Answer.fitting_eq_ok, Answer.pass_eq_ok] at h
    obtain ⟨⟨w, h, hw⟩, -⟩ := h
    exact Answer.pass_eq_ok.2 ⟨w, ih h, hw⟩
  | arith op l r s ihl ihr =>
    rw [answer_arith, Answer.fitting_eq_ok, Answer.andThen_eq_ok] at h
    obtain ⟨⟨a, env₁, hl, hr⟩, -⟩ := h
    obtain ⟨b, hr, hv⟩ := Answer.pass_eq_ok.1 hr
    exact Answer.andThen_eq_ok.2 ⟨a, env₁, ihl hl, Answer.pass_eq_ok.2 ⟨b, ihr hr, hv⟩⟩
  | compare op l r s ihl ihr =>
    rw [answer_compare, Answer.fitting_eq_ok, Answer.andThen_eq_ok] at h
    obtain ⟨⟨a, env₁, hl, hr⟩, -⟩ := h
    obtain ⟨c, hc, rfl⟩ := Answer.map_eq_ok.1 hr
    obtain ⟨b, hb, hc⟩ := Answer.pass_eq_ok.1 hc
    rw [term, Term.eval]
    exact Answer.andThen_eq_ok.2
      ⟨a, env₁, ihl hl, Answer.map_eq_ok.2 ⟨c, Answer.pass_eq_ok.2 ⟨b, ihr hb, hc⟩, rfl⟩⟩
  | assign op name target e s ih =>
    rw [answer_assign, Answer.andThen_eq_ok] at h
    obtain ⟨w, env₁, he, h⟩ := h
    refine Answer.andThen_eq_ok.2 ⟨w, env₁, ih he, ?_⟩
    rw [Term.bindValue]
    cases hu : assigned op env₁.scope name w with
    | error e => simp [hu] at h
    | ok u =>
      cases hb : bindVariable env₁.scope name target s u with
      | error e => simp [hu, hb] at h
      | ok scope => simpa [hu, hb, (bindVariable_eq_ok.1 hb).2.2] using h
  | call name f args b s ih =>
    rw [answer_call, Answer.fitting_eq_ok, Answer.andThen_eq_ok] at h
    obtain ⟨⟨vs, env₁, ha, h⟩, -⟩ := h
    exact Answer.andThen_eq_ok.2 ⟨vs, env₁, evalAll_of_answerAll_ok ih ha, h⟩
  | sequence a b s iha ihb =>
    rw [answer_sequence, Answer.fitting_eq_ok, Answer.andThen_eq_ok] at h
    obtain ⟨⟨u, env₁, ha, hb⟩, -⟩ := h
    exact Answer.andThen_eq_ok.2 ⟨u, env₁, iha ha, ihb hb⟩

end Node

end Formula

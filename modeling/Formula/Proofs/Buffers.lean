import Formula.Proofs.Sessions
import Formula.Proofs.Term
import Mathlib

/-!
# Kept buffers

A call that keeps its buffer may find there what an earlier run has left, arguments of a call
that was never made among them. It empties the buffer before it puts anything in, so what it
finds makes no difference : a run of a tree and one of the tree that makes its buffers anew
(`Node.freshBuffers`) come to the same result in the same surroundings, and leave trees that
differ in their buffers only (`Node.execute_freshBuffers`).

So it is with any number of runs, and an expression that keeps its buffers shows a host nothing
else than one that does not (`Compiler.shown_runs_configureNoAlloc`).
-/

namespace Formula

namespace Node

mutual

/-- The tree whose calls make their buffers anew. -/
def freshBuffers : Node → Node
  | literal v => literal v
  | read name c s => read name c s
  | logic op l r s => logic op (freshBuffers l) (freshBuffers r) s
  | not a s => not (freshBuffers a) s
  | sign g a s => sign g (freshBuffers a) s
  | arith op l r s => arith op (freshBuffers l) (freshBuffers r) s
  | compare op l r s => compare op (freshBuffers l) (freshBuffers r) s
  | assign op name t v s => assign op name t (freshBuffers v) s
  | call name f args _ s => call name f (allFreshBuffers args) .fresh s
  | sequence a b s => sequence (freshBuffers a) (freshBuffers b) s

/-- The trees whose calls make their buffers anew. -/
def allFreshBuffers : List Node → List Node
  | [] => []
  | n :: ns => freshBuffers n :: allFreshBuffers ns

end

@[simp] theorem last_freshBuffers (n : Node) : n.freshBuffers.last = n.last := by
  cases n <;> rfl

@[simp] theorem kind?_freshBuffers (n : Node) : n.freshBuffers.kind? = n.kind? := by
  cases n <;> rfl

theorem allFreshBuffers_keepAllBuffers {ns : List Node}
    (ih : ∀ n ∈ ns, n.keepBuffers.freshBuffers = n.freshBuffers) :
    allFreshBuffers (keepAllBuffers ns) = allFreshBuffers ns := by
  induction ns with
  | nil => rfl
  | cons n ns ihs =>
    rw [List.forall_mem_cons] at ih
    rw [keepAllBuffers, allFreshBuffers, allFreshBuffers, ih.1, ihs ih.2]

/-- Keeping the buffers changes nothing else in a tree. -/
@[simp] theorem freshBuffers_keepBuffers (n : Node) :
    n.keepBuffers.freshBuffers = n.freshBuffers := by
  induction n with
  | literal v => rfl
  | read name c s => rfl
  | logic op l r s ihl ihr => simp only [keepBuffers, freshBuffers, ihl, ihr]
  | not a s ih => simp only [keepBuffers, freshBuffers, ih]
  | sign g a s ih => simp only [keepBuffers, freshBuffers, ih]
  | arith op l r s ihl ihr => simp only [keepBuffers, freshBuffers, ihl, ihr]
  | compare op l r s ihl ihr => simp only [keepBuffers, freshBuffers, ihl, ihr]
  | assign op name target a s ih => simp only [keepBuffers, freshBuffers, ih]
  | call name f args b s ih =>
    simp only [keepBuffers, freshBuffers, allFreshBuffers_keepAllBuffers ih]
  | sequence a b s iha ihb => simp only [keepBuffers, freshBuffers, iha, ihb]

end Node

/-! ## Runs -/

namespace Outcome

/-- The outcome with a tree whose calls make their buffers anew. -/
def freshBuffers (o : Outcome) : Outcome := { o with node := o.node.freshBuffers }

@[simp] theorem node_freshBuffers (o : Outcome) : o.freshBuffers.node = o.node.freshBuffers := rfl

@[simp] theorem env_freshBuffers (o : Outcome) : o.freshBuffers.env = o.env := rfl

@[simp] theorem result_freshBuffers (o : Outcome) : o.freshBuffers.result = o.result := rfl

end Outcome

/-- The outcome with trees whose calls make their buffers anew. -/
def ArgsOutcome.freshBuffers (o : ArgsOutcome) : ArgsOutcome :=
  { o with nodes := Node.allFreshBuffers o.nodes }

namespace Node

variable {env : Env}

theorem commit_freshBuffers {node node' : Slot → Node} (h : ∀ s, node' s = (node s).freshBuffers)
    (s : Slot) (r : Except Fault Value) :
    commit node' s env r = (commit node s env r).freshBuffers := by
  obtain rfl : node' = fun s => (node s).freshBuffers := funext h
  cases r with
  | error e => rfl
  | ok v =>
    rw [commit, commit]
    cases s.store v <;> rfl

theorem executeAll_freshBuffers {ns : List Node}
    (ih : ∀ n ∈ ns, ∀ env, n.freshBuffers.execute env = (n.execute env).freshBuffers) :
    executeAll (allFreshBuffers ns) env = (executeAll ns env).freshBuffers := by
  induction ns generalizing env with
  | nil => simp [executeAll, allFreshBuffers, ArgsOutcome.freshBuffers]
  | cons n ns ihs =>
    rw [List.forall_mem_cons] at ih
    rw [allFreshBuffers, executeAll, executeAll, ih.1]
    simp only [Outcome.result_freshBuffers, Outcome.node_freshBuffers, Outcome.env_freshBuffers,
      ihs ih.2]
    cases (n.execute env).result with
    | error e => simp only [ArgsOutcome.freshBuffers, allFreshBuffers]
    | ok v => simp only [ArgsOutcome.freshBuffers, allFreshBuffers]

/-- What a call finds in its buffer makes no difference to a run. -/
theorem execute_freshBuffers (n : Node) (env : Env) :
    n.freshBuffers.execute env = (n.execute env).freshBuffers := by
  induction n generalizing env with
  | literal v => simp [execute, freshBuffers, Outcome.freshBuffers]
  | read name c s =>
    rw [freshBuffers, execute]
    exact commit_freshBuffers (fun _ => by simp only [freshBuffers]) ..
  | logic op l r s ihl ihr =>
    rw [freshBuffers, execute, execute, ihl]
    simp only [Outcome.result_freshBuffers, Outcome.node_freshBuffers, Outcome.env_freshBuffers,
      ihr]
    cases (l.execute env).result.bind (Value.asBool op.symbol) with
    | error e => simp only [Outcome.freshBuffers, freshBuffers]
    | ok b =>
      by_cases hb : b = op.absorbing
      · simp only [if_pos hb]
        exact commit_freshBuffers (fun _ => by simp only [freshBuffers]) ..
      · simp only [if_neg hb]
        exact commit_freshBuffers (fun _ => by simp only [freshBuffers]) ..
  | not a s ih =>
    rw [freshBuffers, execute, execute, ih]
    exact commit_freshBuffers (fun _ => by simp only [freshBuffers, Outcome.node_freshBuffers]) ..
  | sign g a s ih =>
    rw [freshBuffers, execute, execute, ih]
    exact commit_freshBuffers (fun _ => by simp only [freshBuffers, Outcome.node_freshBuffers]) ..
  | arith op l r s ihl ihr =>
    rw [freshBuffers, execute, execute, ihl]
    simp only [Outcome.result_freshBuffers, Outcome.node_freshBuffers, Outcome.env_freshBuffers,
      ihr]
    cases (l.execute env).result with
    | error e => simp only [Outcome.freshBuffers, freshBuffers]
    | ok v => exact commit_freshBuffers (fun _ => by simp only [freshBuffers]) ..
  | compare op l r s ihl ihr =>
    rw [freshBuffers, execute, execute, ihl]
    simp only [Outcome.result_freshBuffers, Outcome.node_freshBuffers, Outcome.env_freshBuffers,
      ihr]
    cases (l.execute env).result with
    | error e => simp only [Outcome.freshBuffers, freshBuffers]
    | ok v => exact commit_freshBuffers (fun _ => by simp only [freshBuffers]) ..
  | assign op name target a s ih =>
    rw [freshBuffers, execute, execute, ih]
    simp only [Outcome.result_freshBuffers, Outcome.node_freshBuffers, Outcome.env_freshBuffers]
    cases (a.execute env).result.bind (assigned op (a.execute env).env.scope name) with
    | error e => simp only [Outcome.freshBuffers, freshBuffers]
    | ok v =>
      simp only
      cases bindVariable (a.execute env).env.scope name target s v with
      | error e => simp only [Outcome.freshBuffers, freshBuffers]
      | ok scope => exact commit_freshBuffers (fun _ => by simp only [freshBuffers]) ..
  | call name f args b s ih =>
    -- both calls start from an empty buffer and put the same arguments in
    rw [freshBuffers, execute_call, execute_call, executeAll_freshBuffers ih]
    simp only [ArgsOutcome.freshBuffers]
    cases (executeAll args env).fault with
    | some e => simp only [Outcome.freshBuffers, freshBuffers, Buffer.hold]
    | none => exact commit_freshBuffers (fun _ => by simp only [freshBuffers, Buffer.clear,
        Buffer.hold]) ..
  | sequence a b s iha ihb =>
    rw [freshBuffers, execute, execute, iha]
    simp only [Outcome.result_freshBuffers, Outcome.node_freshBuffers, Outcome.env_freshBuffers,
      ihb]
    cases (a.execute env).result with
    | error e => simp only [Outcome.freshBuffers, freshBuffers]
    | ok v => exact commit_freshBuffers (fun _ => by simp only [freshBuffers]) ..

end Node

/-! ## Expressions -/

/-- What a run shows of itself and of the expression that it leaves : the result, the
surroundings with the calls that were made, the last value, and the kind as far as it is
known. -/
def Run.shown (r : Run) : Except Fault Value × Env × Value × Option Kind :=
  (r.result, r.env, r.expression.last, r.expression.kind?)

/-- Expressions that differ in their buffers only show the same in all their runs. -/
theorem Expression.shown_runs_congr {e e' : Expression} {history : History}
    {scopes : List Scope} (h : e'.root.freshBuffers = e.root.freshBuffers) :
    (e'.runs history scopes).map Run.shown = (e.runs history scopes).map Run.shown := by
  induction scopes generalizing e e' history with
  | nil => rfl
  | cons s ss ih =>
    have hrun : (e'.root.execute ⟨s, history⟩).freshBuffers =
        (e.root.execute ⟨s, history⟩).freshBuffers := by
      rw [← Node.execute_freshBuffers, h, Node.execute_freshBuffers]
    obtain ⟨hroot, henv, hresult⟩ := Outcome.mk.inj hrun
    have hroot' : (e'.execute ⟨s, history⟩).expression.root.freshBuffers =
        (e.execute ⟨s, history⟩).expression.root.freshBuffers := hroot
    have hshown : (e'.execute ⟨s, history⟩).shown = (e.execute ⟨s, history⟩).shown := by
      have hlast := congrArg Node.last hroot'
      have hkind := congrArg Node.kind? hroot'
      rw [Node.last_freshBuffers, Node.last_freshBuffers] at hlast
      rw [Node.kind?_freshBuffers, Node.kind?_freshBuffers] at hkind
      exact Prod.ext hresult (Prod.ext henv (Prod.ext hlast hkind))
    have henv' : (e'.execute ⟨s, history⟩).env.history = (e.execute ⟨s, history⟩).env.history :=
      congrArg Env.history henv
    rw [runs, runs, List.map_cons, List.map_cons, hshown, henv', ih hroot']

namespace Compiler

/-- Keeping the buffers changes nothing but the buffers. It can be asked for as soon as an
expression is compiled, optimized or not. Through any scopes, each run of the expression that
keeps its buffers then comes to the same result as the run of the one that does not, leaves the
same variables after the same calls, and both have the same last value and the same kind. -/
theorem shown_runs_configureNoAlloc {c : Compiler} {source : String} {scope : Scope}
    {e : Expression} (he : c.Yields source scope e) :
    ∃ kept, e.configureNoAlloc = .ok kept ∧ kept.noAlloc = true ∧
      ∀ history scopes,
        (kept.runs history scopes).map Run.shown = (e.runs history scopes).map Run.shown := by
  rw [he.eq_ofNode]
  exact ⟨_, rfl, rfl, fun history scopes =>
    Expression.shown_runs_congr (Node.freshBuffers_keepBuffers _)⟩

/-- An argument that fails after another has come in, a function that fails, and a value. -/
theorem shown_runs_configureNoAlloc_abs :
    ∃ e kept, (compile standard "abs(min(a, 10 / b))" .empty []).result = .ok e ∧
      e.configureNoAlloc = .ok kept ∧ kept.noAlloc = true ∧
      (kept.runs [] [.store (.ofList [("a", .integer 4), ("b", .integer 0)]),
          .store (.ofList [("a", .integer (-2147483648)), ("b", .integer 1)]),
          .store (.ofList [("a", .integer 4), ("b", .integer 5)])]).map Run.shown =
        (e.runs [] [.store (.ofList [("a", .integer 4), ("b", .integer 0)]),
          .store (.ofList [("a", .integer (-2147483648)), ("b", .integer 1)]),
          .store (.ofList [("a", .integer 4), ("b", .integer 5)])]).map Run.shown ∧
      (kept.runs [] [.store (.ofList [("a", .integer 4), ("b", .integer 0)]),
          .store (.ofList [("a", .integer (-2147483648)), ("b", .integer 1)]),
          .store (.ofList [("a", .integer 4), ("b", .integer 5)])]).map Run.result =
        [.error (.runtime (.divisionByZero .div)), .error (.runtime (.signOverflow .integer)),
          .ok (.integer 2)] := by
  have he : (compile standard "abs(min(a, 10 / b))" .empty []).result.map (fun e =>
      e.configureNoAlloc.map fun kept =>
        (kept.runs [] [.store (.ofList [("a", .integer 4), ("b", .integer 0)]),
          .store (.ofList [("a", .integer (-2147483648)), ("b", .integer 1)]),
          .store (.ofList [("a", .integer 4), ("b", .integer 5)])]).map Run.result) =
      .ok (.ok [.error (.runtime (.divisionByZero .div)),
        .error (.runtime (.signOverflow .integer)), .ok (.integer 2)]) := by cbv
  obtain ⟨e, he, hruns⟩ := Except.map_eq_ok.1 he
  obtain ⟨kept, hkept, hresults⟩ := Except.map_eq_ok.1 hruns
  obtain ⟨kept', hkept', hnoAlloc, hshown⟩ := shown_runs_configureNoAlloc (.inr ⟨[], he⟩)
  obtain rfl := Except.ok.inj (hkept.symm.trans hkept')
  exact ⟨e, kept, he, hkept, hnoAlloc, hshown [] _, hresults⟩

end Compiler

end Formula

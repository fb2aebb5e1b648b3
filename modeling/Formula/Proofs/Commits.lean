import Formula.Proofs.Pinning
import Formula.Proofs.Touching

/-!
# Assignments commit wholly or not at all

A run of a tree is made of runs of the nodes in it, one after the other (`Node.visits`). Where a
node that is run is an assignment and comes to a value, the store has that value under the name of
the variable from then on. There is nothing else that writes to the store, and so a run leaves
what it was given with these values bound in the order in which the assignments came to them
(`Node.scope_execute`), however it ends.

An assignment that fails has written nothing of its own and keeps the last value and the kind that
it had. All that it asks for, it asks for before it writes : once the variable is bound, its slot
takes the value (`Node.commitsWholly`).
-/

namespace Formula

theorem Variables.insertAll_append (vars : Variables) (bs cs : List (String × Value)) :
    vars.insertAll (bs ++ cs) = (vars.insertAll bs).insertAll cs := List.foldl_append

/-! ## The runs that a run is made of -/

namespace Node

/-- The tree at a place. The place is given by the way from the root, as the numbers of the
operands. -/
def at? (n : Node) : List Nat → Option Node
  | [] => some n
  | i :: path => (n.children[i]?).bind fun a => a.at? path

end Node

/-- A node that is run, the place at which it stands, and the surroundings in which it is run. -/
structure Visit where
  place : List Nat
  node : Node
  env : Env

namespace Visit

/-- What the run of the node comes to. -/
def outcome (v : Visit) : Outcome := v.node.execute v.env

/-- The same in a tree that has this one as an operand. -/
def under (i : Nat) (v : Visit) : Visit := { v with place := i :: v.place }

/-- The variable that is bound and its value, if the node is an assignment that comes to one. -/
def binding? (v : Visit) : Option (String × Value) :=
  match v.node, v.outcome.result with
  | .assign _ name _ _ _, .ok w => some (name, w)
  | _, _ => none

theorem binding?_of_error {v : Visit} {e : Fault} (h : v.outcome.result = .error e) :
    v.binding? = none := by
  rw [binding?, h]
  cases v.node <;> rfl

theorem binding?_of_ok {v : Visit} {op : AssignOp} {name : String} {target : Option Kind}
    {a : Node} {s : Slot} {w : Value} (hnode : v.node = .assign op name target a s)
    (h : v.outcome.result = .ok w) : v.binding? = some (name, w) := by
  rw [binding?, h, hnode]

/-- The runs that come next, if what comes before them has come to a value. -/
def next {α : Type} (before : Except Fault α) (vs : List Visit) : List Visit :=
  match before with
  | .ok _ => vs
  | .error _ => []

@[simp] theorem next_nil {α : Type} (before : Except Fault α) : next before [] = [] := by
  cases before <;> rfl

end Visit

namespace Node

mutual

/-- The runs that the run of a tree is made of, in the order in which they end : those of the
operands, as far as they are run, and then that of the root. -/
def visits : Node → Env → List Visit
  | literal v, env => [⟨[], literal v, env⟩]
  | read name c s, env => [⟨[], read name c s, env⟩]
  | logic op l r s, env =>
    let a := execute l env
    let second :=
      match a.result.bind (Value.asBool op.symbol) with
      | .error _ => []
      | .ok b => if b = op.absorbing then [] else (visits r a.env).map (.under 1)
    (visits l env).map (.under 0) ++ second ++ [⟨[], logic op l r s, env⟩]
  | not a s, env => (visits a env).map (.under 0) ++ [⟨[], not a s, env⟩]
  | sign g a s, env => (visits a env).map (.under 0) ++ [⟨[], sign g a s, env⟩]
  | arith op l r s, env =>
    let a := execute l env
    (visits l env).map (.under 0) ++ Visit.next a.result ((visits r a.env).map (.under 1)) ++
      [⟨[], arith op l r s, env⟩]
  | compare op l r s, env =>
    let a := execute l env
    (visits l env).map (.under 0) ++ Visit.next a.result ((visits r a.env).map (.under 1)) ++
      [⟨[], compare op l r s, env⟩]
  | assign op name target a s, env =>
    (visits a env).map (.under 0) ++ [⟨[], assign op name target a s, env⟩]
  | call name f args b s, env => visitsAll 0 args env ++ [⟨[], call name f args b s, env⟩]
  | sequence a b s, env =>
    let o := execute a env
    (visits a env).map (.under 0) ++ Visit.next o.result ((visits b o.env).map (.under 1)) ++
      [⟨[], sequence a b s, env⟩]

/-- The runs that running operands from the `i`-th on is made of, up to the first that fails. -/
def visitsAll (i : Nat) : List Node → Env → List Visit
  | [], _ => []
  | n :: ns, env =>
    let a := execute n env
    (visits n env).map (.under i) ++ Visit.next a.result (visitsAll (i + 1) ns a.env)

end

/-- The operands that a run comes to, as long as those before them come to values. -/
def reached : Node → Env → List Node
  | logic op l r _, env =>
    match (execute l env).result.bind (Value.asBool op.symbol) with
    | .error _ => [l]
    | .ok b => if b = op.absorbing then [l] else [l, r]
  | n, _ => n.children

variable {n : Node} {env : Env}

theorem visitsAll_singleton (i : Nat) (a : Node) :
    visitsAll i [a] env = (visits a env).map (.under i) := by
  simp [visitsAll]

theorem visitsAll_pair (i : Nat) (a b : Node) :
    visitsAll i [a, b] env = (visits a env).map (.under i) ++
      Visit.next (execute a env).result ((visits b (execute a env).env).map (.under (i + 1))) := by
  simp [visitsAll]

/-- The operands that are reached are run first, and then the root is. -/
theorem visits_eq : visits n env = visitsAll 0 (n.reached env) env ++ [⟨[], n, env⟩] := by
  cases n with
  | literal | read | call => rw [visits]; rfl
  | not | sign | assign =>
    rw [visits, reached, children, visitsAll_singleton]
    nofun
  | arith | compare | sequence =>
    rw [visits, reached, children, visitsAll_pair]
    nofun
  | logic op l r s =>
    rw [visits, reached]
    cases hl : (execute l env).result.bind (Value.asBool op.symbol) with
    | error e => simp [visitsAll_singleton]
    | ok b =>
      obtain ⟨v, hv, -⟩ := Except.bind_eq_ok.1 hl
      by_cases hb : b = op.absorbing
      · simp [hb, visitsAll_singleton]
      · simp [hb, visitsAll_pair, hv, Visit.next]

/-- An assignment that fails leaves the variables as its right side does. -/
theorem execute_assign_of_error {op : AssignOp} {name : String} {target : Option Kind} {a : Node}
    {s : Slot} {e : Fault} (h : (execute (assign op name target a s) env).result = .error e) :
    execute (assign op name target a s) env =
      ⟨assign op name target (execute a env).node s, (execute a env).env, .error e⟩ := by
  rw [execute] at h ⊢
  cases hw : (execute a env).result.bind (assigned op (execute a env).env.scope name) with
  | error e' =>
    rw [hw] at h
    rw [← h]
  | ok u =>
    simp only [hw] at h ⊢
    cases hb : bindVariable (execute a env).env.scope name target s u with
    | error e' =>
      rw [hb] at h
      rw [← h]
    | ok scope =>
      simp only [hb] at h
      -- the slot was asked before the variable was bound
      rw [commit_eq_ok.2 ⟨rfl, (bindVariable_eq_ok.1 hb).1, rfl, rfl⟩] at h
      cases h

theorem reached_prefix (n : Node) (env : Env) : n.reached env <+: n.children := by
  cases n with
  | logic op l r s =>
    rw [reached, children]
    split
    · exact ⟨[r], rfl⟩
    · split
      · exact ⟨[r], rfl⟩
      · exact List.prefix_refl _
  | _ => exact List.prefix_refl _

theorem executeAll_singleton (a : Node) (env : Env) :
    (executeAll [a] env).nodes = [(execute a env).node] ∧
    (executeAll [a] env).env = (execute a env).env := by
  rw [executeAll]
  cases (execute a env).result with
  | error e => exact ⟨rfl, rfl⟩
  | ok v => simp [executeAll]

theorem executeAll_pair_error {a b : Node} {e : Fault} (h : (execute a env).result = .error e) :
    (executeAll [a, b] env).nodes = [(execute a env).node, b] ∧
      (executeAll [a, b] env).env = (execute a env).env := by
  rw [executeAll, h]
  exact ⟨rfl, rfl⟩

theorem executeAll_pair_ok {a b : Node} {v : Value} (h : (execute a env).result = .ok v) :
    (executeAll [a, b] env).nodes =
        [(execute a env).node, (execute b (execute a env).env).node] ∧
      (executeAll [a, b] env).env = (execute b (execute a env).env).env := by
  obtain ⟨hnodes, henv⟩ := executeAll_singleton b (execute a env).env
  rw [executeAll, h]
  exact ⟨congrArg (_ :: ·) hnodes, henv⟩

theorem children_commit {node : Slot → Node} {as : List Node} (h : ∀ s, (node s).children = as)
    (s : Slot) (r : Except Fault Value) : (commit node s env r).node.children = as := by
  obtain ⟨s', -, hnode⟩ := node_commit node s env r
  rw [hnode, h]

/-- A run leaves the operands that it came to as running them leaves them, and the others as they
were. The variables are those that the operands leave, but for the one that an assignment
binds. -/
structure LeavesOperands (n : Node) (env : Env) : Prop where
  children : (execute n env).node.children =
    (executeAll (n.reached env) env).nodes ++ n.children.drop (n.reached env).length
  scope : ∀ t, (executeAll (n.reached env) env).env.scope = .store t →
    (execute n env).env.scope = .store (t.insertAll (Visit.binding? ⟨[], n, env⟩).toList)

namespace LeavesOperands

/-- The end of a run changes nothing but the slot. -/
theorem of_commit (node : Slot → Node) {s : Slot} {env₁ : Env} {r : Except Fault Value}
    (hrun : execute n env = commit node s env₁ r)
    (hchildren : ∀ s, (node s).children =
      (executeAll (n.reached env) env).nodes ++ n.children.drop (n.reached env).length)
    (hscope : (executeAll (n.reached env) env).env.scope = env₁.scope)
    (hbinding : Visit.binding? ⟨[], n, env⟩ = none) : n.LeavesOperands env where
  children := by
    rw [hrun]
    exact children_commit hchildren ..
  scope t ht := by
    rw [hrun, env_commit, hbinding, ← hscope]
    exact ht

/-- A run that stops at an operand that fails. -/
theorem of_error {m : Node} {env₁ : Env} {e : Fault} (hrun : execute n env = ⟨m, env₁, .error e⟩)
    (hchildren : m.children =
      (executeAll (n.reached env) env).nodes ++ n.children.drop (n.reached env).length)
    (hscope : (executeAll (n.reached env) env).env.scope = env₁.scope)
    (hbinding : Visit.binding? ⟨[], n, env⟩ = none) : n.LeavesOperands env where
  children := by rw [hrun, hchildren]
  scope t ht := by
    rw [hrun, hbinding, ← hscope]
    exact ht

/-- One operand is run, and its result is all that the root goes by. -/
theorem unary {node : Node → Slot → Node} {a : Node} {s : Slot}
    (f : Except Fault Value → Except Fault Value) (hchildren : ∀ a s, (node a s).children = [a])
    (hreached : (node a s).reached env = [a])
    (hrun : execute (node a s) env =
      commit (node (execute a env).node) s (execute a env).env (f (execute a env).result))
    (hbinding : Visit.binding? ⟨[], node a s, env⟩ = none) : (node a s).LeavesOperands env := by
  obtain ⟨hnodes, henv⟩ := executeAll_singleton a env
  refine of_commit _ hrun (fun _ => ?_) ?_ hbinding
  · rw [hreached, hnodes, hchildren, hchildren]
    rfl
  · rw [hreached, henv]

/-- Two operands are run, the second one if the first comes to a value. -/
theorem binary {node : Node → Node → Slot → Node} {l r : Node} {s : Slot}
    (f : Value → Except Fault Value → Except Fault Value)
    (hchildren : ∀ l r s, (node l r s).children = [l, r])
    (hreached : (node l r s).reached env = [l, r])
    (herror : ∀ e, (execute l env).result = .error e →
      execute (node l r s) env = ⟨node (execute l env).node r s, (execute l env).env, .error e⟩)
    (hok : ∀ v, (execute l env).result = .ok v → execute (node l r s) env =
      commit (node (execute l env).node (execute r (execute l env).env).node) s
        (execute r (execute l env).env).env (f v (execute r (execute l env).env).result))
    (hbinding : Visit.binding? ⟨[], node l r s, env⟩ = none) :
    (node l r s).LeavesOperands env := by
  cases hl : (execute l env).result with
  | error e =>
    obtain ⟨hnodes, henv⟩ := executeAll_pair_error (b := r) hl
    refine of_error (herror e hl) ?_ ?_ hbinding
    · rw [hreached, hnodes, hchildren, hchildren]
      rfl
    · rw [hreached, henv]
  | ok v =>
    obtain ⟨hnodes, henv⟩ := executeAll_pair_ok (b := r) hl
    refine of_commit _ (hok v hl) (fun _ => ?_) ?_ hbinding
    · rw [hreached, hnodes, hchildren, hchildren]
      rfl
    · rw [hreached, henv]

theorem logic {op : Connective} {l r : Node} {s : Slot} :
    (logic op l r s).LeavesOperands env := by
  obtain ⟨hnodes, henv⟩ := executeAll_singleton l env
  cases hl : (execute l env).result.bind (Value.asBool op.symbol) with
  | error e =>
    have hreached : (Node.logic op l r s).reached env = [l] := by rw [reached, hl]
    refine of_error (by rw [execute, hl]) ?_ ?_ rfl
    · rw [hreached, hnodes]
      rfl
    · rw [hreached, henv]
  | ok b =>
    obtain ⟨v, hv, -⟩ := Except.bind_eq_ok.1 hl
    by_cases hb : b = op.absorbing
    · have hreached : (Node.logic op l r s).reached env = [l] := by
        simp only [reached, hl, if_pos hb]
      have hrun : execute (.logic op l r s) env =
          commit (.logic op (execute l env).node r) s (execute l env).env (.ok (.boolean b)) := by
        simp only [execute, hl, if_pos hb]
      refine of_commit _ hrun (fun _ => ?_) ?_ rfl
      · rw [hreached, hnodes]
        rfl
      · rw [hreached, henv]
    · have hreached : (Node.logic op l r s).reached env = [l, r] := by
        simp only [reached, hl, if_neg hb]
      obtain ⟨hnodes, henv⟩ := executeAll_pair_ok (b := r) hv
      refine of_commit (.logic op (execute l env).node (execute r (execute l env).env).node)
        (by simp only [execute, hl, if_neg hb]; rfl) (fun _ => ?_) ?_ rfl
      · rw [hreached, hnodes]
        rfl
      · rw [hreached, henv]

theorem assign {op : AssignOp} {name : String} {target : Option Kind} {a : Node} {s : Slot} :
    (assign op name target a s).LeavesOperands env := by
  obtain ⟨hnodes, henv⟩ := executeAll_singleton a env
  cases hresult : (execute (.assign op name target a s) env).result with
  | error e =>
    exact of_error (execute_assign_of_error hresult) (congrArg (· ++ []) hnodes.symm)
      (congrArg Env.scope henv) (Visit.binding?_of_error hresult)
  | ok v =>
    obtain ⟨a', env₁, w, scope, ha, -, hb, henv', hnode⟩ :=
      execute_assign_ok.1 (execute_eq_iff.2 ⟨hresult, rfl, rfl⟩)
    have hleft : (executeAll [a] env).nodes = [a'] ∧ (executeAll [a] env).env = env₁ := by
      rw [hnodes, henv, ha]
      exact ⟨rfl, rfl⟩
    refine ⟨?_, fun t ht => ?_⟩
    · rw [hnode]
      exact congrArg (· ++ []) hleft.1.symm
    · have hscope : env₁.scope = .store t := hleft.2 ▸ ht
      have hset := (bindVariable_eq_ok.1 hb).2.2
      have hbinding : Visit.binding? ⟨[], .assign op name target a s, env⟩ = some (name, v) :=
        Visit.binding?_of_ok rfl hresult
      rw [hscope] at hset
      rw [henv', hbinding]
      exact (Except.ok.inj hset).symm

theorem call {name : String} {f : Overload} {args : List Node} {b : Buffer} {s : Slot} :
    (call name f args b s).LeavesOperands env := by
  have hdrop : args.drop args.length = [] := List.drop_length
  cases hfault : (executeAll args env).fault with
  | some e =>
    have hrun : execute (.call name f args b s) env =
        ⟨.call name f (executeAll args env).nodes (b.hold (executeAll args env).values) s,
          (executeAll args env).env, .error e⟩ := by
      simp only [execute_call, hfault]
    refine of_error hrun ?_ rfl rfl
    rw [reached, Node.children, Node.children, hdrop, List.append_nil]
    nofun
  | none =>
    have hrun := execute_call name f args b s env
    simp only [hfault] at hrun
    refine of_commit _ hrun (fun _ => ?_) rfl rfl
    rw [reached, Node.children, Node.children, hdrop, List.append_nil]
    nofun

end LeavesOperands

/-- Each form of nodes runs its operands in turn. -/
theorem leavesOperands (n : Node) (env : Env) : n.LeavesOperands env := by
  cases n with
  | literal v =>
    refine ⟨by rw [execute]; rfl, fun t ht => ?_⟩
    rw [execute]
    exact ht
  | read name c s =>
    have hrun : execute (read name c s) env =
        commit (read name c) s env (readVariable env.scope name) := by rw [execute]
    exact .of_commit _ hrun (fun _ => rfl) rfl rfl
  | logic op l r s => exact .logic
  | not a s =>
    exact .unary (fun r => (r.bind (Value.asBool "!")).map fun b => .boolean !b)
      (fun _ _ => rfl) rfl (by rw [execute]) rfl
  | sign g a s => exact .unary (·.bind (applySign g)) (fun _ _ => rfl) rfl (by rw [execute]) rfl
  | arith op l r s =>
    exact .binary (fun v r => r.bind fun w => v.arith op w) (fun _ _ _ => rfl) rfl
      (fun e he => by rw [execute, he]) (fun v hv => by rw [execute, hv]) rfl
  | compare op l r s =>
    exact .binary (fun v r => (r.bind fun w => v.compare op w).map .boolean) (fun _ _ _ => rfl) rfl
      (fun e he => by rw [execute, he]) (fun v hv => by rw [execute, hv]) rfl
  | assign op name target a s => exact .assign
  | call name f args b s => exact .call
  | sequence a b s =>
    exact .binary (fun _ r => r) (fun _ _ _ => rfl) rfl
      (fun e he => by rw [execute, he]) (fun v hv => by rw [execute, hv]) rfl

/-- What holds of a tree if it holds of its operands holds of all trees. -/
theorem children_induction {P : Node → Prop} (h : ∀ n, (∀ a ∈ n.children, P a) → P n) :
    ∀ n, P n := by
  refine Node.induction ?_ ?_ ?_ ?_ ?_ ?_ ?_ ?_ ?_ ?_
  · exact fun v => h _ (by simp [children])
  · exact fun name c s => h _ (by simp [children])
  · exact fun op l r s hl hr => h _ (by simp [children, hl, hr])
  · exact fun a s ha => h _ (by simp [children, ha])
  · exact fun g a s ha => h _ (by simp [children, ha])
  · exact fun op l r s hl hr => h _ (by simp [children, hl, hr])
  · exact fun op l r s hl hr => h _ (by simp [children, hl, hr])
  · exact fun op name target a s ha => h _ (by simp [children, ha])
  · exact fun name f args b s hargs => h _ hargs
  · exact fun a b s ha hb => h _ (by simp [children, ha, hb])

/-! ## What is bound -/

/-- What the assignments bind that come to a value, in the order in which they do. -/
def bindings (vs : List Visit) : List (String × Value) := vs.filterMap Visit.binding?

/-- The run of the tree binds what its visits do. -/
def Binds (n : Node) : Prop := ∀ env s, env.scope = .store s →
  (execute n env).env.scope = .store (s.insertAll (bindings (n.visits env)))

theorem bindings_under (i : Nat) (vs : List Visit) :
    bindings (vs.map (.under i)) = bindings vs := by
  rw [bindings, List.filterMap_map]
  rfl

theorem bindings_append (vs ws : List Visit) :
    bindings (vs ++ ws) = bindings vs ++ bindings ws := List.filterMap_append

theorem scope_executeAll {ns : List Node} (h : ∀ n ∈ ns, n.Binds) (i : Nat) {s : Variables}
    (hs : env.scope = .store s) :
    (executeAll ns env).env.scope = .store (s.insertAll (bindings (visitsAll i ns env))) := by
  induction ns generalizing env i s with
  | nil => exact hs
  | cons n ns ih =>
    rw [List.forall_mem_cons] at h
    have hn := h.1 env s hs
    rw [executeAll, visitsAll, bindings_append, bindings_under, Variables.insertAll_append]
    cases (execute n env).result with
    | error e => exact hn
    | ok v => exact ih h.2 (i + 1) hn

/-- A run leaves the store that it was given, with the values of the assignments bound in turn. -/
theorem scope_execute (n : Node) : n.Binds := by
  induction n using children_induction with
  | h n ih =>
    intro env s hs
    have hreached : ∀ a ∈ n.reached env, a.Binds := fun a ha =>
      ih a ((n.reached_prefix env).subset ha)
    rw [(n.leavesOperands env).scope _ (scope_executeAll hreached 0 hs), visits_eq,
      bindings_append, Variables.insertAll_append]
    rfl

/-! ## Where the runs are -/

/-- The runs of operands from the `i`-th on are those of single operands. -/
theorem mem_visitsAll {ns : List Node} {i : Nat} {v : Visit} (h : v ∈ visitsAll i ns env) :
    ∃ j a env₁ w, ns[j]? = some a ∧
      (executeAll ns env).nodes[j]? = some (execute a env₁).node ∧
        w ∈ a.visits env₁ ∧ v = w.under (i + j) := by
  induction ns generalizing env i with
  | nil => simp [visitsAll] at h
  | cons n ns ih =>
    rw [visitsAll, List.mem_append] at h
    rcases h with h | h
    · obtain ⟨w, hw, rfl⟩ := List.mem_map.1 h
      refine ⟨0, n, env, w, rfl, ?_, hw, rfl⟩
      rw [executeAll]
      cases (execute n env).result <;> rfl
    · cases hn : (execute n env).result with
      | error e => simp [hn, Visit.next] at h
      | ok v =>
        rw [hn] at h
        obtain ⟨j, a, env₁, w, hj, hnode, hw, rfl⟩ := ih h
        refine ⟨j + 1, a, env₁, w, hj, ?_, hw, by rw [Nat.add_right_comm, Nat.add_assoc]⟩
        rw [executeAll, hn]
        exact hnode

/-- A visit tells of the node that stands at its place, before the run and after it. -/
theorem at?_of_mem_visits (n : Node) : ∀ env, ∀ v ∈ n.visits env,
    n.at? v.place = some v.node ∧ (execute n env).node.at? v.place = some v.outcome.node := by
  induction n using children_induction with
  | h n ih =>
    intro env v hv
    rw [visits_eq, List.mem_append, List.mem_singleton] at hv
    rcases hv with hv | rfl
    · obtain ⟨j, a, env₁, w, hj, hnode, hw, rfl⟩ := mem_visitsAll hv
      have hlt : j < (n.reached env).length := (List.getElem?_eq_some_iff.1 hj).1
      have hchild : n.children[j]? = some a := by
        obtain ⟨rest, hrest⟩ := n.reached_prefix env
        rw [← hrest, List.getElem?_append_left hlt, hj]
      have hleft : (execute n env).node.children[j]? = some (execute a env₁).node := by
        rw [(n.leavesOperands env).children,
          List.getElem?_append_left (List.getElem?_eq_some_iff.1 hnode).1, hnode]
      obtain ⟨hbefore, hafter⟩ := ih a (List.mem_of_getElem? hchild) env₁ w hw
      rw [Nat.zero_add]
      exact ⟨(congrArg (Option.bind · _) hchild).trans hbefore,
        (congrArg (Option.bind · _) hleft).trans hafter⟩
    · exact ⟨rfl, rfl⟩

theorem nodup_places_visitsAll {ns : List Node}
    (h : ∀ n ∈ ns, ∀ env, ((visits n env).map Visit.place).Nodup) (i : Nat) (env : Env) :
    ((visitsAll i ns env).map Visit.place).Nodup := by
  induction ns generalizing env i with
  | nil => exact List.nodup_nil
  | cons n ns ih =>
    rw [List.forall_mem_cons] at h
    have hfirst : (((visits n env).map (.under i)).map Visit.place).Nodup := by
      have hplaces : ((visits n env).map (.under i)).map Visit.place =
          ((visits n env).map Visit.place).map (i :: ·) := by
        rw [List.map_map, List.map_map]
        rfl
      rw [hplaces]
      exact (h.1 env).map fun _ _ heq => (List.cons.inj heq).2
    rw [visitsAll]
    cases (execute n env).result with
    | error e => simpa [Visit.next] using hfirst
    | ok v =>
      rw [Visit.next, List.map_append, List.nodup_append]
      refine ⟨hfirst, ih h.2 (i + 1) _, fun place hp place' hp' => ?_⟩
      -- the operands are told apart by the first step of the way to them
      obtain ⟨v, hv, rfl⟩ := List.mem_map.1 hp
      obtain ⟨w, -, rfl⟩ := List.mem_map.1 hv
      obtain ⟨v', hv', rfl⟩ := List.mem_map.1 hp'
      obtain ⟨j, -, -, w', -, -, -, rfl⟩ := mem_visitsAll hv'
      intro heq
      have hhead := (List.cons.inj heq).1
      omega

/-- No node is run twice. -/
theorem nodup_places (n : Node) : ∀ env, ((n.visits env).map Visit.place).Nodup := by
  induction n using children_induction with
  | h n ih =>
    intro env
    have hreached : ((visitsAll 0 (n.reached env) env).map Visit.place).Nodup :=
      nodup_places_visitsAll (fun a ha => ih a ((n.reached_prefix env).subset ha)) 0 env
    rw [visits_eq, List.map_append, List.nodup_append]
    refine ⟨hreached, List.nodup_singleton _, fun place hp root hroot => ?_⟩
    obtain ⟨v, hv, rfl⟩ := List.mem_map.1 hp
    obtain ⟨j, -, -, w, -, -, -, rfl⟩ := mem_visitsAll hv
    obtain rfl := List.mem_singleton.1 hroot
    exact List.cons_ne_nil _ _

/-! ## Wholly or not at all -/

/-- The assignment either binds the variable to what it comes to and leaves the others as they are,
or writes nothing and keeps what it had. Once it has bound the variable, it comes to the value. -/
structure CommitsWholly (op : AssignOp) (name : String) (target : Option Kind) (a : Node)
    (s : Slot) (env : Env) : Prop where
  ok : ∀ v, (execute (assign op name target a s) env).result = .ok v →
    ∃ scope, (execute a env).env.scope.set name v = .ok scope ∧
      (∀ other, scope.get? other =
        if other = name then some v else (execute a env).env.scope.get? other) ∧
      (execute (assign op name target a s) env).env = { (execute a env).env with scope }
  error : ∀ e, (execute (assign op name target a s) env).result = .error e →
    (execute (assign op name target a s) env).env = (execute a env).env ∧
      (execute (assign op name target a s) env).node.memory = (assign op name target a s).memory
  final : ∀ w v scope, (execute a env).result = .ok w →
    assigned op (execute a env).env.scope name w = .ok v →
      bindVariable (execute a env).env.scope name target s v = .ok scope →
        (execute (assign op name target a s) env).result = .ok v

theorem commitsWholly (op : AssignOp) (name : String) (target : Option Kind) (a : Node)
    (s : Slot) (env : Env) : CommitsWholly op name target a s env where
  ok v hv := by
    obtain ⟨a', env₁, w, scope, ha, -, hb, henv, -⟩ :=
      execute_assign_ok.1 (execute_eq_iff.2 ⟨hv, rfl, rfl⟩)
    have hset := (bindVariable_eq_ok.1 hb).2.2
    rw [ha, henv]
    exact ⟨scope, hset, fun other => Scope.get?_of_set hset other, rfl⟩
  error e he := by
    rw [execute_assign_of_error he]
    exact ⟨rfl, rfl⟩
  final w v scope hw hv hb := by
    have hrun := execute_assign_ok.2 ⟨_, _, w, scope, execute_eq_iff.2 ⟨hw, rfl, rfl⟩, hv, hb,
      rfl, rfl⟩
    rw [hrun]

end Node

/-- Assignments commit wholly or not at all. A run in a store, be it the first or a later one, of
an expression that was optimized or not, and however it ends, leaves that store with the values of
the assignments that came to one bound to their variables, in the order in which they came to
them : a variable has the last value that an assignment to it came to, and without one it has what
it had. Every node is run once at most, and what the run of one comes to is what stands at its
place afterwards. -/
theorem Expression.execute_commits (e : Expression) (s : Variables) (history : History) :
    let run := e.execute ⟨.store s, history⟩
    let visits := e.root.visits ⟨.store s, history⟩
    let bindings := visits.filterMap Visit.binding?
    run.env.scope = .store (s.insertAll bindings) ∧
      (∀ name, run.env.scope.get? name = (bindings.reverse.lookup name).or (s.get? name)) ∧
      (visits.map Visit.place).Nodup ∧
      ∀ v ∈ visits, e.root.at? v.place = some v.node ∧
        run.expression.root.at? v.place = some v.outcome.node ∧
        ∀ op name target a slot, v.node = .assign op name target a slot →
          Node.CommitsWholly op name target a slot v.env := by
  have hscope : (e.execute ⟨.store s, history⟩).env.scope = _ := e.root.scope_execute _ s rfl
  refine ⟨hscope, fun name => ?_, e.root.nodup_places _, fun v hv => ?_⟩
  · rw [hscope]
    exact s.get?_insertAll _ name
  obtain ⟨hbefore, hafter⟩ := e.root.at?_of_mem_visits _ v hv
  exact ⟨hbefore, hafter, fun op name target a slot _ =>
    Node.commitsWholly op name target a slot v.env⟩

/-- The last assignment fails, and those before it stay. -/
theorem Expression.execute_commits_failing :
    ∃ e, Compiler.standard.compilePlain "a = 1; b = (a += 2); c = b + true" .empty = .ok e ∧
      (e.execute ⟨.store (.ofList [("a", .integer 5)]), []⟩).result.isOk = false ∧
      (e.execute ⟨.store (.ofList [("a", .integer 5)]), []⟩).env.scope =
        .store ((Variables.ofList [("a", .integer 5)]).insertAll
          [("a", .integer 1), ("a", .integer 3), ("b", .integer 3)]) ∧
      ∀ name, (e.execute ⟨.store (.ofList [("a", .integer 5)]), []⟩).env.scope.get? name =
        if name = "b" ∨ name = "a" then some (.integer 3) else
          (Variables.ofList [("a", .integer 5)]).get? name := by
  have hcompile :
      (Compiler.standard.compilePlain "a = 1; b = (a += 2); c = b + true" .empty).map (fun e =>
        ((e.execute ⟨.store (.ofList [("a", .integer 5)]), []⟩).result.isOk,
          (e.root.visits ⟨.store (.ofList [("a", .integer 5)]), []⟩).filterMap
            Visit.binding?)) =
      .ok (false, [("a", .integer 1), ("a", .integer 3), ("b", .integer 3)]) := by cbv
  obtain ⟨e, he, hrun⟩ := Except.map_eq_ok.1 hcompile
  obtain ⟨hfails, hbindings⟩ := Prod.mk.inj hrun
  obtain ⟨hscope, hget, -⟩ := e.execute_commits (.ofList [("a", .integer 5)]) []
  rw [hbindings] at hscope
  refine ⟨e, he, hfails, hscope, fun name => ?_⟩
  rw [hget, hbindings]
  by_cases hb : name = "b"
  · rw [hb]
    rfl
  · by_cases ha : name = "a"
    · rw [ha]
      rfl
    · have hnone : [("b", Value.integer 3), ("a", .integer 3), ("a", .integer 1)].lookup name =
          none := by simp [hb, ha]
      rw [if_neg (not_or.2 ⟨hb, ha⟩)]
      exact congrArg (Option.or · _) hnone

end Formula

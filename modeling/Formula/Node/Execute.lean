import Formula.Node.Typing
import Formula.Scope
import Formula.Value.Arithmetic
import Formula.Value.Comparison

/-!
# Running a tree

A run gives a value or a fault, the tree with what its nodes now keep, and the surroundings
as the run leaves them. Operands are run from left to right. The right side of `&&` and `||`
is run only if the left one does not decide, and the right side of an assignment is run
before the variable is read.

A node keeps a value only when its own run has come to an end : a fault leaves its slot as it
was, but not the slots of operands that were run before, nor the variables that they bound.

A call empties its buffer, puts its arguments there as they come in, hands over what is in the
buffer and empties it again. Where an argument fails, the ones before it stay in a buffer that
is kept.
-/

namespace Formula

/-- What a run reads and leaves behind : the variables, and the calls that were made. -/
structure Env where
  scope : Scope
  history : History

/-- What a run comes to. -/
structure Outcome where
  node : Node
  env : Env
  result : Except Fault Value

/-- What running the arguments of a call comes to. -/
structure ArgsOutcome where
  nodes : List Node
  env : Env
  /-- The values of the arguments, up to the first that failed. -/
  values : List Value
  /-- The fault of the first argument that failed. -/
  fault : Option Fault

namespace Node

/-- Ends the run of a node with a result, which its slot keeps if it can. -/
def commit (node : Slot → Node) (slot : Slot) (env : Env) : Except Fault Value → Outcome
  | .error e => ⟨node slot, env, .error e⟩
  | .ok v =>
    match slot.store v with
    | .error e => ⟨node slot, env, .error e⟩
    | .ok kept => ⟨node kept, env, .ok v⟩

/-- The value of a variable, or the fault of one that is not bound. -/
def readVariable (scope : Scope) (name : String) : Except Fault Value :=
  match scope.get? name with
  | some v => .ok v
  | none => .error (.runtime (.unbound name))

/-- The number with a sign in front. -/
def applySign : Sign → Value → Except Fault Value
  | .minus, v => v.negate
  | .plus, v => if v.isNumeric then .ok v else .error (.kind (.signOperand .plus v.kind))

/-- The value that an assignment binds, given the one on its right side. -/
def assigned (op : AssignOp) (scope : Scope) (name : String) (v : Value) :
    Except Fault Value :=
  match op.arith? with
  | none => .ok v
  | some op => (readVariable scope name).bind fun current => Value.arith op current v

/-- Binds the value of an assignment, if its kind is right. -/
def bindVariable (scope : Scope) (name : String) (target : Option Kind) (slot : Slot)
    (v : Value) : Except Fault Scope := do
  slot.check v.kind
  Kind.checkTarget name target v.kind
  scope.set name v

mutual

/-- Runs a tree. -/
def execute : Node → Env → Outcome
  | literal v, env => ⟨literal v, env, .ok v⟩
  | read name constant slot, env =>
    commit (read name constant) slot env (readVariable env.scope name)
  | logic op l r slot, env =>
    let a := execute l env
    match a.result.bind (Value.asBool op.symbol) with
    | .error e => ⟨logic op a.node r slot, a.env, .error e⟩
    | .ok b =>
      if b = op.absorbing then commit (logic op a.node r) slot a.env (.ok (.boolean b))
      else
        let c := execute r a.env
        commit (logic op a.node c.node) slot c.env
          ((c.result.bind (Value.asBool op.symbol)).map .boolean)
  | not a slot, env =>
    let a := execute a env
    commit (not a.node) slot a.env
      ((a.result.bind (Value.asBool "!")).map fun b => .boolean !b)
  | sign s a slot, env =>
    let a := execute a env
    commit (sign s a.node) slot a.env (a.result.bind (applySign s))
  | arith op l r slot, env =>
    let a := execute l env
    match a.result with
    | .error e => ⟨arith op a.node r slot, a.env, .error e⟩
    | .ok v =>
      let b := execute r a.env
      commit (arith op a.node b.node) slot b.env (b.result.bind fun w => v.arith op w)
  | compare op l r slot, env =>
    let a := execute l env
    match a.result with
    | .error e => ⟨compare op a.node r slot, a.env, .error e⟩
    | .ok v =>
      let b := execute r a.env
      commit (compare op a.node b.node) slot b.env
        ((b.result.bind fun w => v.compare op w).map .boolean)
  | assign op name target value slot, env =>
    let a := execute value env
    match a.result.bind (assigned op a.env.scope name) with
    | .error e => ⟨assign op name target a.node slot, a.env, .error e⟩
    | .ok v =>
      match bindVariable a.env.scope name target slot v with
      | .error e => ⟨assign op name target a.node slot, a.env, .error e⟩
      | .ok scope => commit (assign op name target a.node) slot { a.env with scope } (.ok v)
  | call name f args buffer slot, env =>
    let a := executeAll args env
    let given := buffer.clear.contents ++ a.values
    match a.fault with
    | some e => ⟨call name f a.nodes (buffer.hold given) slot, a.env, .error e⟩
    | none =>
      let answer := f.call a.env.history given
      commit (call name f a.nodes (buffer.hold given).clear) slot
        { a.env with history := answer.2 } answer.1
  | sequence first second slot, env =>
    let a := execute first env
    match a.result with
    | .error e => ⟨sequence a.node second slot, a.env, .error e⟩
    | .ok _ =>
      let b := execute second a.env
      commit (sequence a.node b.node) slot b.env b.result

/-- Runs the arguments of a call, up to the first that fails. -/
def executeAll : List Node → Env → ArgsOutcome
  | [], env => ⟨[], env, [], none⟩
  | n :: ns, env =>
    let a := execute n env
    match a.result with
    | .error e => ⟨a.node :: ns, a.env, [], some e⟩
    | .ok v =>
      let rest := executeAll ns a.env
      { rest with nodes := a.node :: rest.nodes, values := v :: rest.values }

end

/-- A call empties its buffer first, and so it passes on its own arguments only. -/
theorem execute_call (name : String) (f : Overload) (args : List Node) (b : Buffer) (s : Slot)
    (env : Env) : execute (call name f args b s) env =
      match (executeAll args env).fault with
      | some e =>
        ⟨call name f (executeAll args env).nodes (b.hold (executeAll args env).values) s,
          (executeAll args env).env, .error e⟩
      | none =>
        let answer := f.call (executeAll args env).env.history (executeAll args env).values
        commit (call name f (executeAll args env).nodes b.clear) s
          { (executeAll args env).env with history := answer.2 } answer.1 := by
  rw [execute]
  simp only [Buffer.contents_clear, List.nil_append, Buffer.clear_hold]

end Node

end Formula

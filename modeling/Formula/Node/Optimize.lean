import Formula.Node.Execute

/-!
# Optimizing a tree

A tree is reduced from the leaves up to one that does less when it is run. A subtree
whose value is fixed is run once, while compiling, and becomes a literal. A fault that this
brings up is a fault of compiling.

`&&` and `||` look at their operands first. An operand that is fixed and decides the result
replaces the whole, whatever the other one is. One that leaves the result to the other is
dropped if the other is known to be a truth value. A fixed operand that fails to be a truth
value is left as it is, since a run may never reach it.

A sign `+` in front of what is known to be a number is dropped, and so is a statement whose
value is fixed, if another comes after it.
-/

namespace Formula

/-- What reducing a tree comes to. -/
structure Reduction where
  result : Except Fault Node
  env : Env

/-- Goes on with the tree that a reduction has come to. -/
def Reduction.andThen (r : Reduction) (f : Node → Env → Reduction) : Reduction :=
  match r.result with
  | .error e => ⟨.error e, r.env⟩
  | .ok n => f n r.env

/-- What a look at an operand comes to. -/
structure Probe where
  /-- The truth value that the operand is fixed to, if it is. -/
  known : Option Bool
  node : Node
  env : Env

/-- What reducing the arguments of a call comes to. -/
structure ArgsReduction where
  result : Except Fault (List Node)
  env : Env

namespace Node

/-- Runs a tree whose value is fixed, and puts a literal in its place. -/
def fold (n : Node) (env : Env) : Reduction :=
  if n.isPrecomputable && !n.isLiteral then
    let o := n.execute env
    ⟨o.result.map literal, o.env⟩
  else ⟨.ok n, env⟩

/-- Looks at an operand that is fixed by running it. -/
def probe (n : Node) (env : Env) : Probe :=
  if n.isPrecomputable then
    let o := n.execute env
    match o.result with
    | .ok (.boolean b) => ⟨some b, o.node, o.env⟩
    | _ => ⟨none, o.node, o.env⟩
  else ⟨none, n, env⟩

/-- The operand beside one that leaves the result to it. `onRight` says where it stands. -/
def dropIdentity (op : Connective) (onRight : Bool) (slot : Slot) (other : Node) : Node :=
  if other.kind? = some .boolean then other
  else
    let fixed := literal (.boolean op.identity)
    if onRight then logic op fixed other slot else logic op other fixed slot

mutual

/-- Reduces a tree. -/
def optimize : Node → Env → Reduction
  | literal v, env => ⟨.ok (literal v), env⟩
  | read name constant slot, env => fold (read name constant slot) env
  | logic op l r slot, env =>
    let p := probe l env
    let q := probe r p.env
    if p.known = some op.absorbing ∨ q.known = some op.absorbing then
      ⟨.ok (literal (.boolean op.absorbing)), q.env⟩
    else if p.known.isSome && q.known.isSome then
      ⟨.ok (literal (.boolean op.identity)), q.env⟩
    else if l.isPrecomputable && r.isPrecomputable then
      fold (logic op p.node q.node slot) q.env
    else if p.known.isSome then
      (optimize r q.env).andThen fun r env => ⟨.ok (dropIdentity op true slot r), env⟩
    else if q.known.isSome then
      (optimize l q.env).andThen fun l env => ⟨.ok (dropIdentity op false slot l), env⟩
    else
      (if l.isPrecomputable then ⟨.ok p.node, q.env⟩ else optimize l q.env).andThen
        fun l env =>
          (if r.isPrecomputable then ⟨.ok q.node, env⟩ else optimize r env).andThen
            fun r env => ⟨.ok (logic op l r slot), env⟩
  | not a slot, env => (optimize a env).andThen fun a env => fold (not a slot) env
  | sign s a slot, env =>
    (optimize a env).andThen fun a env =>
      if a.isPrecomputable then fold (sign s a slot) env
      else if s = .plus ∧ a.isNumeric then ⟨.ok a, env⟩
      else ⟨.ok (sign s a slot), env⟩
  | arith op l r slot, env =>
    (optimize l env).andThen fun l env =>
      (optimize r env).andThen fun r env => fold (arith op l r slot) env
  | compare op l r slot, env =>
    (optimize l env).andThen fun l env =>
      (optimize r env).andThen fun r env => fold (compare op l r slot) env
  | assign op name target v slot, env =>
    (optimize v env).andThen fun v env => ⟨.ok (assign op name target v slot), env⟩
  | call name f args buffer slot, env =>
    let a := optimizeAll args env
    match a.result with
    | .error e => ⟨.error e, a.env⟩
    | .ok args => fold (call name f args buffer slot) a.env
  | sequence first second slot, env =>
    (optimize first env).andThen fun a env =>
      (optimize second env).andThen fun b env =>
        ⟨.ok (if a.isPrecomputable then b else sequence a b slot), env⟩

/-- Reduces the arguments of a call. -/
def optimizeAll : List Node → Env → ArgsReduction
  | [], env => ⟨.ok [], env⟩
  | n :: ns, env =>
    let a := optimize n env
    match a.result with
    | .error e => ⟨.error e, a.env⟩
    | .ok n =>
      let rest := optimizeAll ns a.env
      { rest with result := rest.result.map (n :: ·) }

end

end Node

end Formula

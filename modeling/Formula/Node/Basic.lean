import Formula.Function.Basic
import Formula.Role
import Formula.Value.Basic

/-!
# Trees

A compiled formula is a tree. Each node but a literal keeps in a slot the value of its last
successful run and the kind that its value has once that is known, which it may be before
the first run. From then on the node produces values of that kind only.

A call keeps its arguments in a buffer, which is either made anew for each call or kept from
one to the next.
-/

namespace Formula

/-- The last value of a node, and the kind of all its values once it is known. -/
structure Slot where
  value : Value
  kind : Option Kind
  deriving DecidableEq

namespace Slot

/-- The slot of a node that has not been run. -/
def ofKind (kind : Option Kind) : Slot := ⟨.null, kind⟩

/-- Whether a value of a kind can be kept. -/
def check (s : Slot) (produced : Kind) : Except Fault Unit :=
  match s.kind with
  | some fixed => if fixed = produced then .ok () else .error (.kind (.changed fixed produced))
  | none => .ok ()

/-- Keeps a value, which fixes the kind. -/
def store (s : Slot) (v : Value) : Except Fault Slot :=
  (s.check v.kind).map fun _ => ⟨v, some v.kind⟩

end Slot

/-- Where a call puts its arguments. -/
inductive Buffer where
  /-- In a buffer made for the call. -/
  | fresh
  /-- In a buffer that is kept, with what the last call left in it. -/
  | kept (values : List Value)
  deriving DecidableEq

namespace Buffer

/-- The values in the buffer. -/
def contents : Buffer → List Value
  | fresh => []
  | kept values => values

/-- The buffer with these values in it. -/
def hold (values : List Value) : Buffer → Buffer
  | fresh => fresh
  | kept _ => kept values

/-- The buffer, emptied. -/
def clear (b : Buffer) : Buffer := b.hold []

@[simp] theorem contents_clear (b : Buffer) : b.clear.contents = [] := by
  cases b <;> rfl

@[simp] theorem hold_hold (values values' : List Value) (b : Buffer) :
    (b.hold values').hold values = b.hold values := by
  cases b <;> rfl

@[simp] theorem clear_hold (values : List Value) (b : Buffer) :
    (b.hold values).clear = b.clear := hold_hold ..

/-- The buffer, kept from now on. -/
def keep : Buffer → Buffer
  | fresh => kept []
  | kept values => kept values

end Buffer

/-- A compiled formula. -/
inductive Node where
  | literal (value : Value)
  /-- A variable that is read. The value of a constant is known while compiling. -/
  | read (name : String) (constant : Bool) (slot : Slot)
  | logic (op : Connective) (left right : Node) (slot : Slot)
  | not (operand : Node) (slot : Slot)
  | sign (sign : Sign) (operand : Node) (slot : Slot)
  | arith (op : ArithOp) (left right : Node) (slot : Slot)
  | compare (op : CompareOp) (left right : Node) (slot : Slot)
  /-- A variable that is bound, and the kind of its values if that is fixed. -/
  | assign (op : AssignOp) (name : String) (target : Option Kind) (value : Node) (slot : Slot)
  | call (name : String) (function : Overload) (args : List Node) (buffer : Buffer)
      (slot : Slot)
  /-- Both are run, and the second gives the value. -/
  | sequence (first second : Node) (slot : Slot)

/-- What a node does, for inspection. -/
inductive Form where
  | literal
  | read
  | logic (op : Connective)
  | not
  | sign (sign : Sign)
  | arith
  | compare
  | assign
  | call
  | sequence
  deriving DecidableEq

namespace Node

/-- What the node does. -/
def form : Node → Form
  | literal _ => .literal
  | read .. => .read
  | logic op .. => .logic op
  | not .. => .not
  | sign s .. => .sign s
  | arith .. => .arith
  | compare .. => .compare
  | assign .. => .assign
  | call .. => .call
  | sequence .. => .sequence

/-- Whether the node is a literal. -/
def isLiteral : Node → Bool
  | literal _ => true
  | _ => false

/-- The value of the last successful run, and `null` before it. -/
def last : Node → Value
  | literal v => v
  | read _ _ s | logic _ _ _ s | not _ s | sign _ _ s | arith _ _ _ s | compare _ _ _ s
  | assign _ _ _ _ s | call _ _ _ _ s | sequence _ _ s => s.value

/-- The kind of the node's values, if it is known. -/
def kind? : Node → Option Kind
  | literal v => some v.kind
  | logic .. | not .. | compare .. => some .boolean
  | read _ _ s | sign _ _ s | arith _ _ _ s | assign _ _ _ _ s | call _ _ _ _ s
  | sequence _ _ s => s.kind

/-- Whether the node is known to produce numbers. -/
def isNumeric (n : Node) : Bool := n.kind?.any Kind.isNumeric

mutual

/-- Whether the value of the node is fixed while compiling : no variable but a constant is
read, none is bound, and every function called is pure. -/
def isPrecomputable : Node → Bool
  | literal _ => true
  | read _ constant _ => constant
  | logic _ l r _ => isPrecomputable l && isPrecomputable r
  | not a _ => isPrecomputable a
  | sign _ a _ => isPrecomputable a
  | arith _ l r _ => isPrecomputable l && isPrecomputable r
  | compare _ l r _ => isPrecomputable l && isPrecomputable r
  | assign .. => false
  | call _ f args _ _ => f.function.isPure && allPrecomputable args
  | sequence a b _ => isPrecomputable a && isPrecomputable b

/-- Whether the values of all the nodes are fixed while compiling. -/
def allPrecomputable : List Node → Bool
  | [] => true
  | n :: ns => isPrecomputable n && allPrecomputable ns

end

mutual

/-- The tree whose calls keep their buffers. -/
def keepBuffers : Node → Node
  | literal v => literal v
  | read name c s => read name c s
  | logic op l r s => logic op (keepBuffers l) (keepBuffers r) s
  | not a s => not (keepBuffers a) s
  | sign g a s => sign g (keepBuffers a) s
  | arith op l r s => arith op (keepBuffers l) (keepBuffers r) s
  | compare op l r s => compare op (keepBuffers l) (keepBuffers r) s
  | assign op name t v s => assign op name t (keepBuffers v) s
  | call name f args b s => call name f (keepAllBuffers args) b.keep s
  | sequence a b s => sequence (keepBuffers a) (keepBuffers b) s

/-- The trees whose calls keep their buffers. -/
def keepAllBuffers : List Node → List Node
  | [] => []
  | n :: ns => keepBuffers n :: keepAllBuffers ns

end

end Node

end Formula

import Formula.Node.Basic
import Formula.Value.Promotion

/-!
# What is known of kinds before a run

The kind of an operation follows from the kinds of its operands when both are known. A tree
is valid if no two kinds that are known are bound to clash when they meet.
-/

namespace Formula

namespace Kind

/-- The kind of an operation on operands of these kinds, if it is known and there is one. -/
def static? (a b : Option Kind) : Option Kind :=
  match a, b with
  | some a, some b => (promote a b).toOption
  | _, _ => none

/-- Whether operands of these kinds can meet, as far as they are known. -/
def checkMeeting (a b : Option Kind) : Except Fault Unit :=
  match a, b with
  | some a, some b => (promote a b).map fun _ => ()
  | _, _ => .ok ()

/-- Whether values of these kinds can be compared. -/
def checkComparison (op : CompareOp) (a b : Kind) : Except Fault Unit :=
  if a.isNumeric && b.isNumeric then (promote a b).map fun _ => ()
  else
    let comparable :=
      match a, b with
      | string, string => true
      | boolean, boolean => op.isEquality
      | null, _ | _, null => op.isEquality
      | _, _ => false
    if comparable then .ok () else .error (.kind (.incomparable op a b))

/-- Whether a truth value can be of the kind, as far as it is known. -/
def checkBoolean (symbol : String) : Option Kind → Except Fault Unit
  | some k => if k = boolean then .ok () else .error (.kind (.logicOperand symbol k))
  | none => .ok ()

/-- Whether a variable of a fixed kind can be bound to a value of another. -/
def checkTarget (name : String) (target : Option Kind) (produced : Kind) : Except Fault Unit :=
  match target with
  | some fixed =>
    if fixed = produced then .ok () else .error (.kind (.assigned name fixed produced))
  | none => .ok ()

/-- Whether a signed operand can be of the kind, as far as it is known. -/
def checkSign (sign : Sign) : Option Kind → Except Fault Unit
  | some k => if k.isNumeric then .ok () else .error (.kind (.signOperand sign k))
  | none => .ok ()

end Kind

namespace Node

/-- Whether an assignment can bind a value of the kind, as far as it is known. -/
def checkAssign (op : AssignOp) (name : String) (target value : Option Kind) :
    Except Fault Unit := do
  let produced ←
    match op.arith? with
    | none => .ok value
    | some _ => (Kind.checkMeeting target value).map fun _ => Kind.static? target value
  match produced with
  | some k => Kind.checkTarget name target k
  | none => .ok ()

mutual

/-- Finds the first clash of kinds that are known. -/
def validate : Node → Except Fault Unit
  | literal _ => .ok ()
  | read .. => .ok ()
  | logic op l r _ => do
    validate l
    validate r
    Kind.checkBoolean op.symbol l.kind?
    Kind.checkBoolean op.symbol r.kind?
  | not a _ => do
    validate a
    Kind.checkBoolean "!" a.kind?
  | sign s a _ => do
    validate a
    Kind.checkSign s a.kind?
  | arith _ l r _ => do
    validate l
    validate r
    Kind.checkMeeting l.kind? r.kind?
  | compare op l r _ => do
    validate l
    validate r
    match l.kind?, r.kind? with
    | some a, some b => Kind.checkComparison op a b
    | _, _ => .ok ()
  | assign op name target v _ => do
    validate v
    checkAssign op name target v.kind?
  | call _ _ args _ _ => validateAll args
  | sequence a b _ => do
    validate a
    validate b

/-- Finds the first clash in several trees. -/
def validateAll : List Node → Except Fault Unit
  | [] => .ok ()
  | n :: ns => do
    validate n
    validateAll ns

end

end Node

end Formula

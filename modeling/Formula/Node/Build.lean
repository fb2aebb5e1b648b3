import Formula.Element.Basic
import Formula.Literal
import Formula.Node.Typing
import Formula.Scope

/-!
# From postfix order to a tree

The elements are taken in order with a stack of finished trees. A literal or a variable is
put on the stack. An operator takes its operands from the stack, and a function as many as
it has arguments. At the end one tree has to be left.
-/

namespace Formula

/-- What a tree is built from, apart from the elements. -/
structure BuildContext where
  settings : Settings
  registry : Registry
  scope : Scope

namespace Node

/-- Takes one operand from the stack. -/
def pop (e : Element) : List Node → Except Fault (Node × List Node)
  | n :: stack => .ok (n, stack)
  | [] => .error (e.fault .missingOperand)

/-- Takes two operands from the stack, in the order of the text. -/
def popPair (e : Element) : List Node → Except Fault (Node × Node × List Node)
  | r :: l :: stack => .ok (l, r, stack)
  | _ => .error (e.fault .missingOperand)

/-- The literal of an element. Its role has to be that of one. -/
def ofLiteral (ctx : BuildContext) (e : Element) : Except Fault Node :=
  match e.role with
  | .literal kind => (e.token.literalValue ctx.settings kind).map literal
  | role => .error (e.fault (.notLiteral role))

/-- The variable of an element. Its kind is fixed if it is a constant, and in strict settings
if it is bound. -/
def ofName (ctx : BuildContext) (name : String) : Except Fault Node :=
  let bound := ctx.scope.get? name
  let constant := ctx.settings.isConstant name
  if constant && bound.isNone then .error (.config (.unboundConstant name))
  else
    let kind := if constant || ctx.settings.strict then bound.map Value.kind else none
    .ok (read name constant (.ofKind kind))

/-- An assignment of a value to what must be a variable, and not a constant. -/
def ofAssign (e : Element) (op : AssignOp) (value : Node) : Node → Except Fault Node
  | read name constant slot =>
    if constant then .error (e.fault (.targetConstant name))
    else
      let kind :=
        match op.arith? with
        | none => value.kind?
        | some _ => Kind.static? slot.kind value.kind?
      .ok (assign op name slot.kind value (.ofKind kind))
  | _ => .error (e.fault .targetNotVariable)

/-- A call with the arguments on the stack. -/
def ofCall (ctx : BuildContext) (e : Element) (stack : List Node) :
    Except Fault (List Node) :=
  match ctx.registry.resolve e.lexeme e.argc with
  | .error fault => .error fault
  | .ok f =>
    if stack.length < e.argc then .error (e.fault (.missingArguments e.argc))
    else
      let args := (stack.take e.argc).reverse
      .ok (call e.lexeme f args .fresh (.ofKind none) :: stack.drop e.argc)

/-- Takes in one element. -/
def build (ctx : BuildContext) (stack : List Node) (e : Element) : Except Fault (List Node) :=
  match e.role with
  | .literal _ => (ofLiteral ctx e).map (· :: stack)
  | .name => (ofName ctx e.lexeme).map (· :: stack)
  | .logic op => (popPair e stack).map fun (l, r, stack) =>
    logic op l r (.ofKind (some .boolean)) :: stack
  | .not => (pop e stack).map fun (a, stack) => not a (.ofKind (some .boolean)) :: stack
  | .sign s => (pop e stack).map fun (a, stack) =>
    sign s a (.ofKind (a.kind?.filter Kind.isNumeric)) :: stack
  | .arith op => (popPair e stack).map fun (l, r, stack) =>
    arith op l r (.ofKind (Kind.static? l.kind? r.kind?)) :: stack
  | .compare op => (popPair e stack).map fun (l, r, stack) =>
    compare op l r (.ofKind (some .boolean)) :: stack
  | .assign op =>
    match popPair e stack with
    | .error fault => .error fault
    | .ok (target, value, stack) => (ofAssign e op value target).map (· :: stack)
  | .function => ofCall ctx e stack
  | .semicolon => (popPair e stack).map fun (a, b, stack) =>
    sequence a b (.ofKind b.kind?) :: stack
  | .comma | .groupOpen | .callOpen | .close => .error (e.fault .unexpectedElement)

/-- The one tree that is left when the elements have been taken in. -/
def single (es : List Element) : List Node → Except Fault Node
  | [root] => .ok root
  | [] => .error (.syntactic ⟨1, ""⟩ .emptyExpression)
  | stack =>
    let line := (es.getLast?.map fun e => e.token.line).getD 1
    .error (.syntactic ⟨line, ""⟩ (.surplusOperands stack.length))

/-- The tree of elements in postfix order. -/
def ofPostfix (ctx : BuildContext) (es : List Element) : Except Fault Node :=
  match es.foldlM (build ctx) [] with
  | .error fault => .error fault
  | .ok stack => single es stack

end Node

end Formula

import Formula.Operator

/-!
# Roles

The role of a token is the part it plays in the formula. It settles what a symbol alone
leaves open : whether a `-` is a sign or a difference, whether a name is a variable or a
function, and whether a parenthesis groups or opens the arguments of a call.
-/

namespace Formula

/-- The kinds of literals. -/
inductive LiteralKind where
  | integer
  | float
  | string
  | boolean
  | null
  deriving DecidableEq

/-- The operators that bind a variable. -/
inductive AssignOp where
  /-- Binds the value itself. -/
  | set
  | add
  | sub
  | mul
  | div
  deriving DecidableEq

namespace AssignOp

/-- How the operator is written. -/
def symbol : AssignOp → String
  | set => "="
  | add => "+="
  | sub => "-="
  | mul => "*="
  | div => "/="

/-- The operation that combines the value of the variable with the new one. -/
def arith? : AssignOp → Option ArithOp
  | set => none
  | add => some .add
  | sub => some .sub
  | mul => some .mul
  | div => some .div

end AssignOp

/-- The part that a token plays. -/
inductive Role where
  | literal (kind : LiteralKind)
  /-- A name that is read. -/
  | name
  /-- A name with arguments after it. -/
  | function
  | sign (sign : Sign)
  | not
  | arith (op : ArithOp)
  | compare (op : CompareOp)
  | logic (op : Connective)
  | assign (op : AssignOp)
  | comma
  | semicolon
  /-- A parenthesis that groups. -/
  | groupOpen
  /-- A parenthesis that opens the arguments of a function. -/
  | callOpen
  | close
  deriving DecidableEq

/-- How operators of one precedence group. -/
inductive Associativity where
  | left
  | right
  /-- Not something that groups. -/
  | neither
  deriving DecidableEq

/-- What a literal of the kind is called. -/
def LiteralKind.label : LiteralKind → String
  | integer => "IntegerLiteral"
  | float => "FloatLiteral"
  | string => "StringLiteral"
  | boolean => "BooleanLiteral"
  | null => "NullLiteral"

namespace Role

/-- What the role is called. -/
def label : Role → String
  | literal kind => kind.label
  | name => "Variable"
  | function => "Function"
  | sign .plus => "Positive"
  | sign .minus => "Negative"
  | not => "Not"
  | arith .mul => "Multiply"
  | arith .div => "Divide"
  | arith .rem => "Modulo"
  | arith .add => "Add"
  | arith .sub => "Subtract"
  | compare .eq => "Equal"
  | compare .ne => "NotEqual"
  | compare .lt => "Less"
  | compare .gt => "Greater"
  | compare .le => "LessEqual"
  | compare .ge => "GreaterEqual"
  | logic .and => "And"
  | logic .or => "Or"
  | assign .set => "Assign"
  | assign .add => "AddAssign"
  | assign .sub => "SubtractAssign"
  | assign .mul => "MultiplyAssign"
  | assign .div => "DivideAssign"
  | comma => "Comma"
  | semicolon => "Semicolon"
  | groupOpen => "LeftParenthesis"
  | callOpen => "FunctionStartParenthesis"
  | close => "RightParenthesis"

/-- Whether the token is an operand by itself. -/
def isValue : Role → Bool
  | literal _ | name => true
  | _ => false

/-- Whether the token is one of the three parentheses. -/
def isParenthesis : Role → Bool
  | groupOpen | callOpen | close => true
  | _ => false

/-- Whether the token is one of the two opening parentheses. -/
def isOpen : Role → Bool
  | groupOpen | callOpen => true
  | _ => false

/-- Whether the token is neither an operand nor a parenthesis. -/
def isOperator (r : Role) : Bool := !r.isValue && !r.isParenthesis

/-- Whether the token stands in front of its one operand. -/
def isUnary : Role → Bool
  | sign _ | not => true
  | _ => false

/-- The precedence of what has none, below that of every operator. -/
def noPrecedence : Int := -1

/-- How tightly an operator binds. -/
def precedence : Role → Int
  | function | sign _ | not => 8
  | arith .mul | arith .div | arith .rem => 7
  | arith .add | arith .sub => 6
  | compare _ => 5
  | logic .and => 4
  | logic .or => 3
  | assign _ => 2
  | comma => 1
  | semicolon => 0
  | literal _ | name | groupOpen | callOpen | close => noPrecedence

/-- How operators of this role group with those of the same precedence. -/
def associativity : Role → Associativity
  | function | sign _ | not | assign _ => .right
  | arith _ | compare _ | logic _ | semicolon => .left
  | literal _ | name | comma | groupOpen | callOpen | close => .neither

/-- Whether an operand can come next, after the given token or at the start. -/
def expectsOperand : Option Role → Bool
  | none => true
  | some r => r.isOperator || r.isOpen

/-- Whether an operand starts with the token. -/
def startsOperand : Role → Bool
  | function | groupOpen => true
  | r => r.isValue

end Role

end Formula

import Formula.Fault
import Formula.Role
import Formula.Token.Basic

/-!
# Elements

An element is a token with its role. The role of a token is found from the role before it
and the token after it : a sign is an operator where an operand is expected, and a name is a
function when a parenthesis follows.
-/

namespace Formula

/-- A token with its role. -/
structure Element where
  token : Token
  role : Role
  /-- How many arguments a function has, once its arguments are closed, and zero before. -/
  argc : Nat
  deriving DecidableEq

namespace Token

/-- The place of the token. -/
def place (t : Token) : Place := ⟨t.line, t.lexeme⟩

/-- A fault at the token. -/
def fault (t : Token) (cause : SyntaxCause) : Fault := .syntactic t.place cause

end Token

namespace Role

/-- The role of an operator between two operands. -/
def ofInfix? : String → Option Role
  | "+" => some (arith .add)
  | "-" => some (arith .sub)
  | "*" => some (arith .mul)
  | "/" => some (arith .div)
  | "%" => some (arith .rem)
  | "==" => some (compare .eq)
  | "!=" => some (compare .ne)
  | "<" => some (compare .lt)
  | ">" => some (compare .gt)
  | "<=" => some (compare .le)
  | ">=" => some (compare .ge)
  | "&&" => some (logic .and)
  | "||" => some (logic .or)
  | "=" => some (assign .set)
  | "+=" => some (assign .add)
  | "-=" => some (assign .sub)
  | "*=" => some (assign .mul)
  | "/=" => some (assign .div)
  | _ => none

/-- The role of an operator in front of an operand. -/
def ofUnary? : String → Option Role
  | "+" => some (sign .plus)
  | "-" => some (sign .minus)
  | "!" => some not
  | _ => none

/-- The role of an operator token, where an operand is expected or not. -/
def ofOperator (t : Token) (operandNext : Bool) : Except Fault Role :=
  if operandNext then
    match ofUnary? t.lexeme with
    | some r => .ok r
    | none => .error (t.fault .missingLeftOperand)
  else if t.lexeme = "!" then .error (t.fault .notAfterOperand)
  else
    match ofInfix? t.lexeme with
    | some r => .ok r
    | none => .error (t.fault .unknownOperator)

/-- The role of a name, by its spelling and the token after it. -/
def ofIdentifier (lexeme : String) (next : Option Token) : Role :=
  match lexeme with
  | "true" | "false" => literal .boolean
  | "null" => literal .null
  | _ => if next.any fun t => t.kind == .leftParen then function else name

/-- The role of a token that is no operator. -/
def ofOperand (prior : Option Role) (t : Token) (next : Option Token) : Role :=
  match t.kind with
  | .integer => literal .integer
  | .float => literal .float
  | .string => literal .string
  | .identifier => ofIdentifier t.lexeme next
  | .leftParen => if prior = some function then callOpen else groupOpen
  | .rightParen => close
  | .comma => comma
  | .semicolon | .operator => semicolon

/-- The role of a token, after one with the role `prior` and before the token `next`. -/
def ofToken (prior : Option Role) (t : Token) (next : Option Token) : Except Fault Role :=
  if t.kind = .operator then ofOperator t (expectsOperand prior)
  else
    let r := ofOperand prior t next
    if r.startsOperand && !expectsOperand prior then .error (t.fault .missingOperator)
    else .ok r

end Role

namespace Element

/-- The elements of tokens that come after one with the role `prior`. -/
def classifyFrom (prior : Option Role) : List Token → Except Fault (List Element)
  | [] => .ok []
  | t :: ts =>
    match Role.ofToken prior t ts.head? with
    | .error e => .error e
    | .ok r => (classifyFrom (some r) ts).map (⟨t, r, 0⟩ :: ·)

/-- The elements of tokens. -/
def classify (ts : List Token) : Except Fault (List Element) := classifyFrom none ts

/-- The text of the element. -/
def lexeme (e : Element) : String := e.token.lexeme

/-- A fault at the element. -/
def fault (e : Element) (cause : SyntaxCause) : Fault := e.token.fault cause

end Element

end Formula

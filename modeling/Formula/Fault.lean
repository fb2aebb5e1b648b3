import Formula.Decimal.Reading
import Formula.Kind
import Formula.Role

/-!
# Faults

What can go wrong when a formula is compiled or run. A fault says what went wrong as a
cause, and a fault in the text of a formula also says where. Malformed text and literals
that do not fit are found while compiling, kind faults while compiling or running, and
runtime faults depend on the variables at hand.

Each family of causes has a last constructor for what a host reports in words of its own.
-/

namespace Formula

/-- A place in the text : a line, counted from one, and the piece of text that is there. -/
structure Place where
  line : UInt32
  lexeme : String
  deriving DecidableEq

/-- Why a text is not a formula. -/
inductive SyntaxCause where
  | missingExponent
  | unterminatedString
  | unexpectedCharacter
  | unknownEscape (c : Char)
  | danglingBackslash
  | missingOperator
  | notAfterOperand
  | missingLeftOperand
  | unknownOperator
  | strayComma
  | emptyArgument
  | unclosedParenthesis
  | unopenedParenthesis
  | unnamedCall
  | unexpectedElement
  | notLiteral (role : Role)
  | missingOperand
  | missingArguments (count : Nat)
  | targetNotVariable
  | targetConstant (name : String)
  | emptyExpression
  | surplusOperands (count : Nat)
  | malformedInteger
  | malformedFloat
  | malformedDecimal (reason : Decimal.Unreadable)
  | reported (text : String)
  deriving DecidableEq

/-- What a literal does not fit in. -/
inductive OverflowCause where
  | integer (bits : Nat)
  | float (bits : Nat)
  | decimal
  | reported (text : String)
  deriving DecidableEq

/-- Why kinds do not go together. -/
inductive KindCause where
  | notBoolean (what : String) (got : Kind)
  | notNumeric (got : Kind)
  | notNumericPair (left right : Kind)
  | mixed (left right : Kind)
  | arithOperands (op : ArithOp) (left right : Kind)
  | incomparable (op : CompareOp) (left right : Kind)
  | signOperand (sign : Sign) (got : Kind)
  | absOperand (got : Kind)
  | inconvertible (source target : Kind)
  | changed (fixed produced : Kind)
  | logicOperand (symbol : String) (got : Kind)
  | assigned (name : String) (fixed produced : Kind)
  | unknownFunction (name : String)
  | noOverload (name : String) (count : Nat)
  | reported (text : String)
  deriving DecidableEq

/-- Why a run does not come to a value. -/
inductive RuntimeCause where
  | overflow (kind : Kind) (op : ArithOp)
  | signOverflow (kind : Kind)
  | divisionByZero (op : ArithOp)
  | notDouble (decimal : String)
  | unbound (name : String)
  | sealed (name : String)
  | noBindings
  | reported (text : String)
  deriving DecidableEq

/-- How the engine is set up or used wrongly. -/
inductive ConfigCause where
  | unboundConstant (name : String)
  | alreadyExecuted
  | reported (text : String)
  deriving DecidableEq

/-- What can go wrong with a formula. -/
inductive Fault where
  | syntactic (place : Place) (cause : SyntaxCause)
  | overflow (place : Place) (cause : OverflowCause)
  | kind (cause : KindCause)
  | runtime (cause : RuntimeCause)
  | config (cause : ConfigCause)
  deriving DecidableEq

/-! ## Messages -/

/-- The cause in words, at a place with this lexeme. -/
def SyntaxCause.message (lexeme : String) : SyntaxCause → String
  | missingExponent => "invalid number exponent (expected digits)"
  | unterminatedString => "unterminated string literal"
  | unexpectedCharacter => "unexpected character '" ++ lexeme ++ "'"
  | unknownEscape c => "unknown escape sequence '\\" ++ String.singleton c ++ "'"
  | danglingBackslash => "dangling '\\' in string literal"
  | missingOperator => "missing operator before operand"
  | notAfterOperand => "'!' cannot follow an operand"
  | missingLeftOperand => "operator '" ++ lexeme ++ "' is missing its left operand"
  | unknownOperator => "unknown operator '" ++ lexeme ++ "'"
  | strayComma => "',' outside of a function argument list"
  | emptyArgument => "empty function argument"
  | unclosedParenthesis => "unbalanced '(': missing ')'"
  | unopenedParenthesis => "unbalanced ')': no matching '('"
  | unnamedCall => "function argument list without a function name"
  | unexpectedElement => "unexpected '" ++ lexeme ++ "'"
  | notLiteral role => role.label ++ " is not a literal"
  | missingOperand => "missing operand for '" ++ lexeme ++ "'"
  | missingArguments n => "'" ++ lexeme ++ "' expects " ++ toString n ++ " argument(s)"
  | targetNotVariable => "left side of '" ++ lexeme ++ "' must be a variable"
  | targetConstant name => "cannot assign to compile-time constant '" ++ name ++ "'"
  | emptyExpression => "empty expression"
  | surplusOperands n => toString n ++ " operands left without an operator"
  | malformedInteger => "malformed integer literal"
  | malformedFloat => "malformed floating point literal"
  | malformedDecimal reason => "malformed decimal literal: " ++ reason.message
  | reported text => text

/-- The cause in words. -/
def OverflowCause.message : OverflowCause → String
  | integer bits => "does not fit in a " ++ toString bits ++ "-bit integer"
  | float bits => "does not fit in a " ++ toString bits ++ "-bit float"
  | decimal => "does not fit in a decimal"
  | reported text => text

/-- The cause in words. -/
def KindCause.message : KindCause → String
  | notBoolean what got => "'" ++ what ++ "' expects Boolean, got " ++ got.name
  | notNumeric got => "expected numeric, got " ++ got.name
  | notNumericPair a b => "numeric operation on " ++ a.name ++ " and " ++ b.name
  | mixed a b =>
    "cannot mix " ++ a.name ++ " and " ++ b.name ++ " without an explicit conversion"
  | arithOperands op a b =>
    "operator '" ++ op.symbol ++ "' expects numeric operands, got " ++ a.name ++ " and " ++ b.name
  | incomparable op a b =>
    "operator '" ++ op.symbol ++ "' cannot compare " ++ a.name ++ " with " ++ b.name
  | signOperand sign got =>
    "unary '" ++ sign.symbol ++ "' expects a numeric operand, got " ++ got.name
  | absOperand got => "abs expects a numeric operand, got " ++ got.name
  | inconvertible a b => "cannot convert " ++ a.name ++ " to " ++ b.name
  | changed fixed produced =>
    "expression of kind " ++ fixed.name ++ " produced a " ++ produced.name ++ " value"
  | logicOperand symbol got =>
    "operator '" ++ symbol ++ "' expects Boolean operands, got " ++ got.name
  | assigned name fixed produced =>
    "cannot assign a " ++ produced.name ++ " value to '" ++ name ++ "' of kind " ++ fixed.name
  | unknownFunction name => "unknown function '" ++ name ++ "'"
  | noOverload name n => "no overload of '" ++ name ++ "' takes " ++ toString n ++ " argument(s)"
  | reported text => text

/-- The cause in words. -/
def RuntimeCause.message : RuntimeCause → String
  | overflow kind op => kind.name ++ " overflow in '" ++ op.symbol ++ "'"
  | signOverflow kind => kind.name ++ " overflow in unary '-'"
  | divisionByZero op => "division by zero in '" ++ op.symbol ++ "'"
  | notDouble text => "decimal " ++ text ++ " is not representable as f64"
  | unbound name => "variable '" ++ name ++ "' not found"
  | sealed name => "cannot assign '" ++ name ++ "' while compiling"
  | noBindings => "the empty scope cannot hold variables"
  | reported text => text

/-- The cause in words. -/
def ConfigCause.message : ConfigCause → String
  | unboundConstant name => "constant '" ++ name ++ "' has no value in the compile scope"
  | alreadyExecuted => "no-allocation mode must be configured before the first execution"
  | reported text => text

namespace Fault

/-- The fault in words. -/
def message : Fault → String
  | syntactic p cause =>
    "syntax error at line " ++ toString p.line ++ " near '" ++ p.lexeme ++ "': " ++
      cause.message p.lexeme
  | overflow p cause =>
    "overflow at line " ++ toString p.line ++ ": literal '" ++ p.lexeme ++ "' " ++ cause.message
  | kind cause => "type error: " ++ cause.message
  | runtime cause => "runtime error: " ++ cause.message
  | config cause => "config error: " ++ cause.message

/-- Whether the fault was found while reading the text. -/
def isSyntax : Fault → Bool
  | syntactic _ _ | overflow _ _ => true
  | _ => false

/-- Whether kinds did not go together. -/
def isKind : Fault → Bool
  | kind _ => true
  | _ => false

/-- Whether the fault depends on the variables at hand. -/
def isRuntime : Fault → Bool
  | runtime _ => true
  | _ => false

end Fault

end Formula

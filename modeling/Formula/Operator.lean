/-!
# Operators

The operators of the language, each family with its symbols. They appear in tokens, in
the tree, and in messages.
-/

namespace Formula

/-- The binary operators on numbers. -/
inductive ArithOp where
  | add
  | sub
  | mul
  | div
  /-- The remainder of a division that rounds toward zero. -/
  | rem
  deriving DecidableEq

/-- How the operator is written. -/
def ArithOp.symbol : ArithOp → String
  | add => "+"
  | sub => "-"
  | mul => "*"
  | div => "/"
  | rem => "%"

/-- The operators that compare two values. -/
inductive CompareOp where
  | eq
  | ne
  | lt
  | le
  | gt
  | ge
  deriving DecidableEq

namespace CompareOp

/-- How the operator is written. -/
def symbol : CompareOp → String
  | eq => "=="
  | ne => "!="
  | lt => "<"
  | le => "<="
  | gt => ">"
  | ge => ">="

/-- The two operators that ask for no order. -/
def isEquality : CompareOp → Bool
  | eq | ne => true
  | _ => false

/-- Whether the operator holds of two values in the given order. -/
def holds : CompareOp → Ordering → Bool
  | eq, o => o == .eq
  | ne, o => o != .eq
  | lt, o => o == .lt
  | le, o => o != .gt
  | gt, o => o == .gt
  | ge, o => o != .lt

/-- Whether the operator holds of two values with no order between them, as when one is
not a number : only `!=` does. -/
def holds? (op : CompareOp) : Option Ordering → Bool
  | some o => op.holds o
  | none => op == ne

end CompareOp

/-- The operators on truth values that may leave their right side alone. -/
inductive Connective where
  | and
  | or
  deriving DecidableEq

namespace Connective

/-- How the operator is written. -/
def symbol : Connective → String
  | and => "&&"
  | or => "||"

/-- The operand that decides the result whatever the other one is. -/
def absorbing : Connective → Bool
  | and => false
  | or => true

/-- The operand that leaves the result to the other one. -/
def identity (op : Connective) : Bool := !op.absorbing

theorem identity_ne_absorbing (op : Connective) : op.identity ≠ op.absorbing := by
  cases op <;> decide

end Connective

/-- The sign in front of a number. -/
inductive Sign where
  | plus
  | minus
  deriving DecidableEq

/-- How the sign is written. -/
def Sign.symbol : Sign → String
  | plus => "+"
  | minus => "-"

end Formula

/-!
# Tokens

A token is a piece of the text of a formula with its coarse kind. What part it plays is
settled later, from the tokens around it.
-/

namespace Formula

/-- The coarse kind of a token. -/
inductive TokenKind where
  /-- Decimal digits only. -/
  | integer
  /-- Digits with a fraction or an exponent. -/
  | float
  /-- A quoted string, with its quotes. -/
  | string
  /-- A name, or one of the words `true`, `false` and `null`. -/
  | identifier
  /-- A symbol between or in front of operands. -/
  | operator
  | leftParen
  | rightParen
  | comma
  | semicolon
  deriving DecidableEq, Hashable

/-- A piece of text. -/
structure Token where
  lexeme : String
  kind : TokenKind
  /-- The line on which the piece starts, counted from one. The count has 32 bits and starts over
  at zero behind its last number. -/
  line : UInt32
  deriving DecidableEq

namespace Token

/-- Whether two tokens are the same text of the same kind, on whatever lines. -/
def alike (a b : Token) : Bool := a.lexeme == b.lexeme && a.kind == b.kind

/-- A digest that like tokens share. -/
def digest (t : Token) : UInt64 := mixHash (hash t.lexeme) (hash t.kind)

end Token

end Formula

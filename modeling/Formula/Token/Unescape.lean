import Formula.Fault
import Formula.Token.Basic

/-!
# The text of a string literal

Between its quotes a string literal stands for itself, except that a backslash and the
character after it stand for one character.
-/

namespace Formula

/-- The character that a backslash and the given one stand for. -/
def escaped? : Char → Option Char
  | 'n' => some '\n'
  | 't' => some '\t'
  | 'r' => some '\r'
  | '\\' => some '\\'
  | '"' => some '"'
  | '\'' => some '\''
  | _ => none

/-- The characters that the inside of a literal stands for. -/
def unescapeChars : List Char → Except SyntaxCause (List Char)
  | [] => .ok []
  | '\\' :: [] => .error .danglingBackslash
  | '\\' :: c :: cs =>
    match escaped? c with
    | some d => (unescapeChars cs).map (d :: ·)
    | none => .error (.unknownEscape c)
  | c :: cs => (unescapeChars cs).map (c :: ·)

/-- The text that a string token stands for. Its first and last characters are the quotes. -/
def Token.unescape (t : Token) : Except Fault String :=
  match unescapeChars (t.lexeme.toList.drop 1).dropLast with
  | .ok cs => .ok (String.ofList cs)
  | .error cause => .error (.syntactic ⟨t.line, t.lexeme⟩ cause)

end Formula

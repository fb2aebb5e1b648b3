import Formula.Text.Hidden

/-!
# Quoted text

A text in a tree is written between double quotes. The double quote, the backslash and the
common controls have short escapes, and any other character that does not show is written
as its code point. The single quote needs no escape.
-/

namespace Formula.Text

/-- A character inside quotes. -/
def escape (c : Char) : String :=
  match c with
  | '\x00' => "\\0"
  | '\t' => "\\t"
  | '\r' => "\\r"
  | '\n' => "\\n"
  | '\\' => "\\\\"
  | '"' => "\\\""
  | c =>
    if shows c then String.singleton c
    else "\\u\x7b" ++ String.ofList (Nat.toDigits 16 c.toNat) ++ "\x7d"

/-- A text between quotes. -/
def quoted (s : String) : String :=
  "\"" ++ String.join (s.toList.map escape) ++ "\""

end Formula.Text

/-!
# Blanks around a text

A character is blank if Unicode says that it is white space. The blanks at both ends of a
text can be taken away.
-/

namespace Formula.Text

/-- Whether a character is white space. -/
def isBlank (c : Char) : Bool :=
  let n := c.toNat
  0x09 ≤ n && n ≤ 0x0d || n == 0x20 || n == 0x85 || n == 0xa0 || n == 0x1680 ||
    0x2000 ≤ n && n ≤ 0x200a || n == 0x2028 || n == 0x2029 || n == 0x202f || n == 0x205f ||
    n == 0x3000

/-- The characters without the blanks at the end. -/
def trimEndChars (cs : List Char) : List Char := (cs.reverse.dropWhile isBlank).reverse

/-- The text without the blanks at both ends. -/
def trimBlanks (s : String) : String :=
  String.ofList (trimEndChars (s.toList.dropWhile isBlank))

end Formula.Text

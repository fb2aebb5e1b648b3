import Formula.Node.Basic
import Formula.Text.Quoted

/-!
# The text of a tree

A tree is written with each operator in front of its operands, in parentheses. A string
stands between quotes, and any other literal is written as its value.
-/

namespace Formula.Node

/-- An operator or a function with its operands. -/
def application (head : String) (operands : List String) : String :=
  "(" ++ String.intercalate " " (head :: operands) ++ ")"

mutual

/-- The tree as text. -/
def render : Node → String
  | literal (.string s) => Text.quoted s
  | literal v => v.text
  | read name _ _ => name
  | logic op l r _ => application op.symbol [render l, render r]
  | not a _ => application "!" [render a]
  | sign s a _ => application s.symbol [render a]
  | arith op l r _ => application op.symbol [render l, render r]
  | compare op l r _ => application op.symbol [render l, render r]
  | assign op name _ v _ => application op.symbol [name, render v]
  | call name _ args _ _ => application name (renderAll args)
  | sequence a b _ => application ";" [render a, render b]

/-- The trees as texts. -/
def renderAll : List Node → List String
  | [] => []
  | n :: ns => render n :: renderAll ns

end

end Formula.Node

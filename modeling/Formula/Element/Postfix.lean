import Formula.Element.Basic
import Formula.Token.Scan

/-!
# Postfix order

In postfix order every operator comes after its operands, and there are no parentheses. An
operand goes to the output at once. An operator waits on a stack until one that binds less
tightly comes, or a parenthesis or the end closes its operands. An opening parenthesis on
the stack holds back what is below it.

A function goes to the output when its arguments are closed, with their number. That number
is counted in a frame for each open call : a comma ends an argument, and something must have
come since the comma before it.
-/

namespace Formula

/-- The arguments of an open call. -/
structure Frame where
  /-- How many arguments a comma has ended. -/
  ended : Nat
  /-- Whether something has come since the last comma. -/
  pending : Bool
  deriving DecidableEq

/-- Elements on their way to postfix order. -/
structure Sorting where
  /-- The elements in order, the latest first. -/
  output : List Element
  /-- The elements that wait, the latest first. -/
  waiting : List Element
  /-- The open calls, the innermost first. -/
  calls : List Frame
  deriving DecidableEq

namespace Sorting

/-- The start. -/
def empty : Sorting := ⟨[], [], []⟩

/-- Notes that something has come in the innermost call. -/
def touch (s : Sorting) : Sorting :=
  match s.calls with
  | [] => s
  | f :: fs => { s with calls := { f with pending := true } :: fs }

/-- Moves waiting elements to the output as long as they satisfy `p`. -/
def release (p : Element → Bool) (s : Sorting) : Sorting :=
  { s with
    output := (s.waiting.takeWhile p).reverse ++ s.output
    waiting := s.waiting.dropWhile p }

/-- Whether a waiting element goes to the output before one with the role `r` waits. -/
def yields (r : Role) (e : Element) : Bool :=
  !e.role.isParenthesis &&
    (r.precedence < e.role.precedence ||
      e.role.precedence == r.precedence && r.associativity == .left)

/-- Whether a waiting element is above every parenthesis. -/
def inside (e : Element) : Bool := !e.role.isParenthesis

/-- Puts an element to the waiting ones. -/
def push (e : Element) (s : Sorting) : Sorting := { s with waiting := e :: s.waiting }

/-- Puts an element to the output. -/
def emit (e : Element) (s : Sorting) : Sorting := { s with output := e :: s.output }

/-- Ends an argument. -/
def comma (e : Element) (s : Sorting) : Except Fault Sorting :=
  let s := s.release inside
  match s.waiting, s.calls with
  | top :: _, f :: fs =>
    if top.role = .callOpen then
      if f.pending then .ok { s with calls := ⟨f.ended + 1, false⟩ :: fs }
      else .error (e.fault .emptyArgument)
    else .error (e.fault .strayComma)
  | _, _ => .error (e.fault .strayComma)

/-- Closes the arguments of a call that `opening` has opened. -/
def closeCall (e opening : Element) (s : Sorting) : Except Fault Sorting :=
  let frame := s.calls.head?.getD ⟨0, false⟩
  let calls := s.calls.tail
  if 0 < frame.ended && !frame.pending then .error (e.fault .emptyArgument)
  else
    match s.waiting with
    | f :: fs =>
      if f.role = .function then
        let argc := frame.ended + if frame.pending then 1 else 0
        .ok ⟨{ f with argc := argc } :: s.output, fs, calls⟩
      else .error (opening.fault .unnamedCall)
    | [] => .error (opening.fault .unnamedCall)

/-- Closes a parenthesis. -/
def close (e : Element) (s : Sorting) : Except Fault Sorting :=
  let s := s.release inside
  match s.waiting with
  | [] => .error (e.fault .unopenedParenthesis)
  | opening :: rest =>
    let s := { s with waiting := rest }
    if opening.role = .callOpen then s.closeCall e opening else .ok s

/-- Takes in one element. -/
def step (s : Sorting) (e : Element) : Except Fault Sorting :=
  match e.role with
  | .comma => s.comma e
  | .close => s.close e
  | .callOpen => .ok { s.push e with calls := ⟨0, false⟩ :: s.calls }
  | .groupOpen | .function => .ok (s.touch.push e)
  | .literal _ | .name => .ok (s.touch.emit e)
  | r => .ok ((s.touch.release (yields r)).push e)

/-- The output once everything has been taken in. -/
def finish (s : Sorting) : Except Fault (List Element) :=
  let s := s.release inside
  match s.waiting with
  | [] => .ok s.output.reverse
  | top :: _ => .error (top.fault .unclosedParenthesis)

end Sorting

namespace Element

/-- The elements in postfix order. -/
def toPostfix (es : List Element) : Except Fault (List Element) :=
  match es.foldlM Sorting.step Sorting.empty with
  | .error e => .error e
  | .ok s => s.finish

/-- The elements of a text in postfix order. -/
def postfixOfText (source : String) : Except Fault (List Element) := do
  let tokens ← Token.scan source
  let elements ← classify tokens
  toPostfix elements

/-- The lexemes of a text in postfix order. -/
def postfixLexemes (source : String) : Except Fault (List String) :=
  (postfixOfText source).map (List.map lexeme)

end Element

end Formula

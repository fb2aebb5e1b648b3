import Formula.Binary.Nearly
import Formula.Value.Promotion

/-!
# Comparison of values

Numbers are compared in the kind in which they meet, exactly for whole numbers and decimals.
Floating point numbers have an exact order but an approximate equality. Strings are compared
character by character, truth values only for equality, and `null` equals only itself.
-/

namespace Formula

/-- The order of two floating point numbers, none if one of them is not a number. -/
def partialOrder {α : Type} [LT α] [DecidableLT α] [BEq α] (x y : α) : Option Ordering :=
  if x < y then some .lt
  else if x == y then some .eq
  else if y < x then some .gt
  else none

/-- The order of two strings, by the code points of their characters. -/
def stringOrder (s t : String) : Ordering :=
  if s < t then .lt else if s = t then .eq else .gt

namespace CompareOp

/-- Whether an equality operator agrees with two things being equal. -/
def agrees (op : CompareOp) (equal : Bool) : Bool := (op == eq) == equal

/-- The comparison of two numbers that have met. -/
def onPair (op : CompareOp) : Pair → Bool
  | .integers m n => op.holds (compare m.toInt n.toInt)
  | .longs m n => op.holds (compare m.toInt n.toInt)
  | .floats x y =>
    if op.isEquality then op.agrees (Binary.tolerance32.nearlyEqual x y)
    else op.holds? (partialOrder x y)
  | .doubles x y =>
    if op.isEquality then op.agrees (Binary.tolerance64.nearlyEqual x y)
    else op.holds? (partialOrder x y)
  | .decimals d e => op.holds (d.cmp e)

end CompareOp

namespace Value

/-- The comparison of two values. -/
def compare (op : CompareOp) (a b : Value) : Except Fault Bool :=
  if a.isNumeric && b.isNumeric then
    match align a b with
    | .error e => .error e
    | .ok p => .ok (op.onPair p)
  else
    let incomparable : Except Fault Bool :=
      .error (.kind (.incomparable op a.kind b.kind))
    match a, b with
    | string s, string t => .ok (op.holds (stringOrder s t))
    | boolean x, boolean y => if op.isEquality then .ok (op.agrees (x == y)) else incomparable
    | null, _ | _, null =>
      if op.isEquality then .ok (op.agrees (a.kind == b.kind)) else incomparable
    | _, _ => incomparable

end Value

end Formula

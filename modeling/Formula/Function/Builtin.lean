import Formula.Function.Basic
import Formula.Value.Arithmetic
import Formula.Value.Comparison

/-!
# The functions that are always there

`abs`, `min`, `max` and `clamp` keep to the kinds of their arguments. The extremes compare
in the kind in which all the arguments meet, and of equal arguments the first is taken.
`sin`, `cos`, `sqrt`, `pow` and `lerp` compute with 64-bit floating point numbers.
-/

namespace Formula

namespace Builtin

/-- The `i`-th argument, and `null` if there is none. -/
def arg (args : List Value) (i : Nat) : Value := args[i]?.getD .null

/-- The kind in which a value and others after it meet. -/
def meetAll (v : Value) (vs : List Value) : Except Fault Kind :=
  vs.foldlM (fun k w => Kind.promote k w.kind) v.kind

/-- The better of two values of a kind : the new one if the operator holds of it and the
best so far. -/
def better (op : CompareOp) (kind : Kind) (best v : Value) : Except Fault Value :=
  match v.convert kind with
  | .error e => .error e
  | .ok w =>
    match w.compare op best with
    | .error e => .error e
    | .ok b => .ok (if b then w else best)

/-- The best of a value and others after it. -/
def bestOf (op : CompareOp) (v : Value) (vs : List Value) : Except Fault Value :=
  match meetAll v vs with
  | .error e => .error e
  | .ok kind =>
    if !kind.isNumeric then .error (.kind (.notNumeric kind))
    else
      match v.convert kind with
      | .error e => .error e
      | .ok w => vs.foldlM (better op kind) w

/-- The best of the arguments. -/
def extreme (op : CompareOp) : List Value → Except Fault Value
  | [] => .error (.kind (.notNumeric .null))
  | v :: vs => bestOf op v vs

/-- The first argument, held between the other two. -/
def clamp (args : List Value) : Except Fault Value :=
  match extreme .gt (args.take 2) with
  | .error e => .error e
  | .ok v => extreme .lt [v, arg args 2]

/-- A function of one 64-bit number. -/
def onDouble (f : Float → Float) (args : List Value) : Except Fault Value :=
  (arg args 0).asDouble.map fun x => .double (f x)

/-- The first argument to the power of the second. -/
def pow (args : List Value) : Except Fault Value := do
  let x ← (arg args 0).asDouble
  let y ← (arg args 1).asDouble
  return .double (Float.pow x y)

/-- The number between the first two arguments at the fraction that the third says. -/
def lerp (args : List Value) : Except Fault Value := do
  let x ← (arg args 0).asDouble
  let y ← (arg args 1).asDouble
  let t ← (arg args 2).asDouble
  return .double (x + (y - x) * t)

/-- A pure function that looks at its arguments alone. -/
def pureFunction (arity : Arity) (f : List Value → Except Fault Value) : Function :=
  ⟨arity, true, fun _ args => f args⟩

end Builtin

/-- The registry of the functions that are always there. -/
def Registry.builtins : Registry where
  entries :=
    [("abs", Builtin.pureFunction (.exactly 1) fun args => (Builtin.arg args 0).abs),
      ("min", Builtin.pureFunction (.atLeast 1) (Builtin.extreme .lt)),
      ("max", Builtin.pureFunction (.atLeast 1) (Builtin.extreme .gt)),
      ("clamp", Builtin.pureFunction (.exactly 3) Builtin.clamp),
      ("sin", Builtin.pureFunction (.exactly 1) (Builtin.onDouble Float.sin)),
      ("cos", Builtin.pureFunction (.exactly 1) (Builtin.onDouble Float.cos)),
      ("sqrt", Builtin.pureFunction (.exactly 1) (Builtin.onDouble Float.sqrt)),
      ("pow", Builtin.pureFunction (.exactly 2) Builtin.pow),
      ("lerp", Builtin.pureFunction (.exactly 3) Builtin.lerp)]

end Formula

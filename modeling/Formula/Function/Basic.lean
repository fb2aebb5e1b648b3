import Formula.Value.Basic

/-!
# Functions

A formula calls functions that the host registers under a name, several under one name if
they take different numbers of arguments. A function may answer differently each time it is
called. What it answers then depends on the calls made before, and the history of calls is
part of what it is given. A pure function is one whose host promises that it looks at its
arguments alone, and only such a function is called while compiling.
-/

namespace Formula

/-- How many arguments a function takes. -/
inductive Arity where
  | exactly (n : Nat)
  | atLeast (n : Nat)
  deriving DecidableEq

/-- Whether a function takes `n` arguments. -/
def Arity.accepts : Arity → Nat → Bool
  | exactly m, n => n == m
  | atLeast m, n => m ≤ n

/-- A call that was made. -/
structure Call where
  /-- The number under which the function is registered. -/
  number : Nat
  isPure : Bool
  args : List Value
  deriving DecidableEq

/-- The calls made so far, the latest first. -/
abbrev History := List Call

/-- How often the function with a number was called. -/
def History.count (number : Nat) (h : History) : Nat :=
  (h.filter fun c => c.number == number).length

/-- The calls of functions that are not pure. -/
def History.impure (h : History) : History := h.filter fun c => !c.isPure

/-- A function of the host. -/
structure Function where
  arity : Arity
  isPure : Bool
  /-- The answer to a call, after the calls made before. -/
  answer : History → List Value → Except Fault Value

/-- A function with the number under which it is registered. -/
structure Overload where
  number : Nat
  function : Function

/-- Calls the function, and notes the call. -/
def Overload.call (o : Overload) (h : History) (args : List Value) :
    Except Fault Value × History :=
  (o.function.answer h args, ⟨o.number, o.function.isPure, args⟩ :: h)

/-- The functions that formulas can call, in the order of their registration. -/
structure Registry where
  entries : List (String × Function)

namespace Registry

/-- No functions. -/
def empty : Registry := ⟨[]⟩

/-- How many functions are registered. The next one has this number. -/
def size (r : Registry) : Nat := r.entries.length

/-- Registers one more function. -/
def register (r : Registry) (name : String) (f : Function) : Registry :=
  ⟨r.entries ++ [(name, f)]⟩

/-- The functions with a name, in order. -/
def overloads (r : Registry) (name : String) : List Overload :=
  r.entries.zipIdx.filterMap fun e =>
    if e.1.1 = name then some ⟨e.2, e.1.2⟩ else none

/-- Whether a function with the name is registered. -/
def contains (r : Registry) (name : String) : Bool := r.entries.any fun e => e.1 == name

/-- The function that a call of `name` with `argc` arguments means : the first that takes
exactly so many, and if there is none the first that takes them at all. -/
def resolve (r : Registry) (name : String) (argc : Nat) : Except Fault Overload :=
  let found := r.overloads name
  if found.isEmpty then .error (.kind (.unknownFunction name))
  else
    let exact := found.find? fun o => o.function.arity == .exactly argc
    match exact.or (found.find? fun o => o.function.arity.accepts argc) with
    | some o => .ok o
    | none => .error (.kind (.noOverload name argc))

end Registry

end Formula

import Formula.Kind

/-!
# Settings

The settings of a compiler say which kinds literals have, which variables are constants
whose values are known while compiling, and whether kinds are checked strictly.
-/

namespace Formula

/-- The width of whole literals. -/
inductive IntPrecision where
  | i32
  | i64
  deriving DecidableEq

/-- The form of literals with a fraction. -/
inductive FloatPrecision where
  | f32
  | f64
  | decimal
  deriving DecidableEq

/-- The settings of a compiler. -/
structure Settings where
  intPrecision : IntPrecision
  floatPrecision : FloatPrecision
  /-- The names of the constants, in order and each once. -/
  constants : List String
  strict : Bool
  deriving DecidableEq

namespace Settings

/-- The settings that hold where nothing is said. -/
def standard : Settings := ⟨.i32, .f64, [], false⟩

/-- The kind of whole literals. -/
def integerKind (s : Settings) : Kind :=
  match s.intPrecision with
  | .i32 => .integer
  | .i64 => .long

/-- The kind of literals with a fraction. -/
def floatKind (s : Settings) : Kind :=
  match s.floatPrecision with
  | .f32 => .float
  | .f64 => .double
  | .decimal => .decimal

/-- Names in order with one more, unless it is among them. -/
def insertName (name : String) : List String → List String
  | [] => [name]
  | n :: ns =>
    if n = name then n :: ns
    else if name < n then name :: n :: ns
    else n :: insertName name ns

/-- The settings with one more constant. -/
def withConstant (s : Settings) (name : String) : Settings :=
  { s with constants := insertName name s.constants }

/-- The settings with more constants. -/
def withConstants (s : Settings) (names : List String) : Settings :=
  names.foldl withConstant s

/-- Whether a variable is a constant. -/
def isConstant (s : Settings) (name : String) : Bool := s.constants.contains name

end Settings

end Formula

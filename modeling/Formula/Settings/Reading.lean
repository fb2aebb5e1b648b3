import Formula.Json.Reading
import Formula.Settings.Basic

/-!
# Reading and writing settings

Settings are written as a JSON object with a member for each of them, or as an array of
them in order. Any of them may be missing and then has its standard value. Members of other
names are passed over. A choice is written as its name, or as an object with that name and
`null`.
-/

namespace Formula

/-- The name by which a choice is written. -/
def Json.choice? : Json → Option String
  | .string s => s
  | .object [(some s, .null)] => some s
  | _ => none

/-- The texts of strings. -/
def Json.strings? : Json → Option (List String)
  | .array items => items.mapM fun j =>
    match j with
    | .string s => s
    | _ => none
  | _ => none

/-- The truth value. -/
def Json.boolean? : Json → Option Bool
  | .boolean b => some b
  | _ => none

/-- The name of the precision. -/
def IntPrecision.name : IntPrecision → String
  | i32 => "i32"
  | i64 => "i64"

/-- The precision with a name. -/
def IntPrecision.ofName? : String → Option IntPrecision
  | "i32" => some i32
  | "i64" => some i64
  | _ => none

/-- The name of the precision. -/
def FloatPrecision.name : FloatPrecision → String
  | f32 => "f32"
  | f64 => "f64"
  | decimal => "decimal"

/-- The precision with a name. -/
def FloatPrecision.ofName? : String → Option FloatPrecision
  | "f32" => some f32
  | "f64" => some f64
  | "decimal" => some decimal
  | _ => none

namespace Settings

/-- What one of the settings is when it may be missing. -/
def fieldOr {α : Type} (standard : α) (read? : Json → Option α) : Option Json → Option α
  | none => some standard
  | some j => read? j

/-- The settings, from what is written for each of them. -/
def ofFields? (int float constants strict : Option Json) : Option Settings := do
  let int ← fieldOr .i32 (fun j => j.choice?.bind IntPrecision.ofName?) int
  let float ← fieldOr .f64 (fun j => j.choice?.bind FloatPrecision.ofName?) float
  let names ← fieldOr [] Json.strings? constants
  let strict ← fieldOr false Json.boolean? strict
  return withConstants ⟨int, float, [], strict⟩ names

/-- The value of a member, if there is one. There may not be two. -/
def member? (members : List (Option String × Json)) (name : String) : Option (Option Json) :=
  match members.filter fun m => m.1 == some name with
  | [] => some none
  | [m] => some (some m.2)
  | _ => none

/-- The settings that a JSON value stands for. -/
def ofJson? : Json → Option Settings
  | .object members => do
    if members.any fun m => m.1.isNone then none
    else
      let int ← member? members "int_precision"
      let float ← member? members "float_precision"
      let constants ← member? members "constants"
      let strict ← member? members "strict"
      ofFields? int float constants strict
  | .array items =>
    if 4 < items.length then none else ofFields? items[0]? items[1]? items[2]? items[3]?
  | _ => none

/-- The settings that a text stands for. -/
def ofText? (s : String) : Option Settings := (Json.ofText? s).bind ofJson?

/-- The settings as a JSON value. -/
def toJson (s : Settings) : Json :=
  .object
    [(some "int_precision", .string s.intPrecision.name),
      (some "float_precision", .string s.floatPrecision.name),
      (some "constants", .array (s.constants.map fun n => .string (some n))),
      (some "strict", .boolean s.strict)]

end Settings

end Formula

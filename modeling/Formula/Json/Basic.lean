/-!
# JSON values

A JSON value as it is written : the members of an object stand in order, and one name may
stand there twice. A string can be written with escapes for code units of UTF-16 that do
not pair up. No characters spell such a string, so it has no text.
-/

namespace Formula

/-- A JSON value. -/
inductive Json where
  | null
  | boolean (b : Bool)
  | number
  /-- A string, with its text if it has one. -/
  | string (text : Option String)
  | array (items : List Json)
  | object (members : List (Option String × Json))
  deriving Inhabited

end Formula

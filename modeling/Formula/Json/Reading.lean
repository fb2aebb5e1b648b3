import Formula.Json.Basic

/-!
# Reading JSON

A text is split into marks, and the marks are put together on a stack of open arrays and
objects. Blanks may stand between marks, and nothing may stand after the value.
-/

namespace Formula.Json

/-! ## Strings and numbers -/

/-- A part of a string : a character, or a code unit of UTF-16 written as an escape. -/
inductive Part where
  | char (c : Char)
  | unit (n : Nat)

/-- The digit that a character stands for in base sixteen. -/
def hexDigit? (c : Char) : Option Nat :=
  if c.isDigit then some (c.toNat - '0'.toNat)
  else if 'a' ≤ c ∧ c ≤ 'f' then some (c.toNat - 'a'.toNat + 10)
  else if 'A' ≤ c ∧ c ≤ 'F' then some (c.toNat - 'A'.toNat + 10)
  else none

/-- The code unit that four digits stand for. -/
def codeUnit? (a b c d : Char) : Option Nat := do
  let a ← hexDigit? a
  let b ← hexDigit? b
  let c ← hexDigit? c
  let d ← hexDigit? d
  return ((a * 16 + b) * 16 + c) * 16 + d

/-- The character that a backslash and the given one stand for. -/
def escaped? : Char → Option Char
  | '"' => some '"'
  | '\\' => some '\\'
  | '/' => some '/'
  | 'b' => some '\x08'
  | 'f' => some '\x0c'
  | 'n' => some '\n'
  | 'r' => some '\r'
  | 't' => some '\t'
  | _ => none

/-- The parts of a string after its opening quote, and how many characters they take up with
the closing quote. -/
def partsOfChars? : List Char → Option (List Part × Nat)
  | [] => none
  | '"' :: _ => some ([], 1)
  | '\\' :: 'u' :: a :: b :: c :: d :: cs => do
    let n ← codeUnit? a b c d
    let (parts, extent) ← partsOfChars? cs
    return (.unit n :: parts, extent + 6)
  | '\\' :: e :: cs => do
    let c ← escaped? e
    let (parts, extent) ← partsOfChars? cs
    return (.char c :: parts, extent + 2)
  | c :: cs =>
    if c.toNat < 0x20 || c == '\\' then none
    else do
      let (parts, extent) ← partsOfChars? cs
      return (.char c :: parts, extent + 1)

/-- The characters that parts spell. The first unit of a pair is held back until the second
one comes. -/
def spell? : Option Nat → List Part → Option (List Char)
  | none, [] => some []
  | some _, [] => none
  | none, .char c :: ps => (spell? none ps).map (c :: ·)
  | some _, .char _ :: _ => none
  | none, .unit n :: ps =>
    if 0xD800 ≤ n ∧ n < 0xDC00 then spell? (some n) ps
    else if 0xDC00 ≤ n ∧ n < 0xE000 then none
    else (spell? none ps).map (Char.ofNat n :: ·)
  | some high, .unit n :: ps =>
    if 0xDC00 ≤ n ∧ n < 0xE000 then
      let c := Char.ofNat (0x10000 + (high - 0xD800) * 0x400 + (n - 0xDC00))
      (spell? none ps).map (c :: ·)
    else none

/-- How many digits stand at the start. -/
def digitRun (cs : List Char) : Nat := (cs.takeWhile Char.isDigit).length

/-- How many characters the fraction at the start takes up, if it is well written. -/
def fractionExtent? : List Char → Option Nat
  | '.' :: cs => let n := digitRun cs; if n = 0 then none else some (n + 1)
  | _ => some 0

/-- How many characters the exponent at the start takes up, if it is well written. -/
def exponentExtent? : List Char → Option Nat
  | [] => some 0
  | e :: cs =>
    if e == 'e' || e == 'E' then
      let sign := if cs.head? = some '+' ∨ cs.head? = some '-' then 1 else 0
      let n := digitRun (cs.drop sign)
      if n = 0 then none else some (1 + sign + n)
    else some 0

/-- How many characters the number at the start takes up, if it is well written. Its whole
part starts with a zero only if it is zero. -/
def numberExtent? (cs : List Char) : Option Nat := do
  let sign := if cs.head? = some '-' then 1 else 0
  let whole := digitRun (cs.drop sign)
  if whole = 0 ∨ 1 < whole ∧ (cs.drop sign).head? = some '0' then none
  else
    let fraction ← fractionExtent? (cs.drop (sign + whole))
    let exponent ← exponentExtent? (cs.drop (sign + whole + fraction))
    return sign + whole + fraction + exponent

/-! ## Marks -/

/-- A mark : a value without parts, or a sign of the structure. -/
inductive Mark where
  | atom (j : Json)
  | openArray
  | closeArray
  | openObject
  | closeObject
  | comma
  | colon

/-- Whether the characters start with a word. -/
def startsWith (word : String) (cs : List Char) : Bool := word.toList.isPrefixOf cs

/-- The mark that starts at a character, and how many characters after it belong to it. -/
def markAt? (c : Char) (cs : List Char) : Option (Mark × Nat) :=
  match c with
  | '[' => some (.openArray, 0)
  | ']' => some (.closeArray, 0)
  | '\x7b' => some (.openObject, 0)
  | '\x7d' => some (.closeObject, 0)
  | ',' => some (.comma, 0)
  | ':' => some (.colon, 0)
  | '"' =>
    (partsOfChars? cs).map fun p => (.atom (.string ((spell? none p.1).map String.ofList)), p.2)
  | 't' => if startsWith "rue" cs then some (.atom (.boolean true), 3) else none
  | 'f' => if startsWith "alse" cs then some (.atom (.boolean false), 4) else none
  | 'n' => if startsWith "ull" cs then some (.atom .null, 3) else none
  | c => (numberExtent? (c :: cs)).map fun n => (.atom .number, n - 1)

/-- The characters that may stand between marks. -/
def isBlank (c : Char) : Bool := c == ' ' || c == '\t' || c == '\n' || c == '\r'

/-- The marks of the characters, the first `skip` of which belong to a mark before them. -/
def marks? : (skip : Nat) → List Char → Option (List Mark)
  | _, [] => some []
  | skip + 1, _ :: cs => marks? skip cs
  | 0, c :: cs =>
    if isBlank c then marks? 0 cs
    else
      match markAt? c cs with
      | none => none
      | some (m, extent) => (marks? extent cs).map (m :: ·)

/-! ## Structure -/

/-- An array or object that is open, with what it has so far, the latest first. -/
inductive Open where
  | array (items : List Json)
  | object (members : List (Option String × Json))
  /-- An object with a name that waits for its value. -/
  | member (members : List (Option String × Json)) (name : Option String)

/-- What may come next. -/
inductive Next where
  | value
  | valueOrClose
  | separator
  | name
  | nameOrClose
  | colon
  | nothing

/-- A value that is being put together. -/
structure Assembly where
  stack : List Open
  next : Next
  /-- The whole value, once nothing is open. -/
  result : Option Json

/-- Puts a finished value to what is open. -/
def Assembly.put (p : Assembly) (j : Json) : Assembly :=
  match p.stack with
  | .array items :: rest => { p with stack := .array (j :: items) :: rest, next := .separator }
  | .member members name :: rest =>
    { p with stack := .object ((name, j) :: members) :: rest, next := .separator }
  | _ => { p with next := .nothing, result := some j }

/-- Takes in a mark where a value may come. -/
def Assembly.value? (p : Assembly) : Mark → Option Assembly
  | .atom j => some (p.put j)
  | .openArray => some { p with stack := .array [] :: p.stack, next := .valueOrClose }
  | .openObject => some { p with stack := .object [] :: p.stack, next := .nameOrClose }
  | _ => none

/-- Takes in a name of an object. -/
def Assembly.name? (p : Assembly) (m : Mark) : Option Assembly :=
  match m, p.stack with
  | .atom (.string s), .object members :: rest =>
    some { p with stack := .member members s :: rest, next := .colon }
  | _, _ => none

/-- Closes what is open. -/
def Assembly.close? (p : Assembly) (m : Mark) : Option Assembly :=
  match m, p.stack with
  | .closeArray, .array items :: rest =>
    some (Assembly.put { p with stack := rest } (.array items.reverse))
  | .closeObject, .object members :: rest =>
    some (Assembly.put { p with stack := rest } (.object members.reverse))
  | _, _ => none

/-- Takes in a mark after a value that is not the last. -/
def Assembly.separator? (p : Assembly) (m : Mark) : Option Assembly :=
  match m, p.stack with
  | .comma, .array _ :: _ => some { p with next := .value }
  | .comma, .object _ :: _ => some { p with next := .name }
  | _, _ => p.close? m

/-- Takes in a mark. -/
def Assembly.step? (p : Assembly) (m : Mark) : Option Assembly :=
  match p.next with
  | .value => p.value? m
  | .valueOrClose => (p.value? m).or (p.close? m)
  | .separator => p.separator? m
  | .name => p.name? m
  | .nameOrClose => (p.name? m).or (p.close? m)
  | .colon =>
    match m with
    | .colon => some { p with next := .value }
    | _ => none
  | .nothing => none

/-- The value that a text stands for. -/
def ofText? (s : String) : Option Json := do
  let ms ← marks? 0 s.toList
  let p ← ms.foldlM Assembly.step? ⟨[], .value, none⟩
  p.result

end Formula.Json

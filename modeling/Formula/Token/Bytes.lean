import Formula.Token.Scan
import Formula.Token.Unescape

/-!
# Splitting the bytes of a text into tokens

The scan as it goes over the bytes of a text : by positions, in loops, with the texts of the
tokens cut out between two positions. Two things could go wrong in it that cannot in the scan
of the characters. A cut could reach beyond the text or through a character of several bytes,
and a loop could fail to move on. Here both are outcomes, a `Crash`, and nothing else is done
about them.

Bytes are compared as the characters of their numbers. A byte of a character of several bytes
is then no ASCII character.
-/

namespace Formula

/-- Why a scan of bytes cannot go on. -/
inductive Crash where
  /-- A cut between positions that are not, in this order, boundaries of characters. -/
  | cut (start stop : Nat)
  /-- A turn of a loop that does not move on from a position of the text. -/
  | stuck (position : Nat)
  deriving DecidableEq

namespace Bytes

/-! ## Loops -/

/-- What a turn of a loop comes to. -/
inductive Turn (σ α : Type) where
  /-- Another turn, at a position. -/
  | again (position : Nat) (state : σ)
  | done (result : α)

/-- A loop over the positions of a text of some size. Each turn has to move on. -/
def loop {σ α : Type} (size : Nat) (turn : Nat → σ → Except Crash (Turn σ α)) (i : Nat)
    (state : σ) : Except Crash α :=
  match turn i state with
  | .error crash => .error crash
  | .ok (.done result) => .ok result
  | .ok (.again j next) =>
    if i < j ∧ i < size then loop size turn j next else .error (.stuck i)
termination_by size - i

/-! ## The text -/

variable (text : String)

/-- The byte at a position, if the text goes so far. -/
def byteAt (i : Nat) : Option Char := text.toUTF8.data[i]?.map Char.ofUInt8

/-- Whether a character starts or the text ends at a position. -/
def isBoundary (i : Nat) : Bool := String.Pos.Raw.isValid text ⟨i⟩

/-- The text between two positions. -/
def cut (start stop : Nat) : Except Crash String :=
  if start ≤ stop ∧ isBoundary text start ∧ isBoundary text stop then
    .ok (String.Pos.Raw.extract text ⟨start⟩ ⟨stop⟩)
  else .error (.cut start stop)

/-! ## One token -/

/-- The position behind the bytes from `i` on that satisfy `p`. -/
def pass (p : Char → Bool) (i : Nat) : Except Crash Nat :=
  loop text.utf8ByteSize
    (fun i (_ : Unit) => .ok (if (byteAt text i).any p then .again (i + 1) () else .done i)) i ()

/-- The position behind the digits and the fraction of a number, and its kind so far. -/
def mantissa (i : Nat) : Except Crash (Nat × TokenKind) :=
  if byteAt text i = some '.' then (pass text Char.isDigit (i + 1)).map (·, .float)
  else do
    let j ← pass text Char.isDigit i
    if byteAt text j = some '.' ∧ (byteAt text (j + 1)).any Char.isDigit then
      (pass text Char.isDigit (j + 1)).map (·, .float)
    else (pass text Char.isDigit j).map (·, .integer)

/-- The position behind a number, and its kind unless there are no digits in its exponent. -/
def number (i : Nat) : Except Crash (Nat × Option TokenKind) := do
  let (j, kind) ← mantissa text i
  if (byteAt text j).any (fun c => c == 'e' || c == 'E') then
    let start := if (byteAt text (j + 1)).any (fun c => c == '+' || c == '-') then j + 2 else j + 1
    let stop ← pass text Char.isDigit start
    return (stop, if stop = start then none else some .float)
  else return (j, some kind)

/-- What the scan of a string does at a position. A backslash passes over a byte, whatever it
is. -/
def stringTurn (quote : Char) (i : Nat) (line : UInt32) : Turn UInt32 (Option (Nat × UInt32)) :=
  match byteAt text i with
  | none => .done none
  | some '\\' => .again (i + 2) line
  | some '\n' => .again (i + 1) (line + 1)
  | some c => if c = quote then .done (some (i + 1, line)) else .again (i + 1) line

/-- The position behind a string, from behind its opening quote on, and the line it ends on,
if there is a closing quote. -/
def string (quote : Char) (i : Nat) (line : UInt32) : Except Crash (Option (Nat × UInt32)) :=
  loop text.utf8ByteSize (fun i line => .ok (stringTurn text quote i line)) i line

/-- Whether a symbol of two characters is made of the two bytes at a position. -/
def isLongSymbol (i : Nat) : Except Crash Bool :=
  if i + 1 < text.utf8ByteSize ∧ isBoundary text (i + 2) then
    (cut text i (i + 2)).map fun two =>
      (longSymbols.map fun p => String.ofList [p.1, p.2]).contains two
  else .ok false

/-! ## The whole text -/

/-- The line and the tokens so far. -/
abbrev Progress := UInt32 × List Located

/-- A turn of the scan. -/
abbrev ScanTurn := Except Crash (Turn Progress (Except Fault (List Located)))

/-- Take the bytes between two positions as a token and go on behind it. -/
def push (kind : TokenKind) (start stop : Nat) (line next : UInt32) (out : List Located) :
    ScanTurn := do
  let lexeme ← cut text start stop
  return .again stop (next, out ++ [⟨⟨lexeme, kind, line⟩, start⟩])

/-- Refuse the bytes between two positions. -/
def refuse (cause : SyntaxCause) (start stop : Nat) (line : UInt32) : ScanTurn := do
  let lexeme ← cut text start stop
  return .done (.error (.syntactic ⟨line, lexeme⟩ cause))

/-- A symbol with the given first byte. -/
def symbol (c : Char) (i : Nat) (line : UInt32) (out : List Located) : ScanTurn := do
  if ← isLongSymbol text i then push text .operator i (i + 2) line line out
  else
    match symbolKind? c with
    | some kind => push text kind i (i + 1) line line out
    | none =>
      let rest ← cut text i text.utf8ByteSize
      let first := rest.toList.head?.getD c
      refuse text .unexpectedCharacter i (i + first.utf8Size) line

/-- What starts at a byte that is no blank. -/
def piece (c : Char) (i : Nat) (line : UInt32) (out : List Located) : ScanTurn := do
  if c.isDigit || c == '.' && (byteAt text (i + 1)).any Char.isDigit then
    match ← number text i with
    | (stop, some kind) => push text kind i stop line line out
    | (stop, none) => refuse text .missingExponent i stop line
  else if startsName c then
    let stop ← pass text continuesName (i + 1)
    push text .identifier i stop line line out
  else if c == '"' || c == '\'' then
    match ← string text c (i + 1) line with
    | some (stop, next) => push text .string i (min stop text.utf8ByteSize) line next out
    | none => refuse text .unterminatedString i text.utf8ByteSize line
  else symbol text c i line out

/-- What the scan does at a position. -/
def turn (i : Nat) : Progress → ScanTurn
  | (line, out) =>
    match byteAt text i with
    | none => .ok (.done (.ok out))
    | some c =>
      if c = '\n' then .ok (.again (i + 1) (line + 1, out))
      else if isBlank c then .ok (.again (i + 1) (line, out))
      else piece text c i line out

/-- The tokens of a text, by its bytes. -/
def scan : Except Crash (Except Fault (List Located)) :=
  loop text.utf8ByteSize (turn text) 0 (1, [])

/-- The text that a string token stands for, with its quotes cut off as two bytes. -/
def unescape (t : Token) : Except Crash (Except Fault String) := do
  let body ← cut t.lexeme 1 (t.lexeme.utf8ByteSize - 1)
  return match unescapeChars body.toList with
    | .ok cs => .ok (String.ofList cs)
    | .error cause => .error (.syntactic ⟨t.line, t.lexeme⟩ cause)

end Bytes

end Formula

import Formula.Fault
import Formula.Token.Basic

/-!
# Splitting a text into tokens

The text is read from left to right. Blanks are passed over, and at every other character a
token starts, whose extent depends on that character and what follows it : the longest
number, the longest name, a string up to its closing quote, or a symbol, of two characters
where two make one.

`Located.scan` also says at which byte each token starts. `Token.scan` forgets that. Lines are
counted by a number of 32 bits, which starts over in a text of so many lines.
-/

namespace Formula

/-! ## One token -/

/-- What starts at a character. The extent counts the characters after the first. -/
inductive Piece where
  /-- A token. A string also says how many line ends in it count. -/
  | token (kind : TokenKind) (extent lines : Nat)
  /-- No token, for a cause. -/
  | refused (cause : SyntaxCause) (extent : Nat)
  deriving DecidableEq

/-- The characters that separate tokens, apart from the line end. -/
def isBlank (c : Char) : Bool := c == ' ' || c == '\t' || c == '\r' || c == '\x0c'

/-- Whether a name can start with the character. -/
def startsName (c : Char) : Bool := c.isAlpha || c == '_'

/-- Whether a name can go on with the character. -/
def continuesName (c : Char) : Bool := c.isAlphanum || c == '_'

/-- How many characters at the start satisfy `p`. -/
def runLength (p : Char → Bool) : List Char → Nat
  | [] => 0
  | c :: cs => if p c then runLength p cs + 1 else 0

/-- How many characters a fraction at the start has, with its point. -/
def fractionLength : List Char → Nat
  | '.' :: cs => let n := runLength Char.isDigit cs; if n = 0 then 0 else n + 1
  | _ => 0

/-- How many characters an exponent at the start has, with its letter, and whether there
are digits in it. -/
def exponentLength : List Char → Option (Nat × Bool)
  | [] => none
  | e :: cs =>
    if e == 'e' || e == 'E' then
      let sign :=
        match cs with
        | s :: _ => if s == '+' || s == '-' then 1 else 0
        | [] => 0
      let n := runLength Char.isDigit (cs.drop sign)
      some (1 + sign + n, n != 0)
    else none

/-- The number at the start of the characters. -/
def numberAt (cs : List Char) : Piece :=
  let whole := runLength Char.isDigit cs
  let fraction := fractionLength (cs.drop whole)
  let size := whole + fraction
  match exponentLength (cs.drop size) with
  | none => .token (if fraction = 0 then .integer else .float) (size - 1) 0
  | some (n, true) => .token .float (size + n - 1) 0
  | some (n, false) => .refused .missingExponent (size + n - 1)

/-- The extent of a string after its opening quote, and how many line ends in it count : a
line end after a backslash does not. A backslash takes the next character with it, whatever
it is. -/
def stringExtent (quote : Char) : List Char → Option (Nat × Nat)
  | [] => none
  | '\\' :: [] => none
  | '\\' :: _ :: cs => (stringExtent quote cs).map fun p => (p.1 + 2, p.2)
  | c :: cs =>
    if c = quote then some (1, 0)
    else
      (stringExtent quote cs).map fun p => (p.1 + 1, if c = '\n' then p.2 + 1 else p.2)

/-- The symbols of two characters. -/
def longSymbols : List (Char × Char) :=
  [('&', '&'), ('|', '|'), ('=', '='), ('!', '='), ('<', '='), ('>', '='),
    ('+', '='), ('-', '='), ('*', '='), ('/', '=')]

/-- The kind of a symbol of one character. -/
def symbolKind? : Char → Option TokenKind
  | '(' => some .leftParen
  | ')' => some .rightParen
  | ',' => some .comma
  | ';' => some .semicolon
  | '+' | '-' | '*' | '/' | '%' | '!' | '<' | '>' | '=' => some .operator
  | _ => none

/-- The symbol at a character with these characters after it. -/
def symbolAt (c : Char) (cs : List Char) : Piece :=
  if cs.head?.any fun d => longSymbols.contains (c, d) then .token .operator 1 0
  else
    match symbolKind? c with
    | some kind => .token kind 0 0
    | none => .refused .unexpectedCharacter 0

/-- What starts at a character that is no blank, with these characters after it. -/
def pieceAt (c : Char) (cs : List Char) : Piece :=
  if c.isDigit || c == '.' && cs.head?.any Char.isDigit then numberAt (c :: cs)
  else if startsName c then .token .identifier (runLength continuesName cs) 0
  else if c == '"' || c == '\'' then
    match stringExtent c cs with
    | some (extent, lines) => .token .string extent lines
    | none => .refused .unterminatedString cs.length
  else symbolAt c cs

/-! ## The whole text -/

/-- A token and the byte at which it starts. -/
structure Located where
  token : Token
  start : Nat
  deriving DecidableEq

/-- The lexeme that starts at a character and goes on for `extent` more. -/
def lexemeAt (c : Char) (cs : List Char) (extent : Nat) : String :=
  String.ofList (c :: cs.take extent)

/-- The tokens of the characters, the first `skip` of which belong to a token before them,
from a byte and a line. -/
def scanFrom : (skip offset : Nat) → (line : UInt32) → List Char → Except Fault (List Located)
  | _, _, _, [] => .ok []
  | skip + 1, offset, line, c :: cs => scanFrom skip (offset + c.utf8Size) line cs
  | 0, offset, line, c :: cs =>
    if c = '\n' then scanFrom 0 (offset + c.utf8Size) (line + 1) cs
    else if isBlank c then scanFrom 0 (offset + c.utf8Size) line cs
    else
      match pieceAt c cs with
      | .refused cause extent => .error (.syntactic ⟨line, lexemeAt c cs extent⟩ cause)
      | .token kind extent lines =>
        (scanFrom extent (offset + c.utf8Size) (line + .ofNat lines) cs).map
          (⟨⟨lexemeAt c cs extent, kind, line⟩, offset⟩ :: ·)

/-- The tokens of a text, with the bytes at which they start. -/
def Located.scan (s : String) : Except Fault (List Located) := scanFrom 0 0 1 s.toList

/-- The tokens of a text. -/
def Token.scan (s : String) : Except Fault (List Token) :=
  (Located.scan s).map (List.map Located.token)

end Formula

import Formula.Proofs.Pieces
import Formula.Proofs.Results
import Mathlib

/-!
# Tokens and the text they come from

A list of located tokens tiles a text when the text is made of their lexemes, in their order
and at the bytes they name, with nothing but white space before, between and behind them
(`Tiles`). What a scan returns tiles the text (`tiles_of_scanFrom`).

A token stands alone when its lexeme, before a space or at the end, is scanned as that token
(`Token.Standalone`). Every scanned token does, since what a token is does not depend on what
comes after a blank, and so the lexemes with single spaces between them are scanned as the
tokens they come from. `Located.scan_eq_ok` says both.
-/

namespace Formula

/-- The characters that separate tokens. -/
def isSpace (c : Char) : Bool := c == '\n' || isBlank c

/-! ## Scanning on -/

/-- Scanning with characters passed over is scanning what is behind them. -/
theorem scanFrom_skip (skip offset : Nat) (line : UInt32) (cs : List Char) :
    scanFrom skip offset line cs =
      scanFrom 0 (offset + String.utf8Len (cs.take skip)) line (cs.drop skip) := by
  induction cs generalizing skip offset with
  | nil => cases skip <;> rfl
  | cons c cs ih =>
    cases skip with
    | zero => rfl
    | succ skip =>
      rw [scanFrom, ih, List.take_succ_cons, List.drop_succ_cons, String.utf8Len_cons]
      congr 1
      omega

theorem scanFrom_space {c : Char} (hc : isSpace c = true) (offset : Nat) (line : UInt32)
    (cs : List Char) :
    scanFrom 0 offset line (c :: cs) =
      scanFrom 0 (offset + c.utf8Size) (if c = '\n' then line + 1 else line) cs := by
  by_cases hn : c = '\n'
  · rw [scanFrom, if_pos hn, if_pos hn]
  · have hb : isBlank c = true := by simpa [isSpace, hn] using hc
    rw [scanFrom, if_neg hn, if_pos hb, if_neg hn]

section pieces

variable {c : Char} {cs : List Char}

theorem scanFrom_piece (hc : isSpace c = false) (offset : Nat) (line : UInt32) :
    scanFrom 0 offset line (c :: cs) =
      match pieceAt c cs with
      | .refused cause extent => .error (.syntactic ⟨line, lexemeAt c cs extent⟩ cause)
      | .token kind extent lines =>
        (scanFrom extent (offset + c.utf8Size) (line + .ofNat lines) cs).map
          (⟨⟨lexemeAt c cs extent, kind, line⟩, offset⟩ :: ·) := by
  obtain ⟨hn, hb⟩ : c ≠ '\n' ∧ isBlank c = false := by simpa [isSpace] using hc
  cases hp : pieceAt c cs with
  | refused cause extent => rw [scanFrom, if_neg hn, if_neg (by simp [hb]), hp]
  | token kind extent lines => rw [scanFrom, if_neg hn, if_neg (by simp [hb]), hp]

theorem scanFrom_token (hc : isSpace c = false) {kind : TokenKind} {extent lines : Nat}
    (hp : pieceAt c cs = .token kind extent lines) (offset : Nat) (line : UInt32) :
    scanFrom 0 offset line (c :: cs) =
      (scanFrom extent (offset + c.utf8Size) (line + .ofNat lines) cs).map
        (⟨⟨lexemeAt c cs extent, kind, line⟩, offset⟩ :: ·) := by
  rw [scanFrom_piece hc, hp]

theorem scanFrom_refused (hc : isSpace c = false) {cause : SyntaxCause} {extent : Nat}
    (hp : pieceAt c cs = .refused cause extent) (offset : Nat) (line : UInt32) :
    scanFrom 0 offset line (c :: cs) =
      .error (.syntactic ⟨line, lexemeAt c cs extent⟩ cause) := by
  rw [scanFrom_piece hc, hp]

/-- How a scan that succeeds goes on at a character. -/
theorem scanFrom_cons_ok {offset : Nat} {line : UInt32} {ls : List Located}
    (h : scanFrom 0 offset line (c :: cs) = .ok ls) :
    (isSpace c = true ∧ ∃ line', scanFrom 0 (offset + c.utf8Size) line' cs = .ok ls) ∨
      isSpace c = false ∧ ∃ kind extent lines rest, pieceAt c cs = .token kind extent lines ∧
        scanFrom extent (offset + c.utf8Size) (line + .ofNat lines) cs = .ok rest ∧
        ls = ⟨⟨lexemeAt c cs extent, kind, line⟩, offset⟩ :: rest := by
  cases hc : isSpace c with
  | true => exact .inl ⟨rfl, _, scanFrom_space hc offset line cs ▸ h⟩
  | false =>
    refine .inr ⟨rfl, ?_⟩
    cases hp : pieceAt c cs with
    | token kind extent lines =>
      rw [scanFrom_token hc hp] at h
      obtain ⟨rest, hr, rfl⟩ := Except.map_eq_ok.mp h
      exact ⟨kind, extent, lines, rest, rfl, hr, rfl⟩
    | refused cause extent =>
      rw [scanFrom_refused hc hp] at h
      cases h

end pieces

/-! ## The text is the lexemes and white space -/

/-- The characters from a byte on are the lexemes of the tokens, each not empty, at its byte
and behind white space, and white space at the end. -/
inductive Tiles : Nat → List Char → List Located → Prop where
  | last {start : Nat} {gap : List Char} (hg : gap.all isSpace) : Tiles start gap []
  | token {start : Nat} {gap rest : List Char} {l : Located} {ls : List Located}
    (hg : gap.all isSpace) (hl : l.token.lexeme ≠ "")
    (hs : l.start = start + String.utf8Len gap)
    (hr : Tiles (l.start + l.token.lexeme.utf8ByteSize) rest ls) :
    Tiles start (gap ++ l.token.lexeme.toList ++ rest) (l :: ls)

theorem Tiles.space_cons {c : Char} (hc : isSpace c = true) {start : Nat} {cs : List Char}
    {ls : List Located} (h : Tiles (start + c.utf8Size) cs ls) : Tiles start (c :: cs) ls := by
  cases h with
  | last hg => exact .last (by simpa [hc] using hg)
  | @token _ gap _ _ _ hg hl hs hr =>
    have hgap : (c :: gap).all isSpace = true := by simpa [hc] using hg
    refine .token hgap hl ?_ hr
    rw [hs, String.utf8Len_cons]
    omega

theorem lexemeAt_ne_empty (c : Char) (cs : List Char) (extent : Nat) :
    lexemeAt c cs extent ≠ "" :=
  fun h => List.cons_ne_nil c (cs.take extent) (String.ofList_injective h)

theorem tiles_of_scanFrom {skip offset : Nat} {line : UInt32} {cs : List Char} {ls : List Located}
    (h : scanFrom skip offset line cs = .ok ls) :
    Tiles (offset + String.utf8Len (cs.take skip)) (cs.drop skip) ls := by
  induction cs generalizing skip offset line ls with
  | nil =>
    obtain rfl : [] = ls := by cases skip <;> exact Except.ok.inj h
    rw [List.drop_nil]
    exact .last rfl
  | cons c cs ih =>
    cases skip with
    | succ skip =>
      rw [scanFrom] at h
      simpa [Nat.add_assoc, Nat.add_comm] using ih h
    | zero =>
      rw [List.take_zero, List.drop_zero, String.utf8Len_nil, Nat.add_zero]
      obtain ⟨hc, line', hrest⟩ | ⟨-, kind, extent, lines, rest, -, hrest, rfl⟩ :=
        scanFrom_cons_ok h
      · exact .space_cons hc (by simpa using ih hrest)
      · have htile := ih hrest
        have hsize : (lexemeAt c cs extent).utf8ByteSize =
            c.utf8Size + String.utf8Len (cs.take extent) := by
          rw [lexemeAt, String.utf8ByteSize_ofList, String.utf8Len_cons, Nat.add_comm]
        rw [Nat.add_assoc, ← hsize] at htile
        have hgap : ([] : List Char).all isSpace = true := rfl
        have := Tiles.token (l := ⟨⟨lexemeAt c cs extent, kind, line⟩, offset⟩) hgap
          (lexemeAt_ne_empty c cs extent) (Nat.add_zero offset).symm htile
        simpa [lexemeAt] using this

/-! ## The lexemes with single spaces between them -/

/-- The lexeme of the token is that token wherever a space, or nothing, stands after it. -/
def Token.Standalone (t : Token) : Prop :=
  ∃ c body lines, t.lexeme = String.ofList (c :: body) ∧ isSpace c = false ∧
    ∀ rest, Breaks rest → pieceAt c (body ++ rest) = .token t.kind body.length lines

theorem standalone_of_scanFrom {skip offset : Nat} {line : UInt32} {cs : List Char}
    {ls : List Located} (h : scanFrom skip offset line cs = .ok ls) :
    ∀ l ∈ ls, l.token.Standalone := by
  induction cs generalizing skip offset line ls with
  | nil =>
    obtain rfl : [] = ls := by cases skip <;> exact Except.ok.inj h
    exact List.forall_mem_nil _
  | cons c cs ih =>
    cases skip with
    | succ skip => exact ih (scanFrom.eq_2 .. ▸ h)
    | zero =>
      obtain ⟨-, line', hrest⟩ | ⟨hc, kind, extent, lines, rest, hp, hrest, rfl⟩ :=
        scanFrom_cons_ok h
      · exact ih hrest
      · refine List.forall_mem_cons.mpr
          ⟨⟨c, cs.take extent, lines, rfl, hc, fun rest hr => ?_⟩, ih hrest⟩
        rw [pieceAt_take_append hr hp, List.length_take, Nat.min_eq_left (extent_le_length hp)]

/-- From wherever they stand, the characters are scanned as tokens like the given ones. -/
def ScansTo (cs : List Char) (ts : List Token) : Prop :=
  ∀ offset line, ∃ ls, scanFrom 0 offset line cs = .ok ls ∧
    List.Forall₂ (fun t l => t.alike l.token = true) ts ls

theorem ScansTo.nil : ScansTo [] [] := fun _ _ => ⟨[], rfl, .nil⟩

theorem ScansTo.space {cs : List Char} {ts : List Token} (h : ScansTo cs ts) :
    ScansTo (' ' :: cs) ts := by
  intro offset line
  rw [scanFrom_space rfl]
  exact h _ _

/-- A token that stands alone in front of others. -/
theorem ScansTo.token {t : Token} (ht : t.Standalone) {rest : List Char} (hr : Breaks rest)
    {ts : List Token} (h : ScansTo rest ts) : ScansTo (t.lexeme.toList ++ rest) (t :: ts) := by
  intro offset line
  obtain ⟨c, body, lines, hl, hc, hp⟩ := ht
  obtain ⟨ls, hls, halike⟩ :=
    h (offset + c.utf8Size + String.utf8Len ((body ++ rest).take body.length)) (line + .ofNat lines)
  rw [hl, String.toList_ofList, List.cons_append, scanFrom_token hc (hp rest hr),
    scanFrom_skip, List.drop_left, hls, lexemeAt, List.take_left, ← hl]
  exact ⟨_, rfl, .cons (by simp [Token.alike]) halike⟩

/-- The lexemes, each behind a space. -/
def spaced (ts : List Token) : List Char := ts.flatMap fun t => ' ' :: t.lexeme.toList

theorem breaks_spaced (ts : List Token) : Breaks (spaced ts) := by
  cases ts with
  | nil => exact .nil
  | cons t ts => exact .space _

theorem scansTo_spaced {ts : List Token} (h : ∀ t ∈ ts, t.Standalone) :
    ScansTo (spaced ts) ts := by
  induction ts with
  | nil => exact .nil
  | cons t ts ih =>
    obtain ⟨ht, hts⟩ := List.forall_mem_cons.mp h
    exact .space (.token ht (breaks_spaced ts) (ih hts))

theorem toList_intercalate_space (t : Token) (ts : List Token) :
    (" ".intercalate ((t :: ts).map Token.lexeme)).toList = t.lexeme.toList ++ spaced ts := by
  induction ts generalizing t with
  | nil => simp [spaced]
  | cons u ts ih =>
    rw [List.map_cons, List.map_cons, String.intercalate_cons_cons, ← List.map_cons,
      String.toList_append, String.toList_append, ih u]
    simp [spaced]

theorem scansTo_intercalate {ts : List Token} (h : ∀ t ∈ ts, t.Standalone) :
    ScansTo (" ".intercalate (ts.map Token.lexeme)).toList ts := by
  cases ts with
  | nil => exact .nil
  | cons t ts =>
    obtain ⟨ht, hts⟩ := List.forall_mem_cons.mp h
    rw [toList_intercalate_space]
    exact .token ht (breaks_spaced ts) (scansTo_spaced hts)

/-- Scanning loses nothing and is stable. Where a text has tokens, their lexemes are not empty
and are, in their order and each at its byte, all of the text but white space; and the lexemes
with single spaces between them have the same tokens again. -/
theorem Token.scan_tiles {s : String} {ts : List Token} (h : Token.scan s = .ok ts) :
    (∃ ls, Located.scan s = .ok ls ∧ ls.map Located.token = ts ∧ Tiles 0 s.toList ls) ∧
      ∃ us, Token.scan (" ".intercalate (ts.map Token.lexeme)) = .ok us ∧
        List.Forall₂ (fun t u => t.alike u = true) ts us := by
  obtain ⟨ls, hls, rfl⟩ := Except.map_eq_ok.mp h
  refine ⟨⟨ls, hls, rfl, by simpa using tiles_of_scanFrom hls⟩, ?_⟩
  have hstand : ∀ t ∈ ls.map Located.token, t.Standalone :=
    List.forall_mem_map.mpr (standalone_of_scanFrom hls)
  obtain ⟨us, hus, halike⟩ := scansTo_intercalate hstand 0 1
  refine ⟨us.map Located.token, ?_, List.forall₂_map_right_iff.mpr halike⟩
  rw [Token.scan, Located.scan, hus]
  rfl

theorem Token.scan_tiles_numbers :
    ∃ us, Token.scan " .5e-3+1.5\n>='a\\'\n'" =
        .ok [⟨".5e-3", .float, 1⟩, ⟨"+", .operator, 1⟩, ⟨"1.5", .float, 1⟩,
          ⟨">=", .operator, 2⟩, ⟨"'a\\'\n'", .string, 2⟩] ∧
      Token.scan ".5e-3 + 1.5 >= 'a\\'\n'" = .ok us ∧ us.length = 5 := by
  have hs : Token.scan " .5e-3+1.5\n>='a\\'\n'" =
      .ok [⟨".5e-3", .float, 1⟩, ⟨"+", .operator, 1⟩, ⟨"1.5", .float, 1⟩,
        ⟨">=", .operator, 2⟩, ⟨"'a\\'\n'", .string, 2⟩] := by cbv
  obtain ⟨-, us, hus, halike⟩ := Token.scan_tiles hs
  exact ⟨us, hs, hus, halike.length_eq.symm⟩

end Formula

import Formula.Proofs.Lexemes
import Formula.Proofs.Loops

/-!
# Scanning by bytes

The scan that goes over the bytes of a text comes to what the scan of its characters comes to,
for every text (`Bytes.scan_eq`). So none of its cuts reaches beyond the text or through a
character, and each turn of each of its loops moves on : a cut or a turn that does not is a
crash, and there is none. `Bytes.scan_without_crash` adds that a string token is a body between two
quotes of one byte, so that the cut that takes the quotes off goes well too.

One turn of the scan is one piece (`turn_piece`), or a blank passed over, and takes the
position from one between characters to another; `loop_turn` is the induction over the turns.
-/

namespace Formula

open String (utf8Len)

namespace Bytes

variable {text : String} {i : Nat} {c : Char} {cs : List Char}

/-! ## Symbols -/

theorem narrow_of_mem_longSymbols :
    ∀ p ∈ longSymbols, p.1.toNat < 128 ∧ p.2.toNat < 128 := by decide

/-- The text of a symbol of two characters. -/
theorem contains_longSymbols (mid : List Char) :
    (longSymbols.map fun p => String.ofList [p.1, p.2]).contains (String.ofList mid) = true ↔
      ∃ c d, mid = [c, d] ∧ longSymbols.contains (c, d) = true := by
  simp only [List.contains_iff_mem, List.mem_map]
  constructor
  · rintro ⟨⟨c, d⟩, hp, hmid⟩
    exact ⟨c, d, (String.ofList_injective hmid).symm, hp⟩
  · rintro ⟨c, d, rfl, hp⟩
    exact ⟨(c, d), hp, rfl⟩

/-- A position between characters stands behind some of those at an earlier one. -/
theorem At.between {j : Nat} {ds : List Char} (h : At text i cs) (h' : At text j ds)
    (hij : i ≤ j) : ∃ mid, cs = mid ++ ds ∧ j = i + utf8Len mid := by
  obtain ⟨pre, rfl, rfl⟩ := h
  obtain ⟨pre', htext, rfl⟩ := h'
  obtain ⟨mid, rfl, hmid⟩ | ⟨mid, rfl, rfl⟩ :=
    List.append_eq_append_iff.mp (String.ofList_injective htext)
  · exact ⟨mid, hmid, String.utf8Len_append ..⟩
  · rw [String.utf8Len_append] at hij ⊢
    obtain rfl : mid = [] := String.utf8Len_eq_zero.mp (by omega)
    exact ⟨[], rfl, rfl⟩

/-- The two bytes at a position make a symbol where two characters do. -/
theorem isLongSymbol_eq (h : At text i (c :: cs)) :
    isLongSymbol text i = .ok (cs.head?.any fun d => longSymbols.contains (c, d)) := by
  unfold isLongSymbol
  split
  case isTrue hb =>
    obtain ⟨rest, hrest⟩ := isBoundary_iff.mp hb.2
    obtain ⟨mid, hmid, hsize⟩ := h.between hrest (Nat.le_add_right i 2)
    rw [hmid] at h
    rw [hsize, h.cut]
    refine congrArg Except.ok (Bool.eq_iff_iff.mpr ((contains_longSymbols mid).trans ?_))
    rw [Option.any_eq_true]
    constructor
    · rintro ⟨c', d, rfl, hcd⟩
      obtain ⟨rfl, rfl⟩ := List.cons.inj hmid
      exact ⟨d, rfl, hcd⟩
    · rintro ⟨d, hd, hcd⟩
      obtain ⟨tail, rfl⟩ := List.head?_eq_some_iff.mp hd
      obtain ⟨hc, hd⟩ := narrow_of_mem_longSymbols _ (List.contains_iff_mem.mp hcd)
      have htwo : utf8Len mid = 2 := by omega
      rw [← utf8Size_eq_one] at hc hd
      match mid with
      | [] => cases htwo
      | [x] =>
        obtain ⟨rfl, -⟩ := List.cons.inj hmid
        simp [hc] at htwo
      | x :: y :: mid =>
        simp only [List.cons_append, List.cons.injEq] at hmid
        obtain ⟨rfl, rfl, -⟩ := hmid
        rw [String.utf8Len_cons, String.utf8Len_cons, hc, hd] at htwo
        obtain rfl : mid = [] := String.utf8Len_eq_zero.mp (by omega)
        exact ⟨_, _, rfl, hcd⟩
  case isFalse hb =>
    refine congrArg Except.ok (Eq.symm (Bool.eq_false_iff.mpr fun hany => hb ?_))
    obtain ⟨d, hd, hcd⟩ := (Option.any_eq_true ..).mp hany
    obtain ⟨tail, rfl⟩ := List.head?_eq_some_iff.mp hd
    obtain ⟨hc, hd⟩ := narrow_of_mem_longSymbols _ (List.contains_iff_mem.mp hcd)
    have h1 := h.tail
    have h2 := h1.tail
    rw [utf8Size_eq_one.mpr hc] at h1 h2
    rw [utf8Size_eq_one.mpr hd] at h2
    exact ⟨h1.lt_size, isBoundary_iff.mpr ⟨tail, h2⟩⟩

/-! ## One turn of the scan -/

section turns

variable {line : UInt32} {out : List Located}

/-- The turn that a piece at a position makes. -/
def pieceTurn (c : Char) (cs : List Char) (i : Nat) (line : UInt32) (out : List Located) :
    Piece → Turn Progress (Except Fault (List Located))
  | .token kind extent lines => .again (i + c.utf8Size + utf8Len (cs.take extent))
      (line + .ofNat lines, out ++ [⟨⟨lexemeAt c cs extent, kind, line⟩, i⟩])
  | .refused cause extent => .done (.error (.syntactic ⟨line, lexemeAt c cs extent⟩ cause))

/-- The lexeme of a piece can be cut out. -/
theorem At.cut_lexeme (h : At text i (c :: cs)) (extent : Nat) :
    Bytes.cut text i (i + c.utf8Size + utf8Len (cs.take extent)) =
      .ok (lexemeAt c cs extent) := by
  have hsplit : At text i (c :: cs.take extent ++ cs.drop extent) := by
    rwa [List.cons_append, List.take_append_drop]
  have := hsplit.cut
  rwa [String.utf8Len_cons, Nat.add_comm (utf8Len _), ← Nat.add_assoc] at this

/-- Adding a token comes to the turn that the piece asks for. -/
theorem push_eq (h : At text i (c :: cs)) (kind : TokenKind) {extent lines stop : Nat}
    {next : UInt32} (hstop : stop = i + c.utf8Size + utf8Len (cs.take extent))
    (hnext : next = line + .ofNat lines) :
    push text kind i stop line next out =
      .ok (pieceTurn c cs i line out (.token kind extent lines)) := by
  rw [push, hstop, h.cut_lexeme, hnext]
  rfl

theorem refuse_eq (h : At text i (c :: cs)) (cause : SyntaxCause) {extent stop : Nat}
    (hstop : stop = i + c.utf8Size + utf8Len (cs.take extent)) :
    refuse text cause i stop line =
      .ok (pieceTurn c cs i line out (.refused cause extent)) := by
  rw [refuse, hstop, h.cut_lexeme]
  rfl

theorem narrow_of_symbolKind? {kind : TokenKind} (h : symbolKind? c = some kind) :
    c.toNat < 128 := by
  unfold symbolKind? at h
  split at h
  case h_14 => cases h
  all_goals decide

/-- The byte at a position and the character there satisfy the same ASCII conditions. -/
def Shows (b c : Char) : Prop := ∀ p, Narrow p → p b = p c

/-- The byte at a character shows it, as far as ASCII goes. -/
theorem At.byteAt_shows (h : At text i (c :: cs)) : ∃ b, byteAt text i = some b ∧ Shows b c := by
  by_cases hc : c.toNat < 128
  · exact ⟨c, h.byteAt_narrow hc, fun _ _ => rfl⟩
  · obtain ⟨w, hw, hwide⟩ := h.byteAt_wide hc c.utf8Size_pos
    exact ⟨w, hw, fun p hp => by rw [hp.eq_false hwide, hp.eq_false hc]⟩

/-- Whether a character is a certain ASCII one can be told from its byte. -/
theorem Shows.eq_iff {b d : Char} (h : Shows b c) (hd : d.toNat < 128) : b = d ↔ c = d := by
  have := h _ (narrow_eq hd)
  rw [Bool.eq_iff_iff] at this
  simpa using this

theorem Shows.eq_of_narrow {b : Char} (h : Shows b c) (hc : c.toNat < 128) : b = c :=
  (h.eq_iff hc).mpr rfl

theorem Shows.symbolKind? {b : Char} (h : Shows b c) :
    Formula.symbolKind? b = Formula.symbolKind? c := by
  by_cases hc : c.toNat < 128
  · rw [h.eq_of_narrow hc]
  · have hb : ¬ b.toNat < 128 := fun hb => hc ((h.eq_iff hb).mp rfl ▸ hb)
    have hnone {d : Char} (hd : ¬ d.toNat < 128) : Formula.symbolKind? d = none :=
      Option.eq_none_iff_forall_ne_some.mpr fun _ hk => hd (narrow_of_symbolKind? hk)
    rw [hnone hb, hnone hc]

/-- The symbol that is read off bytes is the one of the characters. -/
theorem symbol_eq (h : At text i (c :: cs)) {b : Char} (hb : Shows b c) :
    symbol text b i line out = .ok (pieceTurn c cs i line out (symbolAt c cs)) := by
  rw [symbol, isLongSymbol_eq h, symbolAt, hb.symbolKind?]
  simp only [bind, Except.bind]
  split
  case isTrue hany =>
    obtain ⟨d, hd, hcd⟩ := (Option.any_eq_true ..).mp hany
    obtain ⟨tail, rfl⟩ := List.head?_eq_some_iff.mp hd
    obtain ⟨hc, hd⟩ := narrow_of_mem_longSymbols _ (List.contains_iff_mem.mp hcd)
    refine push_eq h .operator ?_ line.add_zero.symm
    rw [List.take_succ_cons, List.take_zero, String.utf8Len_cons, String.utf8Len_nil,
      utf8Size_eq_one.mpr hc, utf8Size_eq_one.mpr hd]
  case isFalse =>
    cases hk : symbolKind? c with
    | some kind =>
      refine push_eq h kind ?_ line.add_zero.symm
      rw [List.take_zero, String.utf8Len_nil, utf8Size_eq_one.mpr (narrow_of_symbolKind? hk)]
    | none =>
      have hrest : Bytes.cut text i text.utf8ByteSize = .ok (String.ofList (c :: cs)) := by
        rw [h.size]
        exact At.cut (by rwa [List.append_nil])
      rw [hrest]
      refine refuse_eq h .unexpectedCharacter ?_
      simp

/-- Whether a number starts can be told from two bytes. -/
theorem startsNumber_eq (h : At text i (c :: cs)) {b : Char} (hb : Shows b c) :
    (b.isDigit || b == '.' && (byteAt text (i + 1)).any Char.isDigit) = startsNumber c cs := by
  have hpoint : (b == '.') = (c == '.') := hb _ (narrow_eq (by decide))
  rw [startsNumber, hb _ narrow_isDigit, hpoint]
  by_cases hc : c = '.'
  · subst hc
    have htail : At text (i + 1) cs := h.tail
    rw [htail.any_byteAt narrow_isDigit]
  · rw [beq_eq_false_iff_ne.mpr hc, Bool.false_and, Bool.false_and]

theorem numberAt_lines {kind : TokenKind} {n lines : Nat} (h : numberAt cs = .token kind n lines) :
    lines = 0 := by
  rw [numberAt_eq] at h
  split at h
  · exact (Piece.token.inj h).2.2.symm
  · exact (Piece.token.inj h).2.2.symm
  · cases h

theorem numberAt_cause {cause : SyntaxCause} {n : Nat} (h : numberAt cs = .refused cause n) :
    cause = .missingExponent := by
  rw [numberAt_eq] at h
  split at h
  · cases h
  · cases h
  · exact (Piece.refused.inj h).1.symm

/-- A number as a turn of the scan. -/
theorem number_turn (h : At text i (c :: cs)) (hc : startsNumber c cs = true) :
    (do match ← number text i with
        | (stop, some kind) => push text kind i stop line line out
        | (stop, none) => refuse text .missingExponent i stop line) =
      .ok (pieceTurn c cs i line out (numberAt (c :: cs))) := by
  have hm := (mantissaLength_pos hc).1
  have hstop {n : Nat} (hn : Single (c :: cs) (n + 1)) :
      i + (n + 1) = i + c.utf8Size + utf8Len (cs.take n) := by
    rw [Single, List.take_succ_cons, String.utf8Len_cons] at hn
    omega
  rw [number_eq h hm]
  cases hp : numberAt (c :: cs) with
  | token kind n lines =>
    obtain rfl := numberAt_lines hp
    exact push_eq h kind (hstop (single_numberAt hp hm)) line.add_zero.symm
  | refused cause n =>
    obtain rfl : cause = .missingExponent := numberAt_cause hp
    exact refuse_eq h .missingExponent (hstop (single_numberAt_refused hp hm))

theorem narrow_quote : Narrow fun c => c == '"' || c == '\'' :=
  narrow_or (narrow_eq (by decide)) (narrow_eq (by decide))

/-- A string as a turn of the scan. -/
theorem string_turn (h : At text i (c :: cs)) (hquote : (c == '"' || c == '\'') = true) :
    (do match ← string text c (i + 1) line with
        | some (stop, next) => push text .string i (min stop text.utf8ByteSize) line next out
        | none => refuse text .unterminatedString i text.utf8ByteSize line) =
      .ok (pieceTurn c cs i line out <| match stringExtent c cs with
        | some (extent, lines) => .token .string extent lines
        | none => .refused .unterminatedString cs.length) := by
  have hc := narrow_quote c hquote
  have hone := utf8Size_eq_one.mpr hc
  have hsize := h.size
  rw [String.utf8Len_cons, hone] at hsize
  have hline : c ≠ '\n' := by
    rintro rfl
    cases hquote
  have htail := h.tail
  rw [hone] at htail
  rw [string_eq hc hline htail]
  cases stringExtent c cs with
  | some p =>
    refine push_eq h .string ?_ rfl
    have hle := String.utf8Len_le_of_sublist (List.take_sublist p.1 cs)
    rw [hone]
    exact Nat.min_eq_left (by omega)
  | none =>
    refine refuse_eq h .unterminatedString ?_
    rw [List.take_length, hone]
    omega

/-- The piece that is read off bytes is the one of the characters. -/
theorem piece_eq (h : At text i (c :: cs)) {b : Char} (hb : Shows b c) :
    piece text b i line out = .ok (pieceTurn c cs i line out (pieceAt c cs)) := by
  have hquotes : (b == '"' || b == '\'') = (c == '"' || c == '\'') := hb _ narrow_quote
  rw [piece, pieceAt_eq, startsNumber_eq h hb, hb _ narrow_startsName, hquotes]
  split
  case isTrue hc => exact number_turn h hc
  split
  case isTrue hname =>
    have hc := narrow_startsName c hname
    have htail := h.tail
    rw [utf8Size_eq_one.mpr hc] at htail
    rw [pass_eq narrow_continuesName htail]
    refine push_eq h .identifier ?_ line.add_zero.symm
    rw [single_runLength narrow_continuesName, utf8Size_eq_one.mpr hc]
  split
  case isTrue hquote =>
    rw [hb.eq_of_narrow (narrow_quote c hquote)]
    exact string_turn h hquote
  case isFalse => exact symbol_eq h hb

theorem narrow_isBlank : Narrow isBlank :=
  narrow_or (narrow_or (narrow_or (narrow_eq (by decide)) (narrow_eq (by decide)))
    (narrow_eq (by decide))) (narrow_eq (by decide))

theorem narrow_isSpace : Narrow isSpace := narrow_or (narrow_eq (by decide)) narrow_isBlank

theorem turn_space (h : At text i (c :: cs)) (hc : isSpace c = true) :
    turn text i (line, out) = .ok (.again (i + 1) (if c = '\n' then line + 1 else line, out)) := by
  rw [turn, h.byteAt_narrow (narrow_isSpace c hc)]
  by_cases hn : c = '\n'
  · simp only [if_pos hn]
  · have hb : isBlank c = true := by simpa [isSpace, hn] using hc
    simp only [if_neg hn, if_pos hb]

/-- A turn that is not over a space reads a piece. -/
theorem turn_piece (h : At text i (c :: cs)) (hc : isSpace c = false) (line : UInt32)
    (out : List Located) :
    turn text i (line, out) = .ok (pieceTurn c cs i line out (pieceAt c cs)) := by
  obtain ⟨b, hbyte, hb⟩ := h.byteAt_shows
  obtain ⟨hn, hblank⟩ : b ≠ '\n' ∧ isBlank b = false := by
    simpa [isSpace] using (hb _ narrow_isSpace).trans hc
  rw [turn, hbyte]
  simp only [if_neg hn, hblank]
  exact piece_eq h hb

end turns

/-! ## The whole text -/

/-- From a position between characters on, the loop does what the scan of the characters
does. -/
theorem loop_turn {i : Nat} {cs : List Char} (h : At text i cs) (line : UInt32)
    (out : List Located) :
    loop text.utf8ByteSize (turn text) i (line, out) =
      .ok ((scanFrom 0 i line cs).map (out ++ ·)) := by
  match cs with
  | [] =>
    have hturn : turn text i (line, out) = .ok (.done (.ok out)) := by
      rw [turn, show byteAt text i = none from h.byteAt_nil 0]
    rw [loop_done hturn, scanFrom]
    exact congrArg (Except.ok <| Except.ok ·) (List.append_nil out).symm
  | c :: cs =>
    cases hc : isSpace c with
    | true =>
      have hone := utf8Size_eq_one.mpr (narrow_isSpace c hc)
      have htail := h.tail
      rw [hone] at htail
      rw [loop_again (turn_space h hc) (Nat.lt_succ_self i) h.lt_size, loop_turn htail,
        scanFrom_space hc, hone]
    | false =>
      have hturn := turn_piece h hc line out
      cases hp : pieceAt c cs with
      | refused cause extent =>
        rw [hp] at hturn
        rw [loop_done hturn, scanFrom_refused hc hp]
        rfl
      | token kind extent lines =>
        rw [hp] at hturn
        have hpos := c.utf8Size_pos
        rw [loop_again hturn (by omega) h.lt_size, loop_turn (h.tail.drop extent),
          scanFrom_token hc hp, scanFrom_skip extent]
        cases scanFrom 0 _ (line + .ofNat lines) (cs.drop extent) with
        | error fault => rfl
        | ok ls => exact congrArg (Except.ok <| Except.ok ·) (List.append_assoc out [_] ls)
termination_by cs.length

/-- The scan by bytes comes to what the scan of the characters comes to. -/
theorem scan_eq (text : String) : scan text = .ok (Located.scan text) := by
  rw [scan, loop_turn (at_zero text), Located.scan]
  cases scanFrom 0 0 1 text.toList <;> rfl

end Bytes

/-! ## Strings and their quotes -/

/-- A string ends with its quote. -/
theorem stringExtent_quote {quote : Char} {cs : List Char} {n lines : Nat}
    (h : stringExtent quote cs = some (n, lines)) : ∃ body, cs.take n = body ++ [quote] := by
  induction cs using escapeInduction generalizing n lines with
  | nil => cases h
  | lone => cases h
  | escaped c cs ih =>
    obtain ⟨⟨m, l⟩, hm, he⟩ := Option.map_eq_some_iff.mp h
    obtain ⟨body, hbody⟩ := ih hm
    cases he
    exact ⟨'\\' :: c :: body, by rw [List.take_succ_cons, List.take_succ_cons, hbody]; rfl⟩
  | plain c cs hc ih =>
    rw [stringExtent_cons hc] at h
    split at h
    case isTrue hq =>
      cases h
      exact ⟨[], by rw [hq]; rfl⟩
    case isFalse =>
      obtain ⟨⟨m, l⟩, hm, he⟩ := Option.map_eq_some_iff.mp h
      obtain ⟨body, hbody⟩ := ih hm
      cases he
      exact ⟨c :: body, by rw [List.take_succ_cons, hbody]; rfl⟩

theorem numberAt_kind {cs : List Char} {kind : TokenKind} {n lines : Nat}
    (h : numberAt cs = .token kind n lines) : kind ≠ .string := by
  rw [numberAt_eq] at h
  split at h
  · obtain rfl := (Piece.token.inj h).1
    split <;> nofun
  · obtain rfl := (Piece.token.inj h).1
    nofun
  · cases h

theorem symbolAt_kind {c : Char} {cs : List Char} {kind : TokenKind} {n lines : Nat}
    (h : symbolAt c cs = .token kind n lines) : kind ≠ .string := by
  unfold symbolAt at h
  split at h
  · obtain rfl := (Piece.token.inj h).1
    nofun
  · split at h
    · rename_i k hk
      obtain rfl := (Piece.token.inj h).1
      rintro rfl
      unfold symbolKind? at hk
      split at hk <;> cases hk
    · cases h

/-- Only a quote starts a string. -/
theorem pieceAt_eq_string {c : Char} {cs : List Char} {n lines : Nat}
    (h : pieceAt c cs = .token .string n lines) :
    (c = '"' ∨ c = '\'') ∧ stringExtent c cs = some (n, lines) := by
  rw [pieceAt_eq] at h
  split at h
  case isTrue => exact absurd rfl (numberAt_kind h)
  split at h
  case isTrue => cases h
  split at h
  case isFalse => exact absurd rfl (symbolAt_kind h)
  case isTrue hquote =>
    refine ⟨by simpa using hquote, ?_⟩
    split at h
    · rename_i he
      cases h
      exact he
    · cases h

/-- A string token is a body between two quotes, each of one byte. -/
theorem Token.Standalone.quoted {t : Token} (ht : t.Standalone) (hk : t.kind = .string) :
    ∃ quote body, (quote = '"' ∨ quote = '\'') ∧
      t.lexeme = String.ofList (quote :: (body ++ [quote])) := by
  obtain ⟨c, body, lines, hl, -, hp⟩ := ht
  have := hp [] .nil
  rw [hk, List.append_nil] at this
  obtain ⟨hc, hs⟩ := pieceAt_eq_string this
  obtain ⟨inside, hinside⟩ := stringExtent_quote hs
  rw [List.take_length] at hinside
  exact ⟨c, inside, hc, by rw [hl, hinside]⟩

theorem Bytes.unescape_eq {t : Token} {quote : Char} {body : List Char}
    (hq : quote = '"' ∨ quote = '\'')
    (hl : t.lexeme = String.ofList (quote :: (body ++ [quote]))) :
    Bytes.unescape t = .ok t.unescape := by
  have hone : quote.utf8Size = 1 := by obtain rfl | rfl := hq <;> rfl
  have hbody : Bytes.At t.lexeme 1 (body ++ [quote]) := ⟨[quote], by rw [hl]; rfl, by simp [hone]⟩
  have hsize : t.lexeme.utf8ByteSize - 1 = 1 + utf8Len body := by
    rw [hl, String.utf8ByteSize_ofList, String.utf8Len_cons, String.utf8Len_append,
      String.utf8Len_cons, String.utf8Len_nil, hone]
    omega
  have hinside : (t.lexeme.toList.drop 1).dropLast = body := by
    rw [hl, String.toList_ofList, List.drop_succ_cons, List.drop_zero, List.dropLast_concat]
  rw [Bytes.unescape, hsize, hbody.cut, Token.unescape, hinside]
  simp only [bind, Except.bind, String.toList_ofList]
  cases unescapeChars body <;> rfl

/-- No scan by bytes crashes : every cut is between boundaries of characters, and every turn of
a loop moves on. It gives the tokens, and each string token has a first and a last byte that
are the same quote, and can be cut between them. -/
theorem Bytes.scan_without_crash (text : String) :
    Bytes.scan text = .ok (Located.scan text) ∧
      ∀ ts, Token.scan text = .ok ts → ∀ t ∈ ts, t.kind = .string →
        2 ≤ t.lexeme.utf8ByteSize ∧
        (∃ quote body, (quote = '"' ∨ quote = '\'') ∧
          t.lexeme = String.ofList (quote :: (body ++ [quote]))) ∧
        Bytes.unescape t = .ok t.unescape := by
  refine ⟨Bytes.scan_eq text, fun ts h t ht hk => ?_⟩
  obtain ⟨ls, hls, rfl⟩ := Except.map_eq_ok.mp h
  obtain ⟨l, hl, rfl⟩ := List.mem_map.mp ht
  obtain ⟨quote, body, hq, hlex⟩ := (standalone_of_scanFrom hls l hl).quoted hk
  refine ⟨?_, ⟨quote, body, hq, hlex⟩, Bytes.unescape_eq hq hlex⟩
  have := quote.utf8Size_pos
  rw [hlex, String.utf8ByteSize_ofList, String.utf8Len_cons, String.utf8Len_append,
    String.utf8Len_cons]
  omega

theorem Bytes.scan_without_crash_accent :
    Token.scan "\"é\\é\n\" = 'ß'" =
        .ok [⟨"\"é\\é\n\"", .string, 1⟩, ⟨"=", .operator, 2⟩, ⟨"'ß'", .string, 2⟩] ∧
      Bytes.unescape ⟨"\"é\\é\n\"", .string, 1⟩ =
        .ok (.error (.syntactic ⟨1, "\"é\\é\n\""⟩ (.unknownEscape 'é'))) := by
  have hs : Token.scan "\"é\\é\n\" = 'ß'" =
      .ok [⟨"\"é\\é\n\"", .string, 1⟩, ⟨"=", .operator, 2⟩, ⟨"'ß'", .string, 2⟩] := by cbv
  obtain ⟨-, -, hu⟩ := (Bytes.scan_without_crash _).2 _ hs _ List.mem_cons_self rfl
  exact ⟨hs, hu.trans (congrArg Except.ok (by cbv))⟩

end Formula

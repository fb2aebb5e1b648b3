import Formula.Proofs.Bytes

/-!
# String literals and what they stand for

A text is written as a string literal by a backslash in front of each backslash and of each
quote of the kind around it (`stringLiteral`). The scan decides where a literal ends, and
`Token.unescape` what it stands for; both read what is written for one character as that one
character (`stringExtent_escape`, `unescapeChars_escape`), so each literal so written is one
token and stands for its text.

The scan takes the character behind a backslash along. A literal that it has taken never ends
in a backslash that stands for nothing (`unescape_of_stringExtent`), and the one thing wrong
with it can be that a backslash is in front of a character of no meaning.
-/

namespace Formula

/-! ## Writing -/

/-- What is written between these quotes for a character. -/
def escape (quote c : Char) : List Char := if c = '\\' ∨ c = quote then ['\\', c] else [c]

/-- The literal that is written for a text. -/
def stringLiteral (quote : Char) (s : String) : String :=
  String.ofList (quote :: (s.toList.flatMap (escape quote) ++ [quote]))

/-- The characters that stand around a string. -/
def IsQuote (c : Char) : Prop := c = '"' ∨ c = '\''

variable {quote : Char}

theorem IsQuote.ne (hq : IsQuote quote) : quote ≠ '\\' ∧ quote ≠ '\n' := by
  obtain rfl | rfl := hq <;> decide

theorem IsQuote.escaped? (hq : IsQuote quote) : Formula.escaped? quote = some quote := by
  obtain rfl | rfl := hq <;> rfl

theorem IsQuote.isSpace (hq : IsQuote quote) : Formula.isSpace quote = false := by
  obtain rfl | rfl := hq <;> rfl

/-- Behind a quote, the piece is a string. -/
theorem IsQuote.pieceAt (hq : IsQuote quote) {cs : List Char} {n lines : Nat}
    (h : stringExtent quote cs = some (n, lines)) :
    Formula.pieceAt quote cs = .token .string n lines := by
  have hstarts : startsNumber quote cs = false ∧ startsName quote = false := by
    obtain rfl | rfl := hq <;> exact ⟨rfl, rfl⟩
  have hquote : (quote == '"' || quote == '\'') = true := by
    obtain rfl | rfl := hq <;> rfl
  rw [pieceAt_eq, if_neg (ne_true_of_eq_false hstarts.1), if_neg (ne_true_of_eq_false hstarts.2),
    if_pos hquote, h]

/-! ## Where a literal ends -/

theorem stringExtent_backslash (quote c : Char) (cs : List Char) :
    stringExtent quote ('\\' :: c :: cs) =
      (stringExtent quote cs).map fun p => (p.1 + 2, p.2) := by
  rw [stringExtent]

/-- What is written for a character does not end the literal. -/
theorem stringExtent_escape (hq : IsQuote quote) (c : Char) (rest : List Char) :
    stringExtent quote (escape quote c ++ rest) = (stringExtent quote rest).map fun p =>
      (p.1 + (escape quote c).length, if c = '\n' then p.2 + 1 else p.2) := by
  unfold escape
  split
  case isTrue hc =>
    have hn : c ≠ '\n' := by
      rintro rfl
      exact hc.elim (by decide) fun h => hq.ne.2 h.symm
    simp only [if_neg hn]
    exact stringExtent_backslash ..
  case isFalse hc =>
    obtain ⟨hb, hcq⟩ := not_or.mp hc
    rw [List.singleton_append, stringExtent_cons hb, if_neg hcq]
    rfl

/-- An escaped text ends at the quote behind it. -/
theorem stringExtent_flatMap_escape (hq : IsQuote quote) (cs : List Char) :
    stringExtent quote (cs.flatMap (escape quote) ++ [quote]) =
      some ((cs.flatMap (escape quote) ++ [quote]).length, cs.count '\n') := by
  induction cs with
  | nil => rw [List.flatMap_nil, List.nil_append, stringExtent_cons hq.ne.1, if_pos rfl]; rfl
  | cons c cs ih =>
    have hlength : (escape quote c ++ (cs.flatMap (escape quote) ++ [quote])).length =
        (cs.flatMap (escape quote) ++ [quote]).length + (escape quote c).length := by
      rw [List.length_append, Nat.add_comm]
    rw [List.flatMap_cons, List.append_assoc, stringExtent_escape hq, ih, Option.map_some,
      hlength, List.count_cons]
    simp only [beq_iff_eq]
    split <;> rfl

/-! ## What a literal stands for -/

theorem unescapeChars_cons {c : Char} (hc : c ≠ '\\') (cs : List Char) :
    unescapeChars (c :: cs) = (unescapeChars cs).map (c :: ·) := by
  rw [unescapeChars.eq_4] <;> intros <;> contradiction

/-- What is written for a character stands for it. -/
theorem unescapeChars_escape (hq : IsQuote quote) (c : Char) (rest : List Char) :
    unescapeChars (escape quote c ++ rest) = (unescapeChars rest).map (c :: ·) := by
  unfold escape
  split
  case isTrue hc =>
    have hself : escaped? c = some c := by
      obtain rfl | rfl := hc
      · rfl
      · exact hq.escaped?
    rw [List.cons_append, List.singleton_append, unescapeChars, hself]
  case isFalse hc => exact unescapeChars_cons (not_or.mp hc).1 rest

/-- Taking the escapes away again gives the text back. -/
theorem unescapeChars_flatMap_escape (hq : IsQuote quote) (cs : List Char) :
    unescapeChars (cs.flatMap (escape quote)) = .ok cs := by
  induction cs with
  | nil => rfl
  | cons c cs ih => rw [List.flatMap_cons, unescapeChars_escape hq, ih]; rfl

/-- A literal that has come to an end stands for a text, unless it has a backslash in front of
a character of no meaning. -/
theorem unescape_of_stringExtent {cs : List Char} {n lines : Nat}
    (h : stringExtent quote cs = some (n, lines)) :
    ∃ body, cs.take n = body ++ [quote] ∧
      ∀ cause, unescapeChars body = .error cause →
        ∃ c, escaped? c = none ∧ cause = .unknownEscape c := by
  induction cs using escapeInduction generalizing n lines with
  | nil => cases h
  | lone => cases h
  | escaped c cs ih =>
    obtain ⟨⟨m, l⟩, hm, he⟩ := Option.map_eq_some_iff.mp h
    cases he
    obtain ⟨body, hbody, hcause⟩ := ih hm
    -- what is behind the backslash is inside, even if it is a quote
    refine ⟨'\\' :: c :: body, by rw [List.take_succ_cons, List.take_succ_cons, hbody]; rfl, ?_⟩
    intro cause hc
    rw [unescapeChars] at hc
    split at hc
    · exact hcause cause (Except.map_eq_error.mp hc)
    · exact ⟨c, ‹_›, (Except.error.inj hc).symm⟩
  | plain c cs hc ih =>
    rw [stringExtent_cons hc] at h
    split at h
    case isTrue hcq =>
      cases h
      refine ⟨[], by rw [hcq]; rfl, fun cause he => ?_⟩
      cases he
    case isFalse =>
      obtain ⟨⟨m, l⟩, hm, he⟩ := Option.map_eq_some_iff.mp h
      cases he
      obtain ⟨body, hbody, hcause⟩ := ih hm
      refine ⟨c :: body, by rw [List.take_succ_cons, hbody]; rfl, fun cause he => ?_⟩
      rw [unescapeChars_cons hc] at he
      exact hcause cause (Except.map_eq_error.mp he)

/-! ## Literals and tokens -/

namespace Token

theorem scan_stringLiteral (hq : IsQuote quote) (s : String) :
    scan (stringLiteral quote s) = .ok [⟨stringLiteral quote s, .string, 1⟩] := by
  have hextent := stringExtent_flatMap_escape hq s.toList
  rw [scan, Located.scan, stringLiteral, String.toList_ofList,
    scanFrom_token hq.isSpace (hq.pieceAt hextent), scanFrom_skip, List.drop_length, scanFrom,
    lexemeAt, List.take_length]
  rfl

theorem unescape_of_body {t : Token} {body : List Char} {c d : Char}
    (ht : t.lexeme = String.ofList (c :: (body ++ [d]))) :
    t.unescape = match unescapeChars body with
      | .ok cs => .ok (String.ofList cs)
      | .error cause => .error (.syntactic ⟨t.line, t.lexeme⟩ cause) := by
  have hinside : (t.lexeme.toList.drop 1).dropLast = body := by
    rw [ht, String.toList_ofList, List.drop_succ_cons, List.drop_zero, List.dropLast_concat]
  have hunescape : t.unescape = match unescapeChars (t.lexeme.toList.drop 1).dropLast with
      | .ok cs => .ok (String.ofList cs)
      | .error cause => .error (.syntactic ⟨t.line, t.lexeme⟩ cause) := rfl
  rw [hunescape, hinside]

theorem unescape_stringLiteral (hq : IsQuote quote) (s : String) (line : UInt32) :
    unescape ⟨stringLiteral quote s, .string, line⟩ = .ok s := by
  rw [unescape_of_body (t := ⟨stringLiteral quote s, .string, line⟩) rfl,
    unescapeChars_flatMap_escape hq]
  exact congrArg Except.ok (String.ofList_toList)

/-- The text of a string token is refused for nothing but an escape of no meaning. -/
theorem Standalone.unescape_error {t : Token} (ht : t.Standalone) (hk : t.kind = .string)
    {f : Fault} (hf : t.unescape = .error f) :
    ∃ c, escaped? c = none ∧ f = .syntactic ⟨t.line, t.lexeme⟩ (.unknownEscape c) := by
  obtain ⟨quote, body, lines, hl, -, hp⟩ := ht
  have hpiece := hp [] .nil
  rw [hk, List.append_nil] at hpiece
  obtain ⟨-, hextent⟩ := pieceAt_eq_string hpiece
  obtain ⟨inside, hinside, hcause⟩ := unescape_of_stringExtent hextent
  rw [List.take_length] at hinside
  rw [unescape_of_body (hinside ▸ hl)] at hf
  split at hf
  · cases hf
  · rename_i cause he
    obtain ⟨c, hc, rfl⟩ := hcause cause he
    exact ⟨c, hc, (Except.error.inj hf).symm⟩

/-- The literal that is written for a text is one token, and stands for the text. No literal
that the scan takes ends in a backslash that stands for nothing. -/
theorem scan_and_unescape (s : String) (hq : IsQuote quote) :
    scan (stringLiteral quote s) = .ok [⟨stringLiteral quote s, .string, 1⟩] ∧
      unescape ⟨stringLiteral quote s, .string, 1⟩ = .ok s ∧
      ∀ text ts, scan text = .ok ts → ∀ t ∈ ts, t.kind = .string →
        ∀ p, t.unescape ≠ .error (.syntactic p .danglingBackslash) := by
  refine ⟨scan_stringLiteral hq s, unescape_stringLiteral hq s 1, ?_⟩
  intro text ts h t ht hk p hp
  obtain ⟨ls, hls, rfl⟩ := Except.map_eq_ok.mp h
  obtain ⟨l, hl, rfl⟩ := List.mem_map.mp ht
  obtain ⟨c, -, hc⟩ := (standalone_of_scanFrom hls l hl).unescape_error hk hp
  cases hc

theorem scan_and_unescape_backslash :
    IsQuote '"' ∧ stringLiteral '"' "a\\\"\n'" = "\"a\\\\\\\"\n'\"" ∧
      scan "\"a\\\\\\\"\n'\"" = .ok [⟨"\"a\\\\\\\"\n'\"", .string, 1⟩] ∧
      unescape ⟨"\"a\\\\\\\"\n'\"", .string, 1⟩ = .ok "a\\\"\n'" ∧
      scan "'\\q'" = .ok [⟨"'\\q'", .string, 1⟩] ∧
      ∀ p, unescape ⟨"'\\q'", .string, 1⟩ ≠ .error (.syntactic p .danglingBackslash) := by
  have hq : IsQuote '"' := .inl rfl
  have hs : stringLiteral '"' "a\\\"\n'" = "\"a\\\\\\\"\n'\"" := by cbv
  have hunknown : scan "'\\q'" = .ok [⟨"'\\q'", .string, 1⟩] := by cbv
  obtain ⟨hscan, htext, hnone⟩ := scan_and_unescape "a\\\"\n'" hq
  rw [hs] at hscan htext
  exact ⟨hq, hs, hscan, htext, hunknown, hnone _ _ hunknown _ List.mem_cons_self rfl⟩

end Token

end Formula

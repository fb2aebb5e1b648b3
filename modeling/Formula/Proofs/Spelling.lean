import Formula.Proofs.Lexemes
import Formula.Proofs.Recognition

/-!
# Texts that are put together

A text can be put together from pieces whose tokens are known : its tokens are those of the
pieces, one after the other, on the lines on which they stand (`ScansAs`). A token in front of
others needs no more than that it ends where they start. A whole text in front of a closing
parenthesis keeps all of its tokens, since nothing goes on with a parenthesis
(`ScansAs.append_close`).

Where the grammar derives the tokens, the tree that it gives says what is built
(`Element.postfixOfText_of_derives`), and a part of the tree is built on top of whatever the
stack holds already (`Node.foldlM_build_append`).
-/

namespace Formula

/-- A run goes on into what follows it. -/
theorem runLength_append_of_all {p : Char → Bool} {cs : List Char} (h : cs.all p = true)
    (rest : List Char) : runLength p (cs ++ rest) = cs.length + runLength p rest := by
  induction cs with
  | nil => exact (Nat.zero_add _).symm
  | cons c cs ih =>
    rw [List.all_cons, Bool.and_eq_true] at h
    rw [List.cons_append, runLength, if_pos h.1, ih h.2, List.length_cons]
    omega

/-! ## In front of a closing parenthesis -/

section close

variable (cs rest : List Char)

theorem runLength_append_close {p : Char → Bool} (hp : p ')' = false) :
    runLength p (cs ++ ')' :: rest) = runLength p cs := by
  induction cs with
  | nil => simp [runLength, hp]
  | cons c cs ih => rw [List.cons_append, runLength, runLength, ih]

theorem fractionLength_append_close :
    fractionLength (cs ++ ')' :: rest) = fractionLength cs := by
  cases cs with
  | nil => rfl
  | cons c cs =>
    by_cases hc : c = '.'
    · subst hc
      have hdigits := runLength_append_close cs rest (p := Char.isDigit) rfl
      simp only [List.cons_append, fractionLength, hdigits]
    · simp [fractionLength, hc]

theorem signLength_append_close : signLength (cs ++ ')' :: rest) = signLength cs := by
  cases cs with
  | nil => rfl
  | cons c cs => rfl

theorem exponentLength_append_close :
    exponentLength (cs ++ ')' :: rest) = exponentLength cs := by
  cases cs with
  | nil => rfl
  | cons e cs =>
    rw [List.cons_append, exponentLength_cons, exponentLength_cons, signLength_append_close,
      List.drop_append_of_le_length (signLength_le_length cs),
      runLength_append_close _ rest rfl]

theorem numberAt_append_close : numberAt (cs ++ ')' :: rest) = numberAt cs := by
  have hwhole := runLength_append_close cs rest (p := Char.isDigit) rfl
  have hfraction :
      fractionLength ((cs ++ ')' :: rest).drop (runLength Char.isDigit cs)) =
        fractionLength (cs.drop (runLength Char.isDigit cs)) := by
    rw [List.drop_append_of_le_length (runLength_le_length ..), fractionLength_append_close]
  have hsize : mantissaLength (cs ++ ')' :: rest) = mantissaLength cs := by
    rw [mantissaLength, hwhole, hfraction, mantissaLength]
  rw [numberAt_eq, hsize, hwhole, hfraction,
    List.drop_append_of_le_length (mantissaLength_le_length cs), exponentLength_append_close,
    ← numberAt_eq]

variable (c : Char)

theorem symbolAt_append_close : symbolAt c (cs ++ ')' :: rest) = symbolAt c cs := by
  cases cs with
  | nil => simp [symbolAt, longSymbols]
  | cons d cs => rfl

/-- A token is the same with a closing parenthesis behind the text that it stands in. -/
theorem pieceAt_append_close {kind : TokenKind} {n lines : Nat}
    (h : pieceAt c cs = .token kind n lines) :
    pieceAt c (cs ++ ')' :: rest) = .token kind n lines := by
  have hstarts : startsNumber c (cs ++ ')' :: rest) = startsNumber c cs := by
    cases cs <;> rfl
  rw [pieceAt_eq] at h ⊢
  rw [hstarts, ← List.cons_append, numberAt_append_close, symbolAt_append_close,
    runLength_append_close cs rest rfl]
  split at h
  case isTrue hc => rwa [if_pos hc]
  case isFalse hc =>
    rw [if_neg hc]
    split at h
    case isTrue hname => rwa [if_pos hname]
    case isFalse hname =>
      rw [if_neg hname]
      split at h
      case isFalse hquote => rwa [if_neg hquote]
      case isTrue hquote =>
        rw [if_pos hquote]
        split at h
        case h_2 => cases h
        rename_i extent l he
        have happend := stringExtent_take_append he (cs.drop extent ++ ')' :: rest)
        rw [← List.append_assoc, List.take_append_drop] at happend
        rwa [happend]

end close

/-- A scan that succeeds goes on to a closing parenthesis. The line on which it comes to it does
not hang on the byte at which it starts. -/
theorem scanFrom_append_close {cs : List Char} {skip offset : Nat} {line : UInt32}
    {ls : List Located} (hskip : skip ≤ cs.length) (h : scanFrom skip offset line cs = .ok ls) :
    ∃ last, ∀ offset', (scanFrom skip offset' line (cs ++ [')'])).map
      (List.map Located.token) = .ok (ls.map Located.token ++ [⟨")", .rightParen, last⟩]) := by
  induction cs generalizing skip offset line ls with
  | nil =>
    obtain rfl := Nat.le_zero.1 hskip
    obtain rfl := Except.ok.inj h
    exact ⟨line, fun _ => rfl⟩
  | cons c cs ih =>
    cases skip with
    | succ skip =>
      rw [scanFrom] at h
      obtain ⟨last, hlast⟩ := ih (Nat.le_of_succ_le_succ hskip) h
      exact ⟨last, fun offset' => hlast _⟩
    | zero =>
      cases hc : isSpace c with
      | true =>
        rw [scanFrom_space hc] at h
        obtain ⟨last, hlast⟩ := ih (Nat.zero_le _) h
        refine ⟨last, fun offset' => ?_⟩
        rw [List.cons_append, scanFrom_space hc]
        exact hlast _
      | false =>
        cases hp : pieceAt c cs with
        | refused cause extent =>
          rw [scanFrom_refused hc hp] at h
          cases h
        | token kind extent lines =>
          rw [scanFrom_token hc hp] at h
          obtain ⟨rest, hrest, rfl⟩ := Except.map_eq_ok.1 h
          have hextent := extent_le_length hp
          obtain ⟨last, hlast⟩ := ih hextent hrest
          refine ⟨last, fun offset' => ?_⟩
          obtain ⟨ls', hls', htokens⟩ := Except.map_eq_ok.1 (hlast (offset' + c.utf8Size))
          rw [List.cons_append, scanFrom_token hc (pieceAt_append_close cs [] c hp), hls',
            lexemeAt, List.take_append_of_le_length hextent]
          simp only [Except.map, List.map_cons, List.cons_append, htokens, lexemeAt]

/-! ## Tokens in a row -/

/-- A character of a class that has no spaces is none. -/
theorem isSpace_eq_false {p : Char → Bool} {c : Char} (hc : p c = true)
    (hp : ['\n', ' ', '\t', '\r', '\x0c'].any p = false) : isSpace c = false := by
  rw [Bool.eq_false_iff]
  intro hs
  have hmem : c ∈ ['\n', ' ', '\t', '\r', '\x0c'] := by
    simpa [isSpace, isBlank, or_assoc] using hs
  exact List.any_eq_false.1 hp c hmem hc

/-- The tokens of the characters, which stand on this line and at whatever byte. -/
def ScansAs (line : UInt32) (cs : List Char) (ts : List Token) : Prop :=
  ∀ offset, (scanFrom 0 offset line cs).map (List.map Located.token) = .ok ts

namespace ScansAs

variable {line : UInt32} {cs rest : List Char} {ts : List Token}

theorem nil : ScansAs line [] [] := fun _ => rfl

theorem space (h : ScansAs line cs ts) : ScansAs line (' ' :: cs) ts := by
  intro offset
  rw [scanFrom_space rfl]
  exact h _

/-- A token of one line in front of others. -/
theorem token {c : Char} {body : List Char} {kind : TokenKind} (hc : isSpace c = false)
    (hp : pieceAt c (body ++ rest) = .token kind body.length 0) (h : ScansAs line rest ts) :
    ScansAs line (c :: body ++ rest) (⟨String.ofList (c :: body), kind, line⟩ :: ts) := by
  intro offset
  obtain ⟨ls, hls, rfl⟩ := Except.map_eq_ok.1
    (h (offset + c.utf8Size + String.utf8Len ((body ++ rest).take body.length)))
  have hline : line + .ofNat 0 = line := line.add_zero
  rw [List.cons_append, scanFrom_token hc hp, scanFrom_skip, List.drop_left, hline, hls, lexemeAt,
    List.take_left]
  rfl

/-- A token of one character. -/
theorem char {c : Char} {kind : TokenKind} (hc : isSpace c = false)
    (hp : pieceAt c rest = .token kind 0 0) (h : ScansAs line rest ts) :
    ScansAs line (c :: rest) (⟨String.ofList [c], kind, line⟩ :: ts) :=
  @token line rest ts c [] kind hc hp h

/-- A token of two characters. -/
theorem pair {c d : Char} {kind : TokenKind} (hc : isSpace c = false)
    (hp : pieceAt c (d :: rest) = .token kind 1 0) (h : ScansAs line rest ts) :
    ScansAs line (c :: d :: rest) (⟨String.ofList [c, d], kind, line⟩ :: ts) :=
  @token line rest ts c [d] kind hc hp h

/-- The tokens of a text, with a closing parenthesis behind it. -/
theorem append_close {s : String} (h : Token.scan s = .ok ts) :
    ∃ line, ScansAs 1 (s.toList ++ [')']) (ts ++ [⟨")", .rightParen, line⟩]) := by
  obtain ⟨ls, hls, rfl⟩ := Except.map_eq_ok.1 h
  exact scanFrom_append_close (Nat.zero_le _) hls

end ScansAs

theorem Token.scan_ofList {cs : List Char} {ts : List Token} (h : ScansAs 1 cs ts) :
    Token.scan (String.ofList cs) = .ok ts := by
  have hscan := h 0
  rwa [← String.toList_ofList (l := cs)] at hscan

/-! ## From tokens to trees -/

/-- The elements of a text whose tokens are derived are those of the derived tree. -/
theorem Element.postfixOfText_of_derives {source : String} {ts : List Token} {T : Tree}
    (hts : Token.scan source = .ok ts) (h : Derives .sequence ts [T]) :
    postfixOfText source = .ok T.elements := by
  obtain ⟨es, hes, hpostfix⟩ := h.toPostfix
  exact Except.bind_eq_ok.2 ⟨ts, hts, Except.bind_eq_ok.2 ⟨es, hes, hpostfix⟩⟩

namespace Node

variable {ctx : BuildContext} {e : Element} {stack stack' : List Node}

/-- What is below the operands of an element on the stack stays there. -/
theorem build_append (h : build ctx stack e = .ok stack') (below : List Node) :
    build ctx (stack ++ below) e = .ok (stack' ++ below) := by
  have one : ∀ {f : Node × List Node → List Node}, (∀ a s, f (a, s ++ below) = f (a, s) ++ below) →
      (pop e stack).map f = .ok stack' →
        (pop e (stack ++ below)).map f = .ok (stack' ++ below) := by
    intro f hf h
    obtain ⟨⟨a, rest⟩, hpop, rfl⟩ := Except.map_eq_ok.1 h
    obtain rfl := pop_eq_ok.1 hpop
    exact congrArg Except.ok (hf a rest)
  have two : ∀ {f : Node × Node × List Node → List Node},
      (∀ a b s, f (a, b, s ++ below) = f (a, b, s) ++ below) →
      (popPair e stack).map f = .ok stack' →
        (popPair e (stack ++ below)).map f = .ok (stack' ++ below) := by
    intro f hf h
    obtain ⟨⟨a, b, rest⟩, hpop, rfl⟩ := Except.map_eq_ok.1 h
    obtain rfl := popPair_eq_ok.1 hpop
    exact congrArg Except.ok (hf a b rest)
  unfold build at h ⊢
  cases hrole : e.role with
  | literal k =>
    rw [hrole] at h
    obtain ⟨v, hv, rfl⟩ := Except.map_eq_ok.1 h
    exact Except.map_eq_ok.2 ⟨v, hv, rfl⟩
  | name =>
    rw [hrole] at h
    obtain ⟨n, hn, rfl⟩ := Except.map_eq_ok.1 h
    exact Except.map_eq_ok.2 ⟨n, hn, rfl⟩
  | assign op =>
    rw [hrole] at h
    simp only at h
    split at h
    · cases h
    · rename_i target v rest hpop
      obtain rfl := popPair_eq_ok.1 hpop
      obtain ⟨n, hn, rfl⟩ := Except.map_eq_ok.1 h
      exact Except.map_eq_ok.2 ⟨n, hn, rfl⟩
  | function =>
    rw [hrole] at h
    simp only [ofCall] at h ⊢
    cases hf : ctx.registry.resolve e.lexeme e.argc with
    | error fault => simp [hf] at h
    | ok f =>
      simp only [hf] at h ⊢
      split at h
      · cases h
      · rename_i hlen
        obtain rfl := Except.ok.inj h
        have hle : e.argc ≤ stack.length := Nat.le_of_not_lt hlen
        rw [if_neg (by rw [List.length_append]; omega), List.take_append_of_le_length hle,
          List.drop_append_of_le_length hle]
        rfl
  | not | sign _ =>
    rw [hrole] at h
    exact one (fun _ _ => rfl) h
  | logic _ | arith _ | compare _ | semicolon =>
    rw [hrole] at h
    exact two (fun _ _ _ => rfl) h
  | comma | groupOpen | callOpen | close => simp [hrole] at h

theorem foldlM_build_cons {es : List Element} {result : Except Fault (List Node)}
    (h : build ctx stack e = .ok stack') (hes : es.foldlM (build ctx) stack' = result) :
    (e :: es).foldlM (build ctx) stack = result := by
  rw [List.foldlM_cons, h]
  exact hes

theorem ofPostfix_of_foldlM {es : List Element} {root : Node}
    (h : es.foldlM (build ctx) [] = .ok [root]) : ofPostfix ctx es = .ok root := by
  rw [ofPostfix, h]
  rfl

/-- Elements are taken in on top of whatever the stack holds. -/
theorem foldlM_build_append {es : List Element} (h : es.foldlM (build ctx) stack = .ok stack')
    (below : List Node) : es.foldlM (build ctx) (stack ++ below) = .ok (stack' ++ below) := by
  induction es generalizing stack with
  | nil =>
    obtain rfl := Except.ok.inj h
    rfl
  | cons e es ih =>
    rw [List.foldlM_cons] at h ⊢
    obtain ⟨next, hnext, h⟩ := Except.bind_eq_ok.1 h
    exact Except.bind_eq_ok.2 ⟨next ++ below, build_append hnext below, ih h⟩

end Node

end Formula

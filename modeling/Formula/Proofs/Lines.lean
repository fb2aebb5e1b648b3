import Formula.Element.Basic
import Formula.Proofs.Bytes
import Formula.Proofs.Numerals

/-!
# Lines of tokens

The line of a token is one more than the line ends in front of it, as far as the scan counts
them. It counts all but those that stand behind a backslash in a string literal
(`skippedLineEnds`), so a token or a fault is named on a line too early for each of those in
front of it, and on its own line where there is none (`Located.scan_lines`). The count has 32 bits :
what is named is the line without the multiples of 2^32 in it, and so the line itself in a text of
fewer lines (`OnLine.toNat_line`).

A scan is followed piece by piece (`Cursor.Step`). What it keeps is that the line it is on and
the skipped line ends make up the line ends it has passed (`Cursor.Counted`). Every scan comes
to the end of the text or to a piece that it refuses (`Cursor.exists_end`), and its outcome is
read off there.
-/

namespace Formula

open String (utf8Len)

/-! ## Line ends in one token -/

/-- How many line ends stand behind a backslash. -/
def escapedLineEnds : List Char → Nat
  | '\\' :: c :: cs => (if c = '\n' then 1 else 0) + escapedLineEnds cs
  | _ :: cs => escapedLineEnds cs
  | [] => 0

theorem escapedLineEnds_cons {c : Char} (hc : c ≠ '\\') (cs : List Char) :
    escapedLineEnds (c :: cs) = escapedLineEnds cs := by
  rw [escapedLineEnds.eq_2]
  intros
  contradiction

theorem Plain.lineEnds {cs : List Char} (h : Plain cs) :
    escapedLineEnds cs = 0 ∧ cs.count '\n' = 0 := by
  refine ⟨?_, List.count_eq_zero.mpr fun hn => (h _ hn).1 rfl⟩
  induction cs with
  | nil => rfl
  | cons c cs ih =>
    obtain ⟨hc, hcs⟩ := List.forall_mem_cons.mp h
    rw [escapedLineEnds_cons hc.2, ih hcs]

section pieces

variable {c : Char} {cs : List Char} {kind : TokenKind} {n lines : Nat}

theorem plain_numberAt (h : numberAt (c :: cs) = .token kind n lines)
    (hc : startsNumber c cs = true) : Plain (c :: cs.take n) := by
  obtain ⟨m, hm, -⟩ := writes_of_numberAt h (mantissaLength_pos hc).1
  exact hm.plain

theorem plain_name (hc : startsName c = true) :
    Plain (c :: cs.take (runLength continuesName cs)) := by
  refine List.forall_mem_cons.mpr ⟨?_, plain_of_all rfl rfl (all_take_runLength ..)⟩
  constructor <;> rintro rfl <;> cases hc

theorem plain_of_mem_longSymbols : ∀ p ∈ longSymbols,
    (p.1 ≠ '\n' ∧ p.1 ≠ '\\') ∧ p.2 ≠ '\n' ∧ p.2 ≠ '\\' := by decide

theorem plain_symbolAt (h : symbolAt c cs = .token kind n lines) : Plain (c :: cs.take n) := by
  unfold symbolAt at h
  split at h
  case isTrue hany =>
    obtain ⟨d, hd, hcd⟩ := (Option.any_eq_true ..).mp hany
    obtain ⟨tail, rfl⟩ := List.head?_eq_some_iff.mp hd
    obtain ⟨-, rfl, -⟩ := Piece.token.inj h
    obtain ⟨hc, hd⟩ := plain_of_mem_longSymbols _ (List.contains_iff_mem.mp hcd)
    exact List.forall_mem_cons.mpr ⟨hc, List.forall_mem_singleton.mpr hd⟩
  case isFalse =>
    split at h
    case h_1 hk =>
      obtain ⟨-, rfl, -⟩ := Piece.token.inj h
      refine List.forall_mem_singleton.mpr ?_
      unfold symbolKind? at hk
      split at hk
      case h_14 => cases hk
      all_goals decide
    case h_2 => cases h

theorem symbolAt_lines (h : symbolAt c cs = .token kind n lines) : lines = 0 := by
  unfold symbolAt at h
  split at h
  · exact (Piece.token.inj h).2.2.symm
  · split at h
    · exact (Piece.token.inj h).2.2.symm
    · cases h

theorem lineEnds_stringExtent {quote : Char} (hq : quote ≠ '\n') {cs : List Char}
    {n lines : Nat} (h : stringExtent quote cs = some (n, lines)) :
    lines + escapedLineEnds (cs.take n) = (cs.take n).count '\n' := by
  induction cs using escapeInduction generalizing n lines with
  | nil => cases h
  | lone => cases h
  | escaped c cs ih =>
    obtain ⟨⟨m, l⟩, hm, he⟩ := Option.map_eq_some_iff.mp h
    cases he
    have := ih hm
    rw [List.take_succ_cons, List.take_succ_cons, escapedLineEnds, List.count_cons,
      List.count_cons]
    simp only [beq_iff_eq]
    split <;> simp <;> omega
  | plain c cs hc ih =>
    rw [stringExtent_cons hc] at h
    split at h
    case isTrue hcq =>
      cases h
      rw [List.take_succ_cons, List.take_zero, escapedLineEnds_cons hc,
        List.count_cons_of_ne (hcq ▸ hq)]
      rfl
    case isFalse =>
      obtain ⟨⟨m, l⟩, hm, he⟩ := Option.map_eq_some_iff.mp h
      cases he
      have := ih hm
      rw [List.take_succ_cons, escapedLineEnds_cons hc, List.count_cons]
      simp only [beq_iff_eq]
      split <;> omega

/-- The line ends in a token are those that it counts and those behind a backslash. -/
theorem lineEnds_pieceAt (h : pieceAt c cs = .token kind n lines) :
    lines + escapedLineEnds (c :: cs.take n) = (c :: cs.take n).count '\n' := by
  have hplain (h : Plain (c :: cs.take n)) (hl : lines = 0) :
      lines + escapedLineEnds (c :: cs.take n) = (c :: cs.take n).count '\n' := by
    rw [hl, h.lineEnds.1, h.lineEnds.2]
  rw [pieceAt_eq] at h
  split at h
  case isTrue hc => exact hplain (plain_numberAt h hc) (Bytes.numberAt_lines h)
  split at h
  case isTrue hc =>
    obtain ⟨-, rfl, rfl⟩ := Piece.token.inj h
    exact hplain (plain_name hc) rfl
  split at h
  case isFalse => exact hplain (plain_symbolAt h) (symbolAt_lines h)
  case isTrue hc =>
    obtain ⟨hn, hb⟩ : c ≠ '\n' ∧ c ≠ '\\' := by constructor <;> rintro rfl <;> cases hc
    split at h
    · rename_i he
      obtain ⟨-, rfl, rfl⟩ := Piece.token.inj h
      rw [escapedLineEnds_cons hb, List.count_cons_of_ne hn]
      exact lineEnds_stringExtent hn he
    · cases h

end pieces

/-! ## A scan, piece by piece -/

/-- How far a scan has come : what it has passed, what is left, the line it is on, and the
tokens so far. -/
structure Cursor where
  passed : List Char
  rest : List Char
  line : UInt32
  tokens : List Located

namespace Cursor

/-- The cursor at the start of a text. -/
def start (s : String) : Cursor := ⟨[], s.toList, 1, []⟩

/-- One piece further on : a blank is passed over, and what else there is makes a token. -/
inductive Step : Cursor → Cursor → Prop
  | space {k : Cursor} {c : Char} {cs : List Char} (hk : k.rest = c :: cs)
    (hc : isSpace c = true) :
    Step k ⟨k.passed ++ [c], cs, if c = '\n' then k.line + 1 else k.line, k.tokens⟩
  | token {k : Cursor} {c : Char} {cs : List Char} {kind : TokenKind} {extent lines : Nat}
    (hk : k.rest = c :: cs) (hc : isSpace c = false)
    (hp : pieceAt c cs = .token kind extent lines) :
    Step k ⟨k.passed ++ c :: cs.take extent, cs.drop extent, k.line + .ofNat lines,
      k.tokens ++ [⟨⟨lexemeAt c cs extent, kind, k.line⟩, utf8Len k.passed⟩]⟩

/-- What starts at the cursor is refused, with a fault. -/
inductive Refuses : Cursor → Fault → Prop
  | mk {k : Cursor} {c : Char} {cs : List Char} {cause : SyntaxCause} {extent : Nat}
    (hk : k.rest = c :: cs) (hc : isSpace c = false)
    (hp : pieceAt c cs = .refused cause extent) :
    Refuses k (.syntactic ⟨k.line, lexemeAt c cs extent⟩ cause)

/-- The scan of a text comes to the cursor. -/
def Reached (s : String) : Cursor → Prop := Relation.ReflTransGen Step (start s)

/-- What the scan comes to from the cursor on. -/
def scan (k : Cursor) : Except Fault (List Located) :=
  (scanFrom 0 (utf8Len k.passed) k.line k.rest).map (k.tokens ++ ·)

variable {s : String} {k k' : Cursor}

theorem Step.scan_eq (h : Step k k') : k.scan = k'.scan := by
  cases h with
  | space hk hc =>
    rw [scan, hk, scanFrom_space hc, scan, String.utf8Len_append, String.utf8Len_cons,
      String.utf8Len_nil, Nat.zero_add]
  | token hk hc hp =>
    rw [scan, hk, scanFrom_token hc hp, scanFrom_skip, scan, String.utf8Len_append,
      String.utf8Len_cons, Nat.add_assoc, Nat.add_comm (Char.utf8Size _)]
    dsimp only
    cases scanFrom 0 _ _ _ with
    | error f => rfl
    | ok ls => exact congrArg Except.ok (List.append_cons ..)

theorem scan_start (s : String) : (start s).scan = Located.scan s := by
  change (scanFrom 0 0 1 s.toList).map ([] ++ ·) = scanFrom 0 0 1 s.toList
  cases scanFrom 0 0 1 s.toList <;> rfl

theorem Reached.scan_eq (h : Reached s k) : Located.scan s = k.scan := by
  induction h with
  | refl => exact (scan_start s).symm
  | tail _ hstep ih => exact ih.trans hstep.scan_eq

theorem Refuses.scan_eq {f : Fault} (h : k.Refuses f) : k.scan = .error f := by
  obtain ⟨hk, hc, hp⟩ := h
  rw [scan, hk, scanFrom_refused hc hp]
  rfl

/-- Every scan comes to the end of the text, or to a piece that it refuses. -/
theorem exists_end (k : Cursor) :
    ∃ k', Relation.ReflTransGen Step k k' ∧ (k'.rest = [] ∨ ∃ f, k'.Refuses f) := by
  match hk : k.rest with
  | [] => exact ⟨k, .refl, .inl hk⟩
  | c :: cs =>
    cases hc : isSpace c with
    | true =>
      obtain ⟨k', hrun, hend⟩ := exists_end
        ⟨k.passed ++ [c], cs, if c = '\n' then k.line + 1 else k.line, k.tokens⟩
      exact ⟨k', .head (.space hk hc) hrun, hend⟩
    | false =>
      cases hp : pieceAt c cs with
      | refused cause extent => exact ⟨k, .refl, .inr ⟨_, .mk hk hc hp⟩⟩
      | token kind extent lines =>
        obtain ⟨k', hrun, hend⟩ := exists_end ⟨k.passed ++ c :: cs.take extent, cs.drop extent,
          k.line + .ofNat lines,
          k.tokens ++ [⟨⟨lexemeAt c cs extent, kind, k.line⟩, utf8Len k.passed⟩]⟩
        exact ⟨k', .head (.token hk hc hp) hrun, hend⟩
termination_by k.rest.length
decreasing_by
  all_goals simp only [hk, List.length_drop, List.length_cons]
  all_goals omega

/-- The outcome of a scan is read off where it ends. -/
theorem outcome (s : String) :
    ∃ k, Reached s k ∧ ((k.rest = [] ∧ Located.scan s = .ok k.tokens) ∨
      ∃ f, k.Refuses f ∧ Located.scan s = .error f) := by
  obtain ⟨k, hrun, hrest | ⟨f, hf⟩⟩ := exists_end (start s)
  · refine ⟨k, hrun, .inl ⟨hrest, ?_⟩⟩
    rw [Reached.scan_eq hrun, scan, hrest]
    exact congrArg Except.ok (List.append_nil _)
  · exact ⟨k, hrun, .inr ⟨f, hf, (Reached.scan_eq hrun).trans hf.scan_eq⟩⟩

end Cursor

/-! ## Line ends in front of a token -/

/-- The line ends in the tokens that the scan does not count. Only string literals have any. -/
def skippedLineEnds (ls : List Located) : Nat :=
  (ls.map fun l => escapedLineEnds l.token.lexeme.toList).sum

/-- The lexeme stands at a byte of the text, and its line is one more than the line ends in
front of it, but for those that are skipped in the tokens before it. Numbers of lines have
32 bits. -/
def OnLine (s : String) (before : List Located) (p : Place) (start : Nat) : Prop :=
  ∃ pre post line, s.toList = pre ++ p.lexeme.toList ++ post ∧ start = utf8Len pre ∧
    line + skippedLineEnds before = 1 + pre.count '\n' ∧ p.line.toNat = line % UInt32.size

/-- In a text of fewer than 2^32 lines the line is exact. -/
theorem OnLine.toNat_line {s : String} {before : List Located} {p : Place} {start : Nat}
    (h : OnLine s before p start) (hs : s.toList.count '\n' + 1 < UInt32.size) :
    ∃ pre post, s.toList = pre ++ p.lexeme.toList ++ post ∧ start = utf8Len pre ∧
      p.line.toNat + skippedLineEnds before = 1 + pre.count '\n' := by
  obtain ⟨pre, post, line, htext, hstart, hline, hnat⟩ := h
  have hle : pre.count '\n' ≤ s.toList.count '\n' := by
    rw [htext, List.append_assoc]
    exact (List.sublist_append_left ..).count_le '\n'
  rw [Nat.mod_eq_of_lt (by omega)] at hnat
  exact ⟨pre, post, htext, hstart, hnat ▸ hline⟩

namespace Cursor

/-- The text is what is passed and what is left, and the lines of the cursor and of each token
are right but for the line ends that are skipped. -/
structure Counted (s : String) (k : Cursor) : Prop where
  text : s.toList = k.passed ++ k.rest
  line : ∃ line, line + skippedLineEnds k.tokens = 1 + k.passed.count '\n' ∧ k.line = .ofNat line
  tokens : ∀ before l after, k.tokens = before ++ l :: after →
    OnLine s before l.token.place l.start

variable {s : String} {k k' : Cursor}

theorem counted_start (s : String) : Counted s (start s) where
  text := rfl
  line := ⟨1, rfl, rfl⟩
  tokens := by
    intro before l after h
    cases before <;> cases h

theorem Counted.onLine (h : Counted s k) {p : Place} (post : List Char) (hp : p.line = k.line)
    (htext : s.toList = k.passed ++ p.lexeme.toList ++ post) :
    OnLine s k.tokens p (utf8Len k.passed) := by
  obtain ⟨line, hline, hk⟩ := h.line
  refine ⟨k.passed, post, line, htext, rfl, hline, ?_⟩
  rw [hp, hk, UInt32.toNat_ofNat']

theorem Counted.step (h : Counted s k) (hstep : Step k k') : Counted s k' := by
  have hhere := @h.onLine
  obtain ⟨htext, ⟨line, hline, hnumber⟩, htokens⟩ := h
  cases hstep with
  | @space c cs hk hc =>
    rw [hk] at htext
    refine ⟨by rw [htext, List.append_assoc]; rfl, ?_, htokens⟩
    dsimp only
    rw [List.count_append, List.count_singleton, hnumber]
    simp only [beq_iff_eq]
    split
    · exact ⟨line + 1, by omega, (UInt32.ofNat_add line 1).symm⟩
    · exact ⟨line, hline, rfl⟩
  | @token c cs kind extent lines hk hc hp =>
    rw [hk] at htext
    have hlexeme : (lexemeAt c cs extent).toList = c :: cs.take extent := String.toList_ofList
    have hsplit : s.toList = k.passed ++ (c :: cs.take extent) ++ cs.drop extent := by
      rw [htext, List.append_assoc, List.cons_append, List.take_append_drop]
    refine ⟨hsplit, ⟨line + lines, ?_, ?_⟩, ?_⟩
    · have := lineEnds_pieceAt hp
      simp only [skippedLineEnds, List.map_append, List.sum_append, List.map_singleton,
        List.sum_singleton, hlexeme, List.count_append] at hline ⊢
      omega
    · dsimp only
      rw [hnumber, UInt32.ofNat_add]
    · intro before l after hl
      -- the token is the one that this step adds, or was there before it
      obtain rfl | ⟨after, last, rfl⟩ := List.eq_nil_or_concat after
      · obtain ⟨rfl, rfl⟩ := List.append_singleton_inj.mp hl
        refine hhere (cs.drop extent) rfl ?_
        rw [Token.place, hlexeme]
        exact hsplit
      · rw [List.concat_eq_append, ← List.cons_append, ← List.append_assoc] at hl
        exact htokens _ _ _ (List.append_singleton_inj.mp hl).1

theorem Reached.counted (h : Reached s k) : Counted s k := by
  induction h with
  | refl => exact counted_start s
  | tail _ hstep ih => exact ih.step hstep

end Cursor

/-- The line of a token, and of a fault, is one more than the line ends in front of its lexeme,
less those in the string literals before it that stand behind a backslash. The byte at which
the lexeme starts tells which text is in front of it; that of a fault is where the scan has
come to a piece that it refuses. -/
theorem Located.scan_lines (s : String) :
    (∀ ls, Located.scan s = .ok ls → ∀ before l after, ls = before ++ l :: after →
      OnLine s before l.token.place l.start) ∧
    ∀ f, Located.scan s = .error f → ∃ k p cause, Cursor.Reached s k ∧ k.Refuses f ∧
      f = .syntactic p cause ∧ OnLine s k.tokens p (utf8Len k.passed) := by
  obtain ⟨k, hk, ⟨-, hscan⟩ | ⟨f, hf, hscan⟩⟩ := Cursor.outcome s
  · refine ⟨fun ls hls before l after hl => ?_, fun f hf => ?_⟩
    · obtain rfl : k.tokens = ls := Except.ok.inj (hscan.symm.trans hls)
      exact hk.counted.tokens before l after hl
    · cases hscan.symm.trans hf
  · refine ⟨fun ls hls => ?_, fun f' hf' => ?_⟩
    · cases hscan.symm.trans hls
    · obtain rfl : f = f' := Except.error.inj (hscan.symm.trans hf')
      obtain ⟨hrest, hc, hp⟩ := id hf
      rename_i c cs cause extent
      refine ⟨k, _, _, hk, hf, rfl, hk.counted.onLine (cs.drop extent) rfl ?_⟩
      have htext := hk.counted.text
      rw [hrest] at htext
      rw [lexemeAt, String.toList_ofList, htext, List.append_assoc, List.cons_append,
        List.take_append_drop]

theorem Located.scan_lines_string :
    Located.scan "'\n' x" = .ok [⟨⟨"'\n'", .string, 1⟩, 0⟩, ⟨⟨"x", .identifier, 2⟩, 4⟩] ∧
      OnLine "'\n' x" [⟨⟨"'\n'", .string, 1⟩, 0⟩] ⟨2, "x"⟩ 4 := by
  have hs : Located.scan "'\n' x" =
      .ok [⟨⟨"'\n'", .string, 1⟩, 0⟩, ⟨⟨"x", .identifier, 2⟩, 4⟩] := by cbv
  have hline := (Located.scan_lines _).1 _ hs [⟨⟨"'\n'", .string, 1⟩, 0⟩]
    ⟨⟨"x", .identifier, 2⟩, 4⟩ [] rfl
  exact ⟨hs, hline⟩

/-- A line end behind a backslash in a string literal is not counted : the token behind the
literal is on the second line and is said to be on the first. -/
theorem Located.scan_lines_escaped :
    Located.scan "'\\\n' x" =
        .ok [⟨⟨"'\\\n'", .string, 1⟩, 0⟩, ⟨⟨"x", .identifier, 1⟩, 5⟩] ∧
      "'\\\n' x".toList = "'\\\n' ".toList ++ "x".toList ∧ utf8Len "'\\\n' ".toList = 5 ∧
      1 ≠ 1 + "'\\\n' ".toList.count '\n' := by
  refine ⟨by cbv, by cbv, by cbv, by cbv⟩

end Formula

import Formula.Token.Scan

/-!
# How far a token reaches

A token is the longest piece of its class, so what it is could depend on any of the text
after it. It does not depend on what comes after a blank : when the characters behind a token
are replaced by none, or by others that start with a space, the same token starts at the same
place (`pieceAt_take_append`). Nor does it reach beyond the text (`extent_le_length`).

There is one fact of either sort for each class of token. What they share is the run of
characters that satisfy a condition (`runLength_take_append`), of which names, the digits of
numbers and the digits of exponents are made.
-/

namespace Formula

/-! ## Runs of characters -/

/-- Characters that end whatever token stands before them. -/
inductive Breaks : List Char → Prop where
  | nil : Breaks []
  | space (cs : List Char) : Breaks (' ' :: cs)

variable {rest : List Char}

theorem runLength_le_length (p : Char → Bool) (cs : List Char) : runLength p cs ≤ cs.length := by
  induction cs with
  | nil => exact Nat.le_refl 0
  | cons c cs ih =>
    rw [runLength]
    split
    · exact Nat.succ_le_succ ih
    · exact Nat.zero_le _

/-- A run that a space ends does not go on over a break. -/
theorem Breaks.runLength_eq {p : Char → Bool} (hr : Breaks rest) (hp : p ' ' = false) :
    runLength p rest = 0 := by
  cases hr with
  | nil => rfl
  | space cs => simp [runLength, hp]

/-- A run in the first `n` characters and others that end it. -/
theorem runLength_take_append {p : Char → Bool} (hr : Breaks rest) (hp : p ' ' = false)
    (n : Nat) (cs : List Char) :
    runLength p (cs.take n ++ rest) = min n (runLength p cs) := by
  induction cs generalizing n with
  | nil => simp [runLength, hr.runLength_eq hp]
  | cons c cs ih =>
    cases n with
    | zero => simp [hr.runLength_eq hp]
    | succ n =>
      rw [List.take_succ_cons, List.cons_append, runLength, runLength, ih]
      split <;> omega

/-- The digits at the start, where at least these are kept. -/
theorem digits_take_append (hr : Breaks rest) {n : Nat} {cs : List Char}
    (hn : runLength Char.isDigit cs ≤ n) :
    runLength Char.isDigit (cs.take n ++ rest) = runLength Char.isDigit cs := by
  rw [runLength_take_append hr rfl, Nat.min_eq_right hn]

/-- What is left of the kept characters behind the first `k`. -/
theorem drop_take_append {k n : Nat} {cs : List Char} (hk : k ≤ n) (hc : k ≤ cs.length) :
    (cs.take n ++ rest).drop k = (cs.drop k).take (n - k) ++ rest := by
  rw [List.drop_append_of_le_length (by rw [List.length_take]; omega), List.drop_take]

/-! ## Numbers -/

theorem fractionLength_le_length (cs : List Char) : fractionLength cs ≤ cs.length := by
  unfold fractionLength
  split
  · rename_i cs
    have := runLength_le_length Char.isDigit cs
    rw [List.length_cons]
    dsimp only
    split <;> omega
  · exact Nat.zero_le _

theorem Breaks.fractionLength_eq (hr : Breaks rest) : fractionLength rest = 0 := by
  cases hr <;> rfl

theorem fractionLength_take_append (hr : Breaks rest) {n : Nat} {cs : List Char}
    (hn : fractionLength cs ≤ n) : fractionLength (cs.take n ++ rest) = fractionLength cs := by
  match cs, n with
  | [], _ => simpa [fractionLength] using hr.fractionLength_eq
  | c :: cs, 0 =>
    rw [Nat.le_zero.mp hn]
    exact hr.fractionLength_eq
  | c :: cs, n + 1 =>
    rw [List.take_succ_cons, List.cons_append]
    by_cases hc : c = '.'
    · subst hc
      have hle : runLength Char.isDigit cs ≤ n := by
        simp only [fractionLength] at hn
        split at hn <;> omega
      simp only [fractionLength, digits_take_append hr hle]
    · simp [fractionLength, hc]

/-- How many characters the sign at the start has. -/
def signLength : List Char → Nat
  | [] => 0
  | s :: _ => if s == '+' || s == '-' then 1 else 0

theorem signLength_le_length (cs : List Char) : signLength cs ≤ cs.length := by
  cases cs with
  | nil => exact Nat.le_refl 0
  | cons c cs =>
    rw [signLength, List.length_cons]
    split <;> omega

theorem Breaks.signLength_eq (hr : Breaks rest) : signLength rest = 0 := by
  cases hr <;> rfl

theorem signLength_take_append (hr : Breaks rest) {n : Nat} {cs : List Char}
    (hn : signLength cs ≤ n) : signLength (cs.take n ++ rest) = signLength cs := by
  match cs, n with
  | [], _ => simpa [signLength] using hr.signLength_eq
  | c :: cs, 0 =>
    rw [Nat.le_zero.mp hn]
    exact hr.signLength_eq
  | c :: cs, n + 1 => rfl

theorem exponentLength_cons (e : Char) (cs : List Char) :
    exponentLength (e :: cs) =
      if e == 'e' || e == 'E' then
        let n := runLength Char.isDigit (cs.drop (signLength cs))
        some (1 + signLength cs + n, n != 0)
      else none := by
  cases cs <;> rfl

theorem exponentLength_le_length {cs : List Char} {n : Nat} {b : Bool}
    (h : exponentLength cs = some (n, b)) : n ≤ cs.length := by
  cases cs with
  | nil => cases h
  | cons e cs =>
    rw [exponentLength_cons] at h
    split at h
    · have hs := signLength_le_length cs
      have hd := runLength_le_length Char.isDigit (cs.drop (signLength cs))
      rw [List.length_drop] at hd
      obtain ⟨rfl, -⟩ : _ ∧ _ := by simpa using h
      rw [List.length_cons]
      omega
    · cases h

theorem Breaks.exponentLength_eq (hr : Breaks rest) : exponentLength rest = none := by
  cases hr <;> rfl

theorem exponentLength_take_append_of_none (hr : Breaks rest) (n : Nat) {cs : List Char}
    (h : exponentLength cs = none) : exponentLength (cs.take n ++ rest) = none := by
  match cs, n with
  | [], _ => simpa using hr.exponentLength_eq
  | e :: cs, 0 => exact hr.exponentLength_eq
  | e :: cs, n + 1 =>
    rw [exponentLength_cons] at h
    rw [List.take_succ_cons, List.cons_append, exponentLength_cons]
    split at h
    · cases h
    · rw [if_neg ‹_›]

theorem exponentLength_take_append (hr : Breaks rest) {n k : Nat} {cs : List Char} {b : Bool}
    (h : exponentLength cs = some (k, b)) (hk : k ≤ n) :
    exponentLength (cs.take n ++ rest) = some (k, b) := by
  match cs, n with
  | [], _ => cases h
  | e :: cs, 0 =>
    rw [exponentLength_cons] at h
    split at h
    · simp at h; omega
    · cases h
  | e :: cs, n + 1 =>
    rw [exponentLength_cons] at h
    rw [List.take_succ_cons, List.cons_append, exponentLength_cons]
    split at h
    case isFalse => cases h
    case isTrue he =>
      have hs := signLength_le_length cs
      rw [if_pos he, ← h]
      dsimp only at h
      obtain ⟨hlen, -⟩ : _ ∧ _ := by simpa using h
      rw [signLength_take_append hr (by omega), drop_take_append (by omega) hs,
        digits_take_append hr (by omega)]

/-- How many characters the digits at the start and a fraction behind them have. -/
def mantissaLength (cs : List Char) : Nat :=
  runLength Char.isDigit cs + fractionLength (cs.drop (runLength Char.isDigit cs))

theorem mantissaLength_le_length (cs : List Char) : mantissaLength cs ≤ cs.length := by
  have hw := runLength_le_length Char.isDigit cs
  have hf := fractionLength_le_length (cs.drop (runLength Char.isDigit cs))
  rw [List.length_drop] at hf
  unfold mantissaLength
  omega

/-- A number is its digits and its exponent, if there is one. -/
theorem numberAt_eq (cs : List Char) :
    numberAt cs =
      match exponentLength (cs.drop (mantissaLength cs)) with
      | none =>
        .token (if fractionLength (cs.drop (runLength Char.isDigit cs)) = 0 then .integer
          else .float) (mantissaLength cs - 1) 0
      | some (n, true) => .token .float (mantissaLength cs + n - 1) 0
      | some (n, false) => .refused .missingExponent (mantissaLength cs + n - 1) := rfl

/-- A number is what its mantissa is and, where there is an exponent, that. -/
theorem numberAt_eq_token {cs : List Char} {kind : TokenKind} {n lines : Nat}
    (h : numberAt cs = .token kind n lines) (hm : 0 < mantissaLength cs) :
    (exponentLength (cs.drop (mantissaLength cs)) = none ∧ n + 1 = mantissaLength cs) ∨
      ∃ k, exponentLength (cs.drop (mantissaLength cs)) = some (k, true) ∧
        n + 1 = mantissaLength cs + k := by
  rw [numberAt_eq] at h
  split at h
  · rename_i he
    obtain ⟨-, rfl, -⟩ := by simpa using h
    exact .inl ⟨he, by omega⟩
  · rename_i k he
    obtain ⟨-, rfl, -⟩ := by simpa using h
    exact .inr ⟨k, he, by omega⟩
  · cases h

theorem numberAt_extent_lt {cs : List Char} {kind : TokenKind} {n lines : Nat}
    (h : numberAt cs = .token kind n lines) (hm : 0 < mantissaLength cs) : n < cs.length := by
  have hs := mantissaLength_le_length cs
  obtain ⟨-, hn⟩ | ⟨k, he, hn⟩ := numberAt_eq_token h hm
  · omega
  · have hk := exponentLength_le_length he
    rw [List.length_drop] at hk
    omega

/-- A number that was found is found again in front of a break. -/
theorem numberAt_take_append (hr : Breaks rest) {cs : List Char} {kind : TokenKind}
    {n lines : Nat} (h : numberAt cs = .token kind n lines) (hm : 0 < mantissaLength cs) :
    numberAt (cs.take (n + 1) ++ rest) = .token kind n lines := by
  have hc := numberAt_eq_token h hm
  have hle : mantissaLength cs ≤ n + 1 := by obtain ⟨-, hn⟩ | ⟨k, -, hn⟩ := hc <;> omega
  have hw : runLength Char.isDigit cs ≤ n + 1 := Nat.le_trans (Nat.le_add_right ..) hle
  have hwhole := digits_take_append hr hw
  have hfraction : fractionLength ((cs.take (n + 1) ++ rest).drop (runLength Char.isDigit cs)) =
      fractionLength (cs.drop (runLength Char.isDigit cs)) := by
    rw [drop_take_append hw (runLength_le_length ..)]
    refine fractionLength_take_append hr ?_
    unfold mantissaLength at hle
    omega
  have hsize : mantissaLength (cs.take (n + 1) ++ rest) = mantissaLength cs := by
    rw [mantissaLength, hwhole, hfraction, mantissaLength]
  have hexponent : exponentLength ((cs.take (n + 1) ++ rest).drop (mantissaLength cs)) =
      exponentLength (cs.drop (mantissaLength cs)) := by
    rw [drop_take_append hle (mantissaLength_le_length cs)]
    obtain ⟨he, -⟩ | ⟨k, he, hn⟩ := hc
    · rw [exponentLength_take_append_of_none hr _ he, he]
    · rw [exponentLength_take_append hr he (by omega), he]
  rw [numberAt_eq, hsize, hexponent, hwhole, hfraction, ← numberAt_eq, h]

/-- Whether a number starts with a character and those after it. -/
def startsNumber (c : Char) (cs : List Char) : Bool :=
  c.isDigit || c == '.' && cs.head?.any Char.isDigit

theorem startsNumber_cases {c : Char} {cs : List Char} (h : startsNumber c cs = true) :
    c.isDigit = true ∨ c = '.' ∧ ∃ d tail, cs = d :: tail ∧ d.isDigit = true := by
  obtain hd | ⟨hc, hd⟩ : c.isDigit = true ∨ c = '.' ∧ cs.head?.any Char.isDigit = true := by
    simpa [startsNumber] using h
  · exact .inl hd
  · cases cs with
    | nil => cases hd
    | cons d tail => exact .inr ⟨hc, d, tail, rfl, hd⟩

/-- Where a number starts, its mantissa is not empty, and has a digit behind a point. -/
theorem mantissaLength_pos {c : Char} {cs : List Char} (h : startsNumber c cs = true) :
    0 < mantissaLength (c :: cs) ∧ (c.isDigit = false → 1 < mantissaLength (c :: cs)) := by
  obtain hc | ⟨rfl, d, tail, rfl, hd⟩ := startsNumber_cases h
  · simp only [mantissaLength, runLength, hc, if_true]
    exact ⟨by omega, nofun⟩
  · simp [mantissaLength, runLength, fractionLength, hd]

/-! ## Strings -/

/-- Apart from a backslash, a string goes on with the rest or ends here. -/
theorem stringExtent_cons {quote c : Char} (hc : c ≠ '\\') (cs : List Char) :
    stringExtent quote (c :: cs) =
      if c = quote then some (1, 0)
      else (stringExtent quote cs).map fun p => (p.1 + 1, if c = '\n' then p.2 + 1 else p.2) := by
  rw [stringExtent.eq_4] <;> intros <;> contradiction

/-- Induction on characters that takes the one after a backslash along. -/
theorem escapeInduction {P : List Char → Prop} (nil : P []) (lone : P ['\\'])
    (escaped : ∀ c cs, P cs → P ('\\' :: c :: cs))
    (plain : ∀ c cs, c ≠ '\\' → P cs → P (c :: cs)) : ∀ cs, P cs
  | [] => nil
  | c :: cs => by
    by_cases hc : c = '\\'
    · subst hc
      match cs with
      | [] => exact lone
      | c :: cs => exact escaped c cs (escapeInduction nil lone escaped plain cs)
    · exact plain c cs hc (escapeInduction nil lone escaped plain cs)

theorem stringExtent_le_length {quote : Char} {cs : List Char} {n lines : Nat}
    (h : stringExtent quote cs = some (n, lines)) : n ≤ cs.length := by
  induction cs using escapeInduction generalizing n lines with
  | nil => cases h
  | lone => cases h
  | escaped c cs ih =>
    obtain ⟨⟨m, l⟩, hm, he⟩ := Option.map_eq_some_iff.mp h
    cases he
    exact Nat.add_le_add_right (ih hm) 2
  | plain c cs hc ih =>
    rw [stringExtent_cons hc] at h
    split at h
    · cases h
      exact Nat.succ_le_succ (Nat.zero_le _)
    · obtain ⟨⟨m, l⟩, hm, he⟩ := Option.map_eq_some_iff.mp h
      cases he
      exact Nat.succ_le_succ (ih hm)

/-- The end of a string that was found is found again, whatever comes behind it. -/
theorem stringExtent_take_append {quote : Char} {cs : List Char} {n lines : Nat}
    (h : stringExtent quote cs = some (n, lines)) (rest : List Char) :
    stringExtent quote (cs.take n ++ rest) = some (n, lines) := by
  induction cs using escapeInduction generalizing n lines with
  | nil => cases h
  | lone => cases h
  | escaped c cs ih =>
    obtain ⟨⟨m, l⟩, hm, he⟩ := Option.map_eq_some_iff.mp h
    cases he
    rw [List.take_succ_cons, List.take_succ_cons, List.cons_append, List.cons_append,
      stringExtent, ih hm]
    rfl
  | plain c cs hc ih =>
    rw [stringExtent_cons hc] at h
    split at h
    · cases h
      rw [List.take_succ_cons, List.cons_append, stringExtent_cons hc, if_pos ‹_›]
    · obtain ⟨⟨m, l⟩, hm, he⟩ := Option.map_eq_some_iff.mp h
      cases he
      rw [List.take_succ_cons, List.cons_append, stringExtent_cons hc, if_neg ‹_›, ih hm]
      rfl

/-! ## Symbols -/

theorem longSymbols_ne_space {c d : Char} (h : longSymbols.contains (c, d) = true) : d ≠ ' ' := by
  rintro rfl
  simp [longSymbols] at h

theorem symbolAt_extent_le_length {c : Char} {cs : List Char} {kind : TokenKind} {n lines : Nat}
    (h : symbolAt c cs = .token kind n lines) : n ≤ cs.length := by
  unfold symbolAt at h
  split at h
  · obtain ⟨-, rfl, -⟩ := by simpa using h
    cases cs with
    | nil => contradiction
    | cons d cs => simp
  · split at h
    · obtain ⟨-, rfl, -⟩ := by simpa using h
      exact Nat.zero_le _
    · cases h

/-- A symbol that was found is found again in front of a break. -/
theorem symbolAt_take_append (hr : Breaks rest) {c : Char} {cs : List Char} {kind : TokenKind}
    {n lines : Nat} (h : symbolAt c cs = .token kind n lines) :
    symbolAt c (cs.take n ++ rest) = .token kind n lines := by
  unfold symbolAt at h
  split at h
  case isTrue hlong =>
    obtain ⟨rfl, rfl, rfl⟩ := by simpa using h
    cases cs with
    | nil => contradiction
    | cons d cs =>
      rw [symbolAt, if_pos (by simpa using hlong)]
  case isFalse =>
    split at h
    · rename_i hk
      obtain ⟨rfl, rfl, rfl⟩ := by simpa using h
      have hshort : ¬ (rest.head?.any fun d => longSymbols.contains (c, d)) = true := by
        cases hr with
        | nil => simp
        | space cs => exact fun h => longSymbols_ne_space h rfl
      rw [symbolAt, List.take_zero, List.nil_append, if_neg hshort, hk]
    · cases h

/-! ## All classes -/

/-- Which reader a piece is left to is told by its first character. -/
theorem pieceAt_eq (c : Char) (cs : List Char) :
    pieceAt c cs =
      if startsNumber c cs then numberAt (c :: cs)
      else if startsName c then .token .identifier (runLength continuesName cs) 0
      else if c == '"' || c == '\'' then
        match stringExtent c cs with
        | some (extent, lines) => .token .string extent lines
        | none => .refused .unterminatedString cs.length
      else symbolAt c cs := rfl

/-- A piece ends within the text. -/
theorem extent_le_length {c : Char} {cs : List Char} {kind : TokenKind} {n lines : Nat}
    (h : pieceAt c cs = .token kind n lines) : n ≤ cs.length := by
  rw [pieceAt_eq] at h
  split at h
  case isTrue hc => exact Nat.le_of_lt_succ (numberAt_extent_lt h (mantissaLength_pos hc).1)
  split at h
  case isTrue =>
    obtain ⟨-, rfl, -⟩ := by simpa using h
    exact runLength_le_length ..
  split at h
  case isTrue =>
    split at h
    · rename_i he
      obtain ⟨-, rfl, -⟩ := by simpa using h
      exact stringExtent_le_length he
    · cases h
  case isFalse => exact symbolAt_extent_le_length h

/-- A point that starts no number starts nothing. -/
theorem ne_point_of_pieceAt {c : Char} {cs : List Char} {kind : TokenKind} {n lines : Nat}
    (h : pieceAt c cs = .token kind n lines) (hc : ¬ startsNumber c cs = true) : c ≠ '.' := by
  rintro rfl
  have hlong : ¬ (cs.head?.any fun d => longSymbols.contains ('.', d)) = true := by
    cases cs <;> simp [longSymbols]
  rw [pieceAt_eq, if_neg hc, symbolAt, if_neg hlong] at h
  cases h

theorem startsNumber_take_append {c : Char} {cs : List Char} {kind : TokenKind}
    {n lines : Nat} (h : pieceAt c cs = .token kind n lines) (rest : List Char) :
    startsNumber c (cs.take n ++ rest) = startsNumber c cs := by
  cases hc : startsNumber c cs with
  | true =>
    rw [pieceAt_eq, if_pos hc] at h
    have hpos := mantissaLength_pos hc
    obtain hd | ⟨rfl, d, tail, rfl, hd⟩ := startsNumber_cases hc
    · simp [startsNumber, hd]
    · have hlong := hpos.2 rfl
      match n with
      | 0 => obtain ⟨-, hn⟩ | ⟨k, -, hn⟩ := numberAt_eq_token h hpos.1 <;> omega
      | n + 1 => simpa [startsNumber] using hd
  | false =>
    have hpoint := ne_point_of_pieceAt h (Bool.eq_false_iff.mp hc)
    rw [startsNumber] at hc ⊢
    simpa [hpoint] using hc

/-- A token is the same when what stands after it is a space, or nothing. -/
theorem pieceAt_take_append (hr : Breaks rest) {c : Char} {cs : List Char} {kind : TokenKind}
    {n lines : Nat} (h : pieceAt c cs = .token kind n lines) :
    pieceAt c (cs.take n ++ rest) = .token kind n lines := by
  have hstarts := startsNumber_take_append h rest
  rw [pieceAt_eq] at h
  rw [pieceAt_eq, hstarts]
  split at h
  case isTrue hc =>
    rw [if_pos hc]
    exact numberAt_take_append hr h (mantissaLength_pos hc).1
  case isFalse hc =>
    rw [if_neg hc]
    split at h
    case isTrue hname =>
      obtain ⟨rfl, rfl, rfl⟩ := by simpa using h
      rw [if_pos hname, runLength_take_append hr rfl, Nat.min_self]
    case isFalse hname =>
      rw [if_neg hname]
      split at h
      case isTrue hquote =>
        rw [if_pos hquote]
        split at h
        · rename_i he
          obtain ⟨rfl, rfl, rfl⟩ := by simpa using h
          rw [stringExtent_take_append he]
        · cases h
      case isFalse hquote =>
        rw [if_neg hquote]
        exact symbolAt_take_append hr h

end Formula

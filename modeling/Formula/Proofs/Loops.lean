import Formula.Proofs.Pieces
import Formula.Proofs.Positions

/-!
# Loops over the bytes of a token

Where the loops over the bytes of a name, a number and a string end, from a position between
characters on (`At`) : behind as many bytes as the characters of the token have. Each turn of
them moves on, so none is stuck.

Names and numbers are made of ASCII characters, which are as many as their bytes (`Single`). A
string can hold any characters, and a backslash in it takes one byte along, so the position
can fall inside a character (`string_of_inside`). The bytes left of it are passed one by one,
since none of them looks like a quote, a backslash or a line end.
-/

namespace Formula

open String (utf8Len)

namespace Bytes

variable {text : String} {i : Nat} {c : Char} {cs : List Char}

/-! ## Loops -/

section loops

variable {σ α : Type} {size : Nat} {turn : Nat → σ → Except Crash (Turn σ α)} {state : σ}

/-- A turn that is done ends the loop. -/
theorem loop_done {result : α} (h : turn i state = .ok (.done result)) :
    loop size turn i state = .ok result := by
  rw [loop, h]

/-- A turn that goes on further to the right leaves the rest to the loop. -/
theorem loop_again {j : Nat} {next : σ} (h : turn i state = .ok (.again j next)) (hij : i < j)
    (hi : i < size) : loop size turn i state = loop size turn j next := by
  rw [loop, h]
  exact if_pos ⟨hij, hi⟩

end loops

/-- The characters that satisfy an ASCII condition are passed over. -/
theorem pass_eq {p : Char → Bool} (hp : Narrow p) (h : At text i cs) :
    pass text p i = .ok (i + runLength p cs) := by
  have hbyte := h.any_byteAt hp
  induction cs generalizing i with
  | nil => exact loop_done (by simp [hbyte, runLength])
  | cons c cs ih =>
    rw [List.head?_cons, Option.any_some] at hbyte
    cases hc : p c with
    | false => exact loop_done (by simp [hbyte, hc, runLength])
    | true =>
      have htail := h.tail
      rw [utf8Size_eq_one.mpr (hp c hc)] at htail
      rw [pass, loop_again (by rw [hbyte, hc]; rfl) (Nat.lt_succ_self i) h.lt_size]
      refine (ih htail (htail.any_byteAt hp)).trans ?_
      rw [runLength, if_pos hc]
      congr 1
      omega

/-! ## Characters of one byte each -/

/-- The first `n` characters have `n` bytes. -/
def Single (cs : List Char) (n : Nat) : Prop := utf8Len (cs.take n) = n

/-- The position behind characters of one byte each is as far on as there are characters. -/
theorem At.drop_single (h : At text i cs) {n : Nat} (hn : Single cs n) :
    At text (i + n) (cs.drop n) := by
  have := h.drop n
  rwa [hn] at this

theorem Single.add {m n : Nat} (hm : Single cs m) (hn : Single (cs.drop m) n) :
    Single cs (m + n) := by
  rw [Single, List.take_add, String.utf8Len_append, hm, hn]

theorem single_zero (cs : List Char) : Single cs 0 := rfl

theorem Single.cons (hc : c.toNat < 128) {n : Nat} (h : Single cs n) :
    Single (c :: cs) (n + 1) := by
  rw [Single, List.take_succ_cons, String.utf8Len_cons, h, utf8Size_eq_one.mpr hc]

/-- A run of ASCII characters has one byte a character. -/
theorem single_runLength {p : Char → Bool} (hp : Narrow p) (cs : List Char) :
    Single cs (runLength p cs) := by
  induction cs with
  | nil => exact single_zero _
  | cons c cs ih =>
    rw [runLength]
    split
    case isTrue hc => exact .cons (hp c hc) ih
    case isFalse => exact single_zero _

theorem single_fractionLength (cs : List Char) : Single cs (fractionLength cs) := by
  unfold fractionLength
  split
  · dsimp only
    split
    · exact single_zero _
    · exact .cons (by decide) (single_runLength narrow_isDigit _)
  · exact single_zero _

theorem single_mantissaLength (cs : List Char) : Single cs (mantissaLength cs) :=
  .add (single_runLength narrow_isDigit cs) (single_fractionLength _)

theorem narrow_exponent : Narrow fun c => c == 'e' || c == 'E' :=
  narrow_or (narrow_eq (by decide)) (narrow_eq (by decide))

theorem narrow_sign : Narrow fun c => c == '+' || c == '-' :=
  narrow_or (narrow_eq (by decide)) (narrow_eq (by decide))

theorem single_signLength (cs : List Char) : Single cs (signLength cs) := by
  cases cs with
  | nil => exact single_zero _
  | cons c cs =>
    rw [signLength]
    split
    case isTrue hc => exact .cons (narrow_sign c hc) (single_zero _)
    case isFalse => exact single_zero _

/-- The letter, the sign and the digits of an exponent have one byte each. -/
theorem single_exponentLength {n : Nat} {b : Bool} (h : exponentLength cs = some (n, b)) :
    Single cs n := by
  cases cs with
  | nil => cases h
  | cons e cs =>
    rw [exponentLength_cons] at h
    split at h
    case isFalse => cases h
    case isTrue he =>
      obtain ⟨rfl, -⟩ : _ ∧ _ := by simpa using h
      rw [Nat.add_assoc, Nat.add_comm]
      exact .cons (narrow_exponent e he)
        (.add (single_signLength cs) (single_runLength narrow_isDigit _))

/-! ## Numbers -/

theorem runLength_eq_zero {p : Char → Bool} : runLength p cs = 0 ↔ cs.head?.any p = false := by
  cases cs with
  | nil => simp [runLength]
  | cons c cs => cases h : p c <;> simp [runLength, h]

/-- A run goes as far as it can. -/
theorem runLength_drop_runLength (p : Char → Bool) (cs : List Char) :
    runLength p (cs.drop (runLength p cs)) = 0 := by
  induction cs with
  | nil => rfl
  | cons c cs ih =>
    rw [runLength]
    split
    case isTrue => exact ih
    case isFalse hc => rw [List.drop_zero, runLength, if_neg hc]

theorem fractionLength_point (tail : List Char) :
    fractionLength ('.' :: tail) =
      if runLength Char.isDigit tail = 0 then 0 else runLength Char.isDigit tail + 1 := rfl

theorem fractionLength_of_ne (hc : cs.head? ≠ some '.') : fractionLength cs = 0 := by
  unfold fractionLength
  split
  · exact absurd rfl hc
  · rfl

/-- The loops over bytes find the end of the digits, and tell whether there is a fraction, as the
lengths in characters do. -/
theorem mantissa_eq (h : At text i cs) (hm : 0 < mantissaLength cs) :
    mantissa text i = .ok (i + mantissaLength cs,
      if fractionLength (cs.drop (runLength Char.isDigit cs)) = 0 then .integer else .float) := by
  have hpoint := h.byteAt_eq_some (d := '.') (by decide)
  by_cases hc : cs.head? = some '.'
  · obtain ⟨tail, rfl⟩ : ∃ tail, cs = '.' :: tail := List.head?_eq_some_iff.mp hc
    have htail : At text (i + 1) tail := h.tail
    have hwhole : runLength Char.isDigit ('.' :: tail) = 0 := rfl
    rw [mantissaLength, hwhole, List.drop_zero, fractionLength_point] at hm ⊢
    split at hm
    · cases hm
    · rw [mantissa, if_pos (hpoint.mpr hc), pass_eq narrow_isDigit htail, if_neg ‹_›,
        if_neg (Nat.succ_ne_zero _)]
      simp only [Except.map, Nat.zero_add, Nat.add_assoc, Nat.add_comm 1]
  · have hw := h.drop_single (single_runLength narrow_isDigit cs)
    have hpoint' := hw.byteAt_eq_some (d := '.') (by decide)
    have hrest := runLength_drop_runLength Char.isDigit cs
    rw [mantissa, if_neg (mt hpoint.mp hc), pass_eq narrow_isDigit h, mantissaLength]
    generalize cs.drop (runLength Char.isDigit cs) = rest at hw hpoint' hrest
    simp only [bind, Except.bind]
    by_cases hr : rest.head? = some '.'
    · obtain ⟨tail, rfl⟩ : ∃ tail, rest = '.' :: tail := List.head?_eq_some_iff.mp hr
      have htail : At text (i + runLength Char.isDigit cs + 1) tail := hw.tail
      rw [fractionLength_point, htail.any_byteAt narrow_isDigit]
      by_cases hd : runLength Char.isDigit tail = 0
      · have hnone := runLength_eq_zero.mp hd
        rw [if_neg (by simp [hnone]), pass_eq narrow_isDigit hw, hrest, if_pos hd, if_pos rfl]
        rfl
      · have hsome : tail.head?.any Char.isDigit = true := by
          simpa using mt runLength_eq_zero.mpr hd
        rw [if_pos ⟨hpoint'.mpr rfl, hsome⟩, pass_eq narrow_isDigit htail, if_neg hd,
          if_neg (Nat.succ_ne_zero _)]
        simp only [Except.map, Nat.add_assoc, Nat.add_comm 1]
    · rw [if_neg (fun h => hr (hpoint'.mp h.1)), pass_eq narrow_isDigit hw, hrest,
        fractionLength_of_ne hr, if_pos rfl]
      rfl

theorem signLength_eq (cs : List Char) :
    signLength cs = if cs.head?.any (fun c => c == '+' || c == '-') then 1 else 0 := by
  cases cs <;> rfl

/-- The position behind a number and its kind, from the position in front of it. -/
def numberEnd (i : Nat) : Piece → Nat × Option TokenKind
  | .token kind n _ => (i + (n + 1), some kind)
  | .refused _ n => (i + (n + 1), none)

/-- The loops over bytes find the number that the scan of characters finds. -/
theorem number_eq (h : At text i cs) (hm : 0 < mantissaLength cs) :
    number text i = .ok (numberEnd i (numberAt cs)) := by
  have hj := h.drop_single (single_mantissaLength cs)
  have hend (n : Nat) :
      i + (mantissaLength cs + n - 1 + 1) = i + mantissaLength cs + n := by omega
  have hplain (kind : TokenKind) :
      numberEnd i (.token kind (mantissaLength cs - 1) 0) = (i + mantissaLength cs, some kind) :=
    congrArg (·, some kind) (hend 0)
  rw [number, mantissa_eq h hm, numberAt_eq]
  simp only [bind, Except.bind]
  rw [hj.any_byteAt narrow_exponent]
  generalize cs.drop (mantissaLength cs) = rest at hj
  cases rest with
  | nil => exact congrArg Except.ok (hplain _).symm
  | cons e rest =>
    rw [exponentLength_cons, List.head?_cons, Option.any_some]
    by_cases he : (e == 'e' || e == 'E') = true
    · have htail : At text (i + mantissaLength cs + 1) rest := by
        have := hj.tail
        rwa [utf8Size_eq_one.mpr (narrow_exponent e he)] at this
      have hdigits := htail.drop_single (single_signLength rest)
      have hstart : (if rest.head?.any (fun c => c == '+' || c == '-') = true then
          i + mantissaLength cs + 2 else i + mantissaLength cs + 1) =
          i + mantissaLength cs + 1 + signLength rest := by
        rw [signLength_eq]
        split <;> rfl
      rw [if_pos he, if_pos he, htail.any_byteAt narrow_sign, hstart,
        pass_eq narrow_isDigit hdigits]
      generalize runLength Char.isDigit (rest.drop (signLength rest)) = n
      have hstop : i + mantissaLength cs + 1 + signLength rest + n =
          i + (mantissaLength cs + (1 + signLength rest + n) - 1 + 1) := by omega
      cases n with
      | zero => exact congrArg Except.ok (Prod.ext hstop (if_pos rfl))
      | succ n => exact congrArg Except.ok (Prod.ext hstop (if_neg (by omega)))
    · rw [if_neg he, if_neg he]
      exact congrArg Except.ok (hplain _).symm

/-- The characters of a number have one byte each. -/
theorem single_numberAt {kind : TokenKind} {n lines : Nat}
    (h : numberAt cs = .token kind n lines) (hm : 0 < mantissaLength cs) : Single cs (n + 1) := by
  obtain ⟨-, hn⟩ | ⟨k, he, hn⟩ := numberAt_eq_token h hm
  · exact hn ▸ single_mantissaLength cs
  · exact hn ▸ .add (single_mantissaLength cs) (single_exponentLength he)

theorem single_numberAt_refused {cause : SyntaxCause} {n : Nat}
    (h : numberAt cs = .refused cause n) (hm : 0 < mantissaLength cs) : Single cs (n + 1) := by
  rw [numberAt_eq] at h
  split at h
  · cases h
  · cases h
  · rename_i k he
    obtain ⟨-, rfl⟩ := by simpa using h
    rw [show mantissaLength cs + k - 1 + 1 = mantissaLength cs + k by omega]
    exact .add (single_mantissaLength cs) (single_exponentLength he)

/-! ## Strings -/

/-- Apart from a backslash, a turn looks whether the byte ends the line or the string. -/
theorem stringTurn_of_byteAt {w : Char} (hw : byteAt text i = some w) (he : w ≠ '\\')
    (quote : Char) (line : UInt32) :
    stringTurn text quote i line =
      if w = '\n' then .again (i + 1) (line + 1)
      else if w = quote then .done (some (i + 1, line)) else .again (i + 1) line := by
  unfold stringTurn
  rw [hw]
  split
  · contradiction
  · rename_i heq
    exact absurd (Option.some.inj heq) he
  · rename_i heq
    rw [if_pos (Option.some.inj heq)]
  · rename_i c _ hn heq
    obtain rfl := Option.some.inj heq
    rw [if_neg hn]

/-- A backslash takes the next byte along. -/
theorem stringTurn_backslash (hb : byteAt text i = some '\\') (quote : Char) (line : UInt32) :
    stringTurn text quote i line = .again (i + 2) line := by
  rw [stringTurn, hb]
  rfl

/-- Bytes beyond ASCII inside a string are passed over. -/
theorem string_of_wide {quote : Char} (hq : quote.toNat < 128) (line : UInt32) (n : Nat)
    (h : ∀ k < n, ∃ w, byteAt text (i + k) = some w ∧ ¬ w.toNat < 128)
    (hn : i + n ≤ text.utf8ByteSize) :
    string text quote i line = string text quote (i + n) line := by
  induction n generalizing i with
  | zero => rfl
  | succ n ih =>
    obtain ⟨w, hw, hwide⟩ : ∃ w, byteAt text i = some w ∧ _ := h 0 (Nat.succ_pos n)
    have hne {d : Char} (hd : d.toNat < 128) : w ≠ d := fun he => hwide (he ▸ hd)
    have hturn : stringTurn text quote i line = .again (i + 1) line := by
      rw [stringTurn_of_byteAt hw (hne (by decide)), if_neg (hne (by decide)), if_neg (hne hq)]
    rw [string, loop_again (congrArg Except.ok hturn) (Nat.lt_succ_self i) (by omega)]
    have hrest : ∀ k < n, ∃ w, byteAt text (i + 1 + k) = some w ∧ ¬ w.toNat < 128 := by
      intro k hk
      rw [Nat.add_right_comm, Nat.add_assoc]
      exact h (k + 1) (Nat.succ_lt_succ hk)
    refine (ih hrest (by omega)).trans ?_
    rw [Nat.add_right_comm, Nat.add_assoc]

/-- The rest of a character inside a string is passed over, with `k` bytes of it gone. -/
theorem string_of_inside {quote : Char} (hq : quote.toNat < 128) (h : At text i (c :: cs))
    (hc : ¬ c.toNat < 128) {k : Nat} (hk : k ≤ c.utf8Size) (line : UInt32) :
    string text quote (i + k) line = string text quote (i + c.utf8Size) line := by
  have hsize := h.size
  rw [String.utf8Len_cons] at hsize
  have hrest : ∀ m < c.utf8Size - k, ∃ w, byteAt text (i + k + m) = some w ∧ ¬ w.toNat < 128 := by
    intro m hm
    rw [Nat.add_assoc]
    exact h.byteAt_wide hc (by omega)
  rw [string_of_wide hq line _ hrest (by omega)]
  congr 1
  omega

/-- The loop over bytes finds the end of a string, and counts its lines, as the scan of characters
does. -/
theorem string_eq {quote : Char} (hq : quote.toNat < 128) (hn : quote ≠ '\n')
    (h : At text i cs) (line : UInt32) :
    string text quote i line =
      .ok ((stringExtent quote cs).map fun p =>
        (i + utf8Len (cs.take p.1), line + .ofNat p.2)) := by
  induction cs using escapeInduction generalizing i line with
  | nil =>
    refine loop_done (congrArg Except.ok ?_)
    rw [stringTurn, show byteAt text i = none from h.byteAt_nil 0]
    rfl
  | lone =>
    have hturn := stringTurn_backslash (h.byteAt_narrow (by decide)) quote line
    have hend : byteAt text (i + 2) = none := h.tail.byteAt_nil 1
    rw [string, loop_again (congrArg Except.ok hturn) (by omega) h.lt_size]
    refine loop_done (congrArg Except.ok ?_)
    rw [stringTurn, hend]
    rfl
  | escaped c cs ih =>
    have hturn := stringTurn_backslash (h.byteAt_narrow (by decide)) quote line
    rw [string, loop_again (congrArg Except.ok hturn) (by omega) h.lt_size]
    -- the backslash takes one byte along, which need not be all of the character
    have htail : At text (i + 1) (c :: cs) := h.tail
    have hinside :
        string text quote (i + 2) line = string text quote (i + 1 + c.utf8Size) line := by
      by_cases hc : c.toNat < 128
      · rw [utf8Size_eq_one.mpr hc]
      · exact string_of_inside hq htail hc c.utf8Size_pos line
    refine hinside.trans ((ih htail.tail line).trans ?_)
    rw [stringExtent, Option.map_map]
    have hsize (n : Nat) : i + 1 + c.utf8Size + utf8Len (cs.take n) =
        i + utf8Len (('\\' :: c :: cs).take (n + 2)) := by
      rw [List.take_succ_cons, List.take_succ_cons, String.utf8Len_cons, String.utf8Len_cons,
        show ('\\' : Char).utf8Size = 1 by decide]
      omega
    simp only [Function.comp_def, hsize]
  | plain c cs hc ih =>
    rw [stringExtent_cons hc]
    have hsize (n : Nat) : i + c.utf8Size + utf8Len (cs.take n) =
        i + utf8Len ((c :: cs).take (n + 1)) := by
      rw [List.take_succ_cons, String.utf8Len_cons]
      omega
    by_cases hwide : c.toNat < 128
    · have hturn := stringTurn_of_byteAt (h.byteAt_narrow hwide) hc quote line
      rw [utf8Size_eq_one.mpr hwide] at hsize
      have htail := h.tail
      rw [utf8Size_eq_one.mpr hwide] at htail
      by_cases hquote : c = quote
      · rw [if_neg (hquote ▸ hn), if_pos hquote] at hturn
        rw [string, loop_done (congrArg Except.ok hturn), if_pos hquote, Option.map_some, ← hsize]
        exact congrArg (fun l => Except.ok (some (i + 1, l))) (UInt32.add_zero line).symm
      · rw [if_neg hquote, Option.map_map]
        have hnext : string text quote i line =
            string text quote (i + 1) (if c = '\n' then line + 1 else line) := by
          by_cases hline : c = '\n'
          · rw [if_pos hline] at hturn
            rw [if_pos hline]
            exact loop_again (congrArg Except.ok hturn) (Nat.lt_succ_self i) h.lt_size
          · rw [if_neg hline, if_neg hquote] at hturn
            rw [if_neg hline]
            exact loop_again (congrArg Except.ok hturn) (Nat.lt_succ_self i) h.lt_size
        rw [hnext, ih htail]
        simp only [Function.comp_def, hsize]
        congr 2
        funext p
        split
        · rw [UInt32.ofNat_add, UInt32.add_comm (.ofNat p.2), ← UInt32.add_assoc]
          rfl
        · rfl
    · have hquote : c ≠ quote := fun h => hwide (h ▸ hq)
      have hline : c ≠ '\n' := fun h => hwide (h ▸ by decide)
      have hinside := string_of_inside hq h hwide (Nat.zero_le _) line
      rw [Nat.add_zero] at hinside
      rw [hinside, ih h.tail, if_neg hquote, Option.map_map]
      simp only [Function.comp_def, hsize, if_neg hline]

end Bytes

end Formula

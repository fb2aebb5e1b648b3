import Formula.Literal
import Formula.Proofs.Bytes
import Formula.Proofs.Numerals

/-!
# Number literals

A token that is a number writes a numeral (`Token.Standalone.writes`), so its literal is never
refused as malformed by the readers of whole and of binary numbers : it comes to a value of the
kind that the settings say, or is too large for it.

The reader of decimals refuses three sorts of numerals as malformed that are only too large for
it : those with too many digits in front of the point, those that have too many once they are
rounded, and those whose exponent does not fit 32 bits. All others it reads, or finds out of
range (`Numeral.isLegible`, `Decimal.ofNumeral_of_isLegible`). `Token.literalValue_of_scan` says
what becomes of each number.
-/

namespace Formula

-- Powers are those of the core library, whatever else is in scope.
attribute [local instance (20000)] instPowNat

/-! ## Reading decimals -/

namespace Numeral

/-- The digits in front of the point as a whole number, rounded at the digit behind it. -/
def roundedWhole (n : Numeral) : Nat :=
  digitsValue n.whole + if 5 ≤ (n.fraction.head?.map digitValue).getD 0 then 1 else 0

/-- Whether the whole part, once it is rounded, and the exponent are small enough for the reader
of decimals to come to the question whether the number is in range. -/
def isLegible (n : Numeral) : Bool :=
  n.roundedWhole < Decimal.bound && n.exponent.all fun e => digitsValue e.2 < 2 ^ (32 : Nat)

end Numeral

namespace Decimal

theorem le_foldl_digits (cs : List Char) (n : Nat) :
    n ≤ cs.foldl (fun n c => 10 * n + digitValue c) n := by
  induction cs generalizing n with
  | nil => exact Nat.le_refl n
  | cons c cs ih =>
    have := ih (10 * n + digitValue c)
    rw [List.foldl_cons]
    omega

/-- All digits are taken if the number that they make fits, whatever it starts with. -/
theorem takeWhole_eq {n : Nat} (hn : n < bound) (cs : List Char) :
    takeWhole n cs =
      if cs.foldl (fun n c => 10 * n + digitValue c) n < bound then
        .ok (cs.foldl (fun n c => 10 * n + digitValue c) n)
      else .error .tooManyDigits := by
  induction cs generalizing n with
  | nil => rw [takeWhole, List.foldl_nil, if_pos hn]
  | cons c cs ih =>
    have hle := le_foldl_digits cs (10 * n + digitValue c)
    rw [takeWhole, List.foldl_cons, Nat.mul_comm n]
    split
    · exact ih ‹_›
    · rw [if_neg (by omega)]

/-- Behind the first place there is always room to round. -/
theorem exists_takeFraction (cs : List Char) {n scale : Nat} (hs : 0 < scale) :
    ∃ p, takeFraction n scale cs = .ok p := by
  induction cs generalizing n scale with
  | nil => exact ⟨_, rfl⟩
  | cons c cs ih =>
    rw [takeFraction]
    split
    · exact ih (Nat.succ_pos _)
    · unfold roundAt
      split
      · exact ⟨_, rfl⟩
      split
      · exact ⟨_, rfl⟩
      rw [if_neg (Nat.ne_of_gt hs)]
      exact ⟨_, rfl⟩

/-- The digits behind the point are taken if the digits in front of it fit once they are
rounded. -/
theorem takeFraction_eq {n : Nat} (hn : n < bound) (cs : List Char) :
    (n + (if 5 ≤ (cs.head?.map digitValue).getD 0 then 1 else 0) < bound →
      ∃ p, takeFraction n 0 cs = .ok p) ∧
    (bound ≤ n + (if 5 ≤ (cs.head?.map digitValue).getD 0 then 1 else 0) →
      takeFraction n 0 cs = .error .roundedTooLarge) := by
  cases cs with
  | nil => exact ⟨fun _ => ⟨_, rfl⟩, fun h => absurd hn (Nat.not_lt.mpr h)⟩
  | cons c cs =>
    rw [takeFraction, List.head?_cons, Option.map_some, Option.getD_some]
    by_cases hroom : 0 < maxScale ∧ n * 10 + digitValue c < bound
    · rw [if_pos hroom]
      refine ⟨fun _ => exists_takeFraction cs Nat.one_pos, fun h => ?_⟩
      have hbound : bound = 2 ^ (96 : Nat) := rfl
      split at h <;> omega
    -- without room for it, the first digit only says whether to round up
    · rw [if_neg hroom, roundAt]
      by_cases hup : digitValue c < 5
      · rw [if_pos hup, if_neg (by omega)]
        exact ⟨fun _ => ⟨_, rfl⟩, fun h => absurd hn (Nat.not_lt.mpr h)⟩
      · rw [if_neg hup, if_pos (by omega)]
        refine ⟨fun h => ?_, fun h => ?_⟩
        · rw [if_pos h]
          exact ⟨_, rfl⟩
        · rw [if_neg (by omega), if_pos rfl]

/-- The last step of reading : the decimal with these parts, if it is in range. -/
def inRange (negative : Bool) (p : Nat × Nat) : Except Unreadable Decimal :=
  match make? negative p.1 p.2 with
  | some d => .ok d
  | none => .error .outOfRange

theorem inRange_spec (negative : Bool) (p : Nat × Nat) :
    (∃ d, inRange negative p = .ok d) ∨ inRange negative p = .error .outOfRange := by
  unfold inRange
  split
  · exact .inl ⟨_, rfl⟩
  · exact .inr rfl

theorem movePoint_spec (coefficient scale : Nat) (negative : Bool) {exponent : Nat}
    (he : exponent < 2 ^ (32 : Nat)) :
    (∃ p, movePoint coefficient scale negative exponent = .ok p) ∨
      movePoint coefficient scale negative exponent = .error .outOfRange := by
  rw [movePoint, if_neg (Nat.not_le.mpr he)]
  split
  · exact .inl ⟨_, rfl⟩
  split
  · exact .inl ⟨_, rfl⟩
  split
  · exact .inr rfl
  · exact .inl ⟨_, rfl⟩

variable {negative : Bool} {n : Numeral}

theorem ofNumeral_of_digits {whole : Nat} {p : Nat × Nat} (hw : takeWhole 0 n.whole = .ok whole)
    (hf : takeFraction whole 0 n.fraction = .ok p) :
    ofNumeral negative n =
      (match n.exponent with
        | none => .ok p
        | some (below, ds) => movePoint p.1 p.2 below (digitsValue ds)) >>= inRange negative := by
  rw [ofNumeral, hw]
  simp only [bind, Except.bind]
  rw [hf]
  cases n.exponent <;> rfl

/-- What is legible is read, or out of range. -/
theorem ofNumeral_of_isLegible (negative : Bool) (h : n.isLegible = true) :
    (∃ d, ofNumeral negative n = .ok d) ∨ ofNumeral negative n = .error .outOfRange := by
  obtain ⟨hround, hexponent⟩ := Bool.and_eq_true_iff.mp h
  have hround : n.roundedWhole < bound := of_decide_eq_true hround
  have hw : takeWhole 0 n.whole = .ok (digitsValue n.whole) := by
    rw [takeWhole_eq (by decide)]
    exact if_pos (Nat.lt_of_le_of_lt (Nat.le_add_right ..) hround)
  have hlt : digitsValue n.whole < bound := Nat.lt_of_le_of_lt (Nat.le_add_right ..) hround
  obtain ⟨p, hf⟩ := (takeFraction_eq hlt n.fraction).1 hround
  rw [ofNumeral_of_digits hw hf]
  cases he : n.exponent with
  | none => exact inRange_spec negative p
  | some e =>
    obtain ⟨below, ds⟩ := e
    rw [he] at hexponent
    obtain ⟨q, hq⟩ | hq := movePoint_spec p.1 p.2 below (of_decide_eq_true hexponent)
    · dsimp only
      rw [hq]
      exact inRange_spec negative q
    · dsimp only
      rw [hq]
      exact .inr rfl

/-- What is not legible is refused for another reason than that it is out of range. -/
theorem ofNumeral_of_not_isLegible (negative : Bool) (h : n.isLegible = false) :
    ∃ reason, reason ≠ .outOfRange ∧ ofNumeral negative n = .error reason := by
  by_cases hlt : digitsValue n.whole < bound
  · have hw : takeWhole 0 n.whole = .ok (digitsValue n.whole) :=
      (takeWhole_eq (by decide) n.whole).trans (if_pos hlt)
    by_cases hround : n.roundedWhole < bound
    · obtain ⟨p, hf⟩ := (takeFraction_eq hlt n.fraction).1 hround
      rw [Numeral.isLegible, decide_eq_true hround, Bool.true_and] at h
      rw [ofNumeral_of_digits hw hf]
      cases he : n.exponent with
      | none => simp [he] at h
      | some e =>
        obtain ⟨below, ds⟩ := e
        rw [he] at h
        refine ⟨.exponentTooLarge, nofun, ?_⟩
        dsimp only
        rw [movePoint, if_pos (Nat.not_lt.mp (of_decide_eq_false h))]
        rfl
    · have hf := (takeFraction_eq hlt n.fraction).2 (Nat.not_lt.mp hround)
      refine ⟨.roundedTooLarge, nofun, ?_⟩
      rw [ofNumeral, hw]
      simp only [bind, Except.bind]
      rw [hf]
  · have hw : takeWhole 0 n.whole = .error .tooManyDigits :=
      (takeWhole_eq (by decide) n.whole).trans (if_neg hlt)
    exact ⟨.tooManyDigits, nofun, by rw [ofNumeral, hw]; rfl⟩

end Decimal

/-! ## What is a number -/

theorem symbolAt_not_number {c : Char} {cs : List Char} {kind : TokenKind} {n lines : Nat}
    (h : symbolAt c cs = .token kind n lines) : kind ≠ .integer ∧ kind ≠ .float := by
  unfold symbolAt at h
  split at h
  · obtain rfl := (Piece.token.inj h).1
    decide
  · split at h
    · rename_i k hk
      obtain rfl := (Piece.token.inj h).1
      unfold symbolKind? at hk
      split at hk <;> cases hk <;> decide
    · cases h

/-- Only a digit, or a point in front of one, starts a number. -/
theorem startsNumber_of_pieceAt {c : Char} {cs : List Char} {kind : TokenKind} {n lines : Nat}
    (h : pieceAt c cs = .token kind n lines) (hk : kind = .integer ∨ kind = .float) :
    startsNumber c cs = true ∧ numberAt (c :: cs) = .token kind n lines := by
  rw [pieceAt_eq] at h
  split at h
  case isTrue hc => exact ⟨hc, h⟩
  split at h
  case isTrue =>
    obtain rfl := (Piece.token.inj h).1
    simp at hk
  split at h
  case isFalse => exact absurd hk (not_or.mpr (symbolAt_not_number h))
  case isTrue =>
    split at h
    · obtain rfl := (Piece.token.inj h).1
      simp at hk
    · cases h

namespace Token

variable {t : Token}

/-- A token that is a number writes a numeral. -/
theorem Standalone.writes (ht : t.Standalone) (hk : t.kind = .integer ∨ t.kind = .float) :
    ∃ n : Numeral, n.Writes t.lexeme.toList ∧ t.kind = n.tokenKind := by
  obtain ⟨c, body, lines, hl, -, hp⟩ := ht
  have hpiece := hp [] .nil
  rw [List.append_nil] at hpiece
  obtain ⟨hc, hnumber⟩ := startsNumber_of_pieceAt hpiece hk
  obtain ⟨n, hn, hkind⟩ := writes_of_numberAt hnumber (mantissaLength_pos hc).1
  rw [← List.length_cons, List.take_length] at hn
  exact ⟨n, by rwa [hl, String.toList_ofList], hkind⟩

/-! ## What becomes of a number -/

/-- A value of a kind, or the fault of a literal that does not fit, at its place. -/
inductive YieldsOrOverflows (t : Token) (k : Kind) : Except Fault Value → Prop
  | value {v : Value} (hv : v.kind = k) : YieldsOrOverflows t k (.ok v)
  | overflow (cause : OverflowCause) : YieldsOrOverflows t k (.error (.overflow t.place cause))

theorem integerValue_yields {n : Nat} (hn : t.wholeNumber = .ok n) (settings : Settings) :
    t.YieldsOrOverflows settings.integerKind (t.integerValue settings.intPrecision) := by
  unfold integerValue
  split
  case h_1 h => cases hn.symm.trans h
  -- the number stays a variable here : a reduction of the match would count up to the bounds
  rename_i n _
  unfold Settings.integerKind
  cases settings.intPrecision with
  | i32 => cases int32? n with
    | some _ => exact .value rfl
    | none => exact .overflow _
  | i64 => cases int64? n with
    | some _ => exact .value rfl
    | none => exact .overflow _

theorem decimalValue_yields {n : Numeral} (h : n.isLegible = true) :
    t.YieldsOrOverflows .decimal (t.decimalValue n) := by
  rw [decimalValue]
  obtain ⟨d, hd⟩ | hd := Decimal.ofNumeral_of_isLegible false h
  · rw [hd]
    exact .value rfl
  · rw [hd]
    exact .overflow _

theorem decimalValue_of_not_isLegible {n : Numeral} (h : n.isLegible = false) :
    ∃ reason, t.decimalValue n = .error (t.fault (.malformedDecimal reason)) := by
  obtain ⟨reason, hne, hr⟩ := Decimal.ofNumeral_of_not_isLegible false h
  refine ⟨reason, ?_⟩
  rw [decimalValue, hr]
  cases reason with
  | outOfRange => exact absurd rfl hne
  | tooManyDigits | roundedTooLarge | exponentTooLarge => rfl

theorem floatValue_yields {n : Numeral} (hn : t.numeral = .ok n) {settings : Settings}
    (h : settings.floatPrecision = .decimal → n.isLegible = true) :
    t.YieldsOrOverflows settings.floatKind (t.floatValue settings.floatPrecision) := by
  rw [floatValue, hn, Settings.floatKind]
  cases hp : settings.floatPrecision with
  | f32 =>
    dsimp only
    split
    · exact .overflow _
    · exact .value rfl
  | f64 =>
    dsimp only
    split
    · exact .overflow _
    · exact .value rfl
  | decimal => exact decimalValue_yields (h hp)

/-- The token of a whole number is made of digits. -/
theorem wholeNumber_of_writes {n : Numeral} (hn : n.Writes t.lexeme.toList)
    (hk : n.tokenKind = .integer) : ∃ m, t.wholeNumber = .ok m := by
  have hdigits : AreDigits t.lexeme.toList := hn.areDigits hk
  have hok : ¬ (t.lexeme.toList.isEmpty || !t.lexeme.toList.all Char.isDigit) = true := by
    simp [hdigits.all, hdigits.ne_nil]
  rw [wholeNumber, if_neg hok]
  exact ⟨_, rfl⟩

theorem numeral_of_writes {n : Numeral} (hn : n.Writes t.lexeme.toList) : t.numeral = .ok n := by
  rw [numeral, hn.ofChars?_eq]

/-- A number that the scan takes comes to a value of the kind that the settings say, or is too
large for it, and never to a syntax fault, with this exception : a number with a fraction or an
exponent that the settings ask to be a decimal is said to be malformed where it is not
legible. -/
theorem literalValue_of_scan {s : String} {ts : List Token} (h : scan s = .ok ts)
    (ht : t ∈ ts) (settings : Settings) :
    (t.kind = .integer →
      t.YieldsOrOverflows settings.integerKind (t.literalValue settings .integer)) ∧
    (t.kind = .float → ∃ n, Numeral.ofChars? t.lexeme.toList = some n ∧
      ((settings.floatPrecision = .decimal → n.isLegible = true) →
        t.YieldsOrOverflows settings.floatKind (t.literalValue settings .float)) ∧
      (settings.floatPrecision = .decimal → n.isLegible = false →
        ∃ reason, t.literalValue settings .float =
          .error (t.fault (.malformedDecimal reason)))) := by
  obtain ⟨ls, hls, rfl⟩ := Except.map_eq_ok.mp h
  obtain ⟨l, hl, rfl⟩ := List.mem_map.mp ht
  have hwrites := (standalone_of_scanFrom hls l hl).writes
  refine ⟨fun hk => ?_, fun hk => ?_⟩
  · obtain ⟨n, hn, hkind⟩ := hwrites (.inl hk)
    obtain ⟨m, hm⟩ := wholeNumber_of_writes hn (hkind.symm.trans hk)
    exact integerValue_yields hm settings
  · obtain ⟨n, hn, -⟩ := hwrites (.inr hk)
    refine ⟨n, hn.ofChars?_eq, fun hlegible => ?_, fun hp hlegible => ?_⟩
    · exact floatValue_yields (numeral_of_writes hn) hlegible
    · rw [literalValue, floatValue, numeral_of_writes hn, hp]
      exact decimalValue_of_not_isLegible hlegible

/-- Rounded at the digit behind the point, the number is the largest decimal. -/
theorem literalValue_of_scan_largest :
    scan "79228162514264337593543950335.4" =
        .ok [⟨"79228162514264337593543950335.4", .float, 1⟩] ∧
      YieldsOrOverflows ⟨"79228162514264337593543950335.4", .float, 1⟩ .decimal
        (literalValue ⟨"79228162514264337593543950335.4", .float, 1⟩
          { Settings.standard with floatPrecision := .decimal } .float) := by
  have hs : scan "79228162514264337593543950335.4" =
      .ok [⟨"79228162514264337593543950335.4", .float, 1⟩] := by cbv
  obtain ⟨n, hn, hyields, -⟩ := (literalValue_of_scan hs List.mem_cons_self
    { Settings.standard with floatPrecision := .decimal }).2 rfl
  have hlegible : (Numeral.ofChars? "79228162514264337593543950335.4".toList).map
      Numeral.isLegible = some true := by cbv
  refine ⟨hs, hyields fun _ => ?_⟩
  rw [hn] at hlegible
  exact Option.some.inj hlegible

/-- With a digit too many in front of the point, a decimal is said to be malformed. -/
theorem literalValue_of_scan_too_long :
    scan "79228162514264337593543950336.0" =
        .ok [⟨"79228162514264337593543950336.0", .float, 1⟩] ∧
      literalValue ⟨"79228162514264337593543950336.0", .float, 1⟩
          { Settings.standard with floatPrecision := .decimal } .float =
        .error (.syntactic ⟨1, "79228162514264337593543950336.0"⟩
          (.malformedDecimal .tooManyDigits)) := by
  refine ⟨by cbv, by cbv⟩

end Token

end Formula

import Formula.Numeral
import Formula.Proofs.Pieces
import Mathlib.Data.List.TakeDrop

/-!
# How numbers are written

A number is written as digits, then a point and digits behind it, then an exponent, where the
fraction and the exponent may be left out, and the digits in front of a fraction too
(`Numeral.Writes`). The scan takes nothing else for a number (`writes_of_numberAt`), and the
reader reads what is written so as the same numeral (`Numeral.Writes.ofChars?_eq`). So the
reader never refuses what the scan has taken.
-/

namespace Formula

/-! ## Runs of characters -/

theorem all_take_runLength (p : Char → Bool) (cs : List Char) :
    (cs.take (runLength p cs)).all p = true := by
  induction cs with
  | nil => rfl
  | cons c cs ih =>
    rw [runLength]
    split
    case isTrue hc => rw [List.take_succ_cons, List.all_cons, hc, ih]; rfl
    case isFalse => rfl

/-- A run of characters is split off from what does not continue it. -/
theorem span_append {p : Char → Bool} {ds rest : List Char} (hd : ds.all p = true)
    (hr : rest.head?.any p = false) : (ds ++ rest).span p = (ds, rest) := by
  have hall : ∀ c ∈ ds, p c = true := List.all_eq_true.mp hd
  have hrest : rest.takeWhile p = [] ∧ rest.dropWhile p = rest := by
    cases rest with
    | nil => exact ⟨rfl, rfl⟩
    | cons c rest =>
      have hc : p c = false := hr
      simp [hc]
  rw [List.span_eq_takeWhile_dropWhile, List.takeWhile_append_of_pos hall,
    List.dropWhile_append_of_pos hall, hrest.1, hrest.2, List.append_nil]

/-- Characters that are neither line ends nor backslashes. -/
def Plain (cs : List Char) : Prop := ∀ c ∈ cs, c ≠ '\n' ∧ c ≠ '\\'

theorem plain_of_all {p : Char → Bool} (hn : p '\n' = false) (hb : p '\\' = false)
    {cs : List Char} (h : cs.all p = true) : Plain cs := by
  intro c hc
  have hp : p c = true := List.all_eq_true.mp h c hc
  constructor
  · rintro rfl
    exact Bool.false_ne_true (hn ▸ hp)
  · rintro rfl
    exact Bool.false_ne_true (hb ▸ hp)

/-- Digits, and at least one of them. -/
structure AreDigits (cs : List Char) : Prop where
  ne_nil : cs ≠ []
  all : cs.all Char.isDigit = true

theorem areDigits_take_runLength {cs : List Char} (h : runLength Char.isDigit cs ≠ 0) :
    AreDigits (cs.take (runLength Char.isDigit cs)) where
  ne_nil := by
    have hle := runLength_le_length Char.isDigit cs
    rw [← List.length_pos_iff, List.length_take]
    omega
  all := all_take_runLength ..

theorem AreDigits.not_sign {c : Char} {cs : List Char}
    (hd : AreDigits (c :: cs)) : c ≠ '-' ∧ c ≠ '+' := by
  have hc : c.isDigit = true := (Bool.and_eq_true_iff.mp hd.all).1
  constructor <;> rintro rfl <;> cases hc

/-! ## What is written -/

namespace Numeral

/-- A fraction, and the digits of it. -/
inductive WritesFraction : List Char → List Char → Prop
  | none : WritesFraction [] []
  | point {ds : List Char} (hd : AreDigits ds) : WritesFraction ('.' :: ds) ds

/-- The sign of an exponent, and whether it is a minus. -/
inductive WritesSign : List Char → Bool → Prop
  | none : WritesSign [] false
  | plus : WritesSign ['+'] false
  | minus : WritesSign ['-'] true

/-- An exponent, and what it says. -/
inductive WritesExponent : List Char → Option (Bool × List Char) → Prop
  | none : WritesExponent [] none
  | some {e : Char} {sign ds : List Char} {negative : Bool} (he : e = 'e' ∨ e = 'E')
    (hs : WritesSign sign negative) (hd : AreDigits ds) :
    WritesExponent (e :: (sign ++ ds)) (some (negative, ds))

/-- Characters, and the numeral that they write. -/
inductive Writes : List Char → Numeral → Prop
  | mk {whole fraction exponent ds : List Char} {e : Option (Bool × List Char)}
    (hw : whole.all Char.isDigit = true) (hf : WritesFraction fraction ds)
    (he : WritesExponent exponent e) (hne : whole ≠ [] ∨ ds ≠ []) :
    Writes (whole ++ fraction ++ exponent) ⟨whole, ds, e⟩

/-- The kind of the token that writes the numeral. -/
def tokenKind (n : Numeral) : TokenKind :=
  if n.fraction = [] ∧ n.exponent = none then .integer else .float

end Numeral

open Numeral

/-! ## What the scan takes for a number -/

theorem writes_fraction (cs : List Char) :
    ∃ ds, WritesFraction (cs.take (fractionLength cs)) ds ∧
      (ds = [] ↔ fractionLength cs = 0) := by
  unfold fractionLength
  split
  · rename_i cs
    dsimp only
    split
    · exact ⟨[], .none, by simp⟩
    · rename_i hd
      have hds := areDigits_take_runLength hd
      exact ⟨_, .point hds, iff_of_false hds.ne_nil (Nat.succ_ne_zero _)⟩
  · exact ⟨[], .none, by simp⟩

theorem writes_sign (cs : List Char) : ∃ b, WritesSign (cs.take (signLength cs)) b := by
  cases cs with
  | nil => exact ⟨_, .none⟩
  | cons c cs =>
    rw [signLength]
    split
    case isTrue hc =>
      obtain rfl | rfl : c = '+' ∨ c = '-' := by simpa using hc
      · exact ⟨_, .plus⟩
      · exact ⟨_, .minus⟩
    case isFalse => exact ⟨_, .none⟩

theorem writes_exponent {cs : List Char} {k : Nat} (h : exponentLength cs = some (k, true)) :
    ∃ e, WritesExponent (cs.take k) (some e) := by
  cases cs with
  | nil => cases h
  | cons c cs =>
    rw [exponentLength_cons] at h
    split at h
    case isFalse => cases h
    case isTrue hc =>
      obtain ⟨rfl, hd⟩ : _ ∧ runLength Char.isDigit (cs.drop (signLength cs)) ≠ 0 := by
        simpa using h
      obtain ⟨b, hs⟩ := writes_sign cs
      have hletter : c = 'e' ∨ c = 'E' := by simpa using hc
      rw [Nat.add_assoc, Nat.add_comm 1, List.take_succ_cons, List.take_add]
      exact ⟨_, .some hletter hs (areDigits_take_runLength hd)⟩

/-- What the scan takes for a number writes a numeral, and says by its kind whether there is
more to it than digits. -/
theorem writes_of_numberAt {cs : List Char} {kind : TokenKind} {n lines : Nat}
    (h : numberAt cs = .token kind n lines) (hm : 0 < mantissaLength cs) :
    ∃ m : Numeral, Writes (cs.take (n + 1)) m ∧ kind = m.tokenKind := by
  obtain ⟨ds, hf, hds⟩ := writes_fraction (cs.drop (runLength Char.isDigit cs))
  have hw := all_take_runLength Char.isDigit cs
  have hne : cs.take (runLength Char.isDigit cs) ≠ [] ∨ ds ≠ [] := by
    rw [← not_and_or, hds, ← List.length_eq_zero_iff, List.length_take,
      Nat.min_eq_left (runLength_le_length ..)]
    unfold mantissaLength at hm
    omega
  have hmantissa : cs.take (mantissaLength cs) = cs.take (runLength Char.isDigit cs) ++
      (cs.drop (runLength Char.isDigit cs)).take
        (fractionLength (cs.drop (runLength Char.isDigit cs))) := List.take_add
  obtain ⟨he, hn⟩ | ⟨k, he, hn⟩ := numberAt_eq_token h hm
  · have hwrites := Writes.mk hw hf .none hne
    rw [List.append_nil, ← hmantissa, ← hn] at hwrites
    rw [numberAt_eq, he] at h
    exact ⟨_, hwrites, (Piece.token.inj h).1.symm.trans (by simp [tokenKind, hds])⟩
  · obtain ⟨e, hexponent⟩ := writes_exponent he
    have hwrites := Writes.mk hw hf hexponent hne
    rw [← hmantissa, ← List.take_add, ← hn] at hwrites
    rw [numberAt_eq, he] at h
    exact ⟨_, hwrites, (Piece.token.inj h).1.symm.trans (by simp [tokenKind])⟩

/-! ## What is read -/

namespace Numeral

variable {whole fraction exponent ds : List Char} {e : Option (Bool × List Char)}

theorem WritesExponent.head_not_digit (he : WritesExponent exponent e) :
    exponent.head?.any Char.isDigit = false := by
  cases he with
  | none => rfl
  | some he => obtain rfl | rfl := he <;> rfl

theorem WritesFraction.head_not_digit (hf : WritesFraction fraction ds)
    (he : WritesExponent exponent e) :
    (fraction ++ exponent).head?.any Char.isDigit = false := by
  cases hf with
  | none => exact he.head_not_digit
  | point => rfl

theorem exponentOfChars?_eq {sign : List Char} {negative : Bool} (hs : WritesSign sign negative)
    (hd : AreDigits ds) : exponentOfChars? (sign ++ ds) = some (negative, ds) := by
  have hok : (!ds.isEmpty && ds.all Char.isDigit) = true := by
    simpa [List.isEmpty_iff] using ⟨hd.ne_nil, List.all_eq_true.mp hd.all⟩
  unfold exponentOfChars?
  cases hs with
  | plus | minus => exact if_pos hok
  | none =>
    rw [List.nil_append]
    split
    rename_i hsplit
    split at hsplit
    · exact absurd rfl hd.not_sign.1
    · exact absurd rfl hd.not_sign.2
    · cases hsplit
      exact if_pos hok

/-- The digits of the fraction at the start, and what is behind it. -/
def splitFraction : List Char → List Char × List Char
  | '.' :: cs => cs.span Char.isDigit
  | cs => ([], cs)

/-- The numeral with these digits and what is written behind them. -/
def withExponent? (whole fraction : List Char) : List Char → Option Numeral
  | [] => some ⟨whole, fraction, none⟩
  | c :: cs =>
    if c == 'e' || c == 'E' then (exponentOfChars? cs).map fun e => ⟨whole, fraction, some e⟩
    else none

theorem ofChars?_of_split {cs rest exponent : List Char} (hw : cs.span Char.isDigit = (whole, rest))
    (hf : splitFraction rest = (fraction, exponent)) :
    ofChars? cs = if whole.isEmpty && fraction.isEmpty then none
      else withExponent? whole fraction exponent := by
  have hof : ofChars? cs =
      if (cs.span Char.isDigit).1.isEmpty &&
        (splitFraction (cs.span Char.isDigit).2).1.isEmpty then none
      else withExponent? (cs.span Char.isDigit).1 (splitFraction (cs.span Char.isDigit).2).1
        (splitFraction (cs.span Char.isDigit).2).2 := rfl
  rw [hof, hw, hf]

theorem WritesFraction.split (hf : WritesFraction fraction ds) (he : WritesExponent exponent e) :
    splitFraction (fraction ++ exponent) = (ds, exponent) := by
  cases hf with
  | point hd => exact span_append hd.all he.head_not_digit
  | none =>
    cases he with
    | none => rfl
    | some he => obtain rfl | rfl := he <;> rfl

/-- What writes a numeral is read as it. -/
theorem Writes.ofChars?_eq {cs : List Char} {n : Numeral} (h : Writes cs n) :
    ofChars? cs = some n := by
  obtain ⟨hw, hf, he, hne⟩ := h
  rename_i whole fraction exponent ds e
  have hdigits : ¬ (whole.isEmpty && ds.isEmpty) = true := by
    simpa [← not_and_or] using hne
  rw [List.append_assoc,
    ofChars?_of_split (span_append hw (hf.head_not_digit he)) (hf.split he), if_neg hdigits]
  cases he with
  | none => rfl
  | some hc hs hd =>
    rw [withExponent?, if_pos (by simpa using hc), exponentOfChars?_eq hs hd]
    rfl

/-- What writes an integer is digits. -/
theorem Writes.areDigits {cs : List Char} {n : Numeral} (h : Writes cs n)
    (hk : n.tokenKind = .integer) : AreDigits cs := by
  obtain ⟨hw, hf, he, hne⟩ := h
  rename_i whole fraction exponent ds e
  obtain ⟨rfl, rfl⟩ : ds = [] ∧ e = none := by
    by_contra hmore
    rw [tokenKind, if_neg hmore] at hk
    cases hk
  cases he
  cases hf with
  | point hd => exact absurd rfl hd.ne_nil
  | none =>
    rw [List.append_nil, List.append_nil]
    exact ⟨hne.resolve_right (· rfl), hw⟩

/-- There is no line end and no backslash in a number. -/
theorem Writes.plain {cs : List Char} {n : Numeral} (h : Writes cs n) : Plain cs := by
  obtain ⟨hw, hf, he, -⟩ := h
  have hplain {ds : List Char} : ds.all Char.isDigit = true → Plain ds := plain_of_all rfl rfl
  refine List.forall_mem_append.mpr ⟨List.forall_mem_append.mpr ⟨hplain hw, ?_⟩, ?_⟩
  · cases hf with
    | none => exact List.forall_mem_nil _
    | point hd => exact List.forall_mem_cons.mpr ⟨by decide, hplain hd.all⟩
  · cases he with
    | none => exact List.forall_mem_nil _
    | some hc hs hd =>
      refine List.forall_mem_cons.mpr ⟨?_, List.forall_mem_append.mpr ⟨?_, hplain hd.all⟩⟩
      · obtain rfl | rfl := hc <;> decide
      · cases hs with
        | none => exact List.forall_mem_nil _
        | plus | minus => exact List.forall_mem_singleton.mpr (by decide)

end Numeral

end Formula

import Formula.Token.Bytes
import Mathlib

/-!
# Positions between the characters of a text

A position of a text at which given characters are left (`At`) is a boundary of characters,
and the text between two such positions can be cut out (`At.cut`). What byte is there says
whether the next character is a given ASCII character (`At.any_byteAt`), and all bytes of a
character of several bytes are beyond ASCII (`At.byteAt_wide`), so what looks for ASCII
characters passes them all.
-/

namespace Formula

open String (utf8Len)

namespace Bytes

/-! ## Characters of one byte -/

/-- What only ASCII characters satisfy. -/
def Narrow (p : Char → Bool) : Prop := ∀ c, p c = true → c.toNat < 128

/-- The characters of one byte are the ASCII characters. -/
theorem utf8Size_eq_one {c : Char} : c.utf8Size = 1 ↔ c.toNat < 128 := by
  rw [Char.utf8Size_eq_one_iff, UInt32.le_iff_toNat_le]
  exact Nat.lt_succ_iff.symm

theorem narrow_isDigit : Narrow Char.isDigit := by
  intro c hc
  simp only [Char.isDigit, Bool.and_eq_true, decide_eq_true_eq, UInt32.le_iff_toNat_le] at hc
  exact Nat.lt_of_le_of_lt hc.2 (by decide)

theorem narrow_isAlpha : Narrow Char.isAlpha := by
  intro c hc
  simp only [Char.isAlpha, Char.isUpper, Char.isLower, Bool.or_eq_true, Bool.and_eq_true,
    decide_eq_true_eq, UInt32.le_iff_toNat_le] at hc
  obtain h | h := hc
  · exact Nat.lt_of_le_of_lt h.2 (by decide)
  · exact Nat.lt_of_le_of_lt h.2 (by decide)

theorem narrow_eq {d : Char} (hd : d.toNat < 128) : Narrow (· == d) := by
  intro c hc
  obtain rfl : c = d := by simpa using hc
  exact hd

theorem narrow_or {p q : Char → Bool} (hp : Narrow p) (hq : Narrow q) :
    Narrow fun c => p c || q c := by
  intro c hc
  obtain h | h := (Bool.or_eq_true ..).mp hc
  · exact hp c h
  · exact hq c h

theorem narrow_startsName : Narrow startsName :=
  narrow_or narrow_isAlpha (narrow_eq (by decide))

theorem narrow_continuesName : Narrow continuesName :=
  narrow_or (narrow_or narrow_isAlpha narrow_isDigit) (narrow_eq (by decide))

/-- An ASCII condition is not met beyond ASCII. -/
theorem Narrow.eq_false {p : Char → Bool} (hp : Narrow p) {c : Char} (hc : ¬ c.toNat < 128) :
    p c = false :=
  Bool.eq_false_iff.mpr fun h => hc (hp c h)

/-- The bytes of a character of several bytes are beyond ASCII. -/
theorem le_of_mem_utf8EncodeChar {c : Char} (hc : ¬ c.toNat < 128) {b : UInt8}
    (hb : b ∈ String.utf8EncodeChar c) : 128 ≤ b.toNat := by
  have hv : ¬ c.val.toNat ≤ 127 := fun h => hc (Nat.lt_succ_of_le h)
  rw [String.utf8EncodeChar.eq_1, if_neg hv] at hb
  split at hb
  · simp only [List.mem_cons, List.not_mem_nil, or_false] at hb
    obtain rfl | rfl := hb
    all_goals rw [UInt8.toNat_ofNat']; omega
  split at hb
  · simp only [List.mem_cons, List.not_mem_nil, or_false] at hb
    obtain rfl | rfl | rfl := hb
    all_goals rw [UInt8.toNat_ofNat']; omega
  · simp only [List.mem_cons, List.not_mem_nil, or_false] at hb
    obtain rfl | rfl | rfl | rfl := hb
    all_goals rw [UInt8.toNat_ofNat']; omega

/-! ## Positions -/

/-- The characters are those of the text from a position on. -/
def At (text : String) (i : Nat) (cs : List Char) : Prop :=
  ∃ pre, text = String.ofList (pre ++ cs) ∧ i = utf8Len pre

variable {text : String} {i : Nat} {c : Char} {cs : List Char}

theorem at_zero (text : String) : At text 0 text.toList := ⟨[], by simp, rfl⟩

/-- Behind the characters of a text, the rest of it starts. -/
theorem At.append {mid post : List Char} (h : At text i (mid ++ post)) :
    At text (i + utf8Len mid) post := by
  obtain ⟨pre, rfl, rfl⟩ := h
  exact ⟨pre ++ mid, by rw [List.append_assoc], by rw [String.utf8Len_append]⟩

/-- The position behind the first characters is as far on as they have bytes. -/
theorem At.drop (h : At text i cs) (n : Nat) : At text (i + utf8Len (cs.take n)) (cs.drop n) :=
  .append (by rwa [List.take_append_drop])

/-- The position behind a character is as far on as it has bytes. -/
theorem At.tail (h : At text i (c :: cs)) : At text (i + c.utf8Size) cs := by
  simpa using h.drop 1

/-- The bytes before a position and those after it are all the bytes of the text. -/
theorem At.size (h : At text i cs) : text.utf8ByteSize = i + utf8Len cs := by
  obtain ⟨pre, rfl, rfl⟩ := h
  rw [String.utf8ByteSize_ofList, String.utf8Len_append]

theorem At.lt_size (h : At text i (c :: cs)) : i < text.utf8ByteSize := by
  have := c.utf8Size_pos
  rw [h.size, String.utf8Len_cons]
  omega

/-- The positions between characters are those where a rest of the text starts. -/
theorem isBoundary_iff : isBoundary text i = true ↔ ∃ cs, At text i cs := by
  rw [isBoundary, String.Pos.Raw.isValid_eq_true_iff, String.Pos.Raw.isValid_iff_exists_append]
  constructor
  · rintro ⟨a, b, rfl, h⟩
    exact ⟨b.toList, a.toList, by simp, by rw [String.Pos.Raw.ext_iff] at h; simp_all⟩
  · rintro ⟨cs, pre, rfl, rfl⟩
    exact ⟨.ofList pre, .ofList cs, by simp, by simp⟩

/-- What stands between two boundaries can be cut out. -/
theorem At.cut {mid post : List Char} (h : At text i (mid ++ post)) :
    Bytes.cut text i (i + utf8Len mid) = .ok (String.ofList mid) := by
  rw [Bytes.cut, if_pos ⟨Nat.le_add_right .., isBoundary_iff.mpr ⟨_, h⟩,
    isBoundary_iff.mpr ⟨_, h.append⟩⟩]
  obtain ⟨pre, rfl, rfl⟩ := h
  rw [← List.append_assoc, String.extract_of_valid]

/-! ## The bytes at a position -/

/-- The bytes from a position on are those of the characters that start there. -/
theorem At.byteAt_add (h : At text i cs) (k : Nat) :
    byteAt text (i + k) = (cs.flatMap String.utf8EncodeChar)[k]?.map Char.ofUInt8 := by
  obtain ⟨pre, rfl, rfl⟩ := h
  have hlen : (pre.flatMap String.utf8EncodeChar).length = utf8Len pre := by
    induction pre with
    | nil => rfl
    | cons c pre ih => simp [ih, Nat.add_comm]
  simp only [byteAt, String.toUTF8_eq_toByteArray, String.toByteArray_ofList, List.utf8Encode,
    List.data_toByteArray, List.getElem?_toArray, List.flatMap_append]
  rw [List.getElem?_append_right (by omega), hlen, Nat.add_sub_cancel_left]

theorem At.byteAt_nil (h : At text i []) (k : Nat) : byteAt text (i + k) = none := by
  simp [h.byteAt_add]

/-- An ASCII character is read off its byte. -/
theorem At.byteAt_narrow (h : At text i (c :: cs)) (hc : c.toNat < 128) :
    byteAt text i = some c := by
  have hchar : Char.ofUInt8 c.val.toUInt8 = c := by
    rw [Char.ext_iff, ← UInt32.toNat_inj]
    simp only [Char.ofUInt8, UInt8.toNat_toUInt32, UInt32.toNat_toUInt8]
    exact Nat.mod_eq_of_lt (Nat.lt_trans hc (by decide))
  have := h.byteAt_add 0
  rw [List.flatMap_cons, String.utf8EncodeChar_eq_singleton (utf8Size_eq_one.mpr hc)] at this
  exact this.trans (congrArg some hchar)

/-- No byte of a character beyond ASCII looks like an ASCII character. -/
theorem At.byteAt_wide (h : At text i (c :: cs)) (hc : ¬ c.toNat < 128) {k : Nat}
    (hk : k < c.utf8Size) : ∃ w, byteAt text (i + k) = some w ∧ ¬ w.toNat < 128 := by
  have hk' : k < (String.utf8EncodeChar c).length := by rwa [String.length_utf8EncodeChar]
  have := le_of_mem_utf8EncodeChar hc (List.getElem_mem hk')
  refine ⟨Char.ofUInt8 (String.utf8EncodeChar c)[k], ?_, ?_⟩
  · rw [h.byteAt_add, List.flatMap_cons, List.getElem?_append_left hk',
      List.getElem?_eq_getElem hk', Option.map_some]
  · simpa [Char.ofUInt8, Char.toNat] using this

/-- Whether the next character is one of some ASCII characters shows at the next byte. -/
theorem At.any_byteAt (h : At text i cs) {p : Char → Bool} (hp : Narrow p) :
    (byteAt text i).any p = cs.head?.any p := by
  cases cs with
  | nil =>
    rw [show byteAt text i = none from h.byteAt_nil 0]
    rfl
  | cons c cs =>
    by_cases hc : c.toNat < 128
    · rw [h.byteAt_narrow hc]
      rfl
    · obtain ⟨w, hw, hwide⟩ := h.byteAt_wide hc c.utf8Size_pos
      rw [show byteAt text i = some w from hw, Option.any_some, hp.eq_false hwide,
        List.head?_cons, Option.any_some, hp.eq_false hc]

theorem At.byteAt_eq_some (h : At text i cs) {d : Char} (hd : d.toNat < 128) :
    byteAt text i = some d ↔ cs.head? = some d := by
  have := h.any_byteAt (narrow_eq hd)
  rw [Bool.eq_iff_iff] at this
  simpa [Option.any_eq_true] using this

end Bytes

end Formula

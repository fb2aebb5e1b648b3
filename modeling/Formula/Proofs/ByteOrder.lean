import Mathlib.Data.List.Lex
import Mathlib.Data.String.Basic
import Mathlib.Order.Monotone.Basic
import Mathlib.Tactic.SplitIfs
import Formula.Value.Comparison

/-!
# The order of bytes

The bytes of texts, compared one after the other, order the texts as their characters do
(`bytes_strictMono`), and so strings are compared as their bytes are
(`stringOrder_compares_bytes`).

The first byte of a character says how many follow it, and the more these are, the larger are the
first byte and the character. Where as many follow, the bytes write the number of the character in
base 64, the highest digit first.
-/

namespace Formula

-- Powers are those of the core library, whatever else is in scope.
attribute [local instance (20000)] instPowNat

/-- The bytes of a text, as numbers. -/
def bytes (s : String) : List Nat := s.toUTF8.data.toList.map UInt8.toNat

/-- The bytes of a character. -/
def charBytes (c : Char) : List Nat := (String.utf8EncodeChar c).map UInt8.toNat

theorem bytes_eq (s : String) : bytes s = s.toList.flatMap charBytes := by
  have hbytes : s.toUTF8.data.toList = s.toList.flatMap String.utf8EncodeChar := by
    conv_lhs => rw [← String.ofList_toList (s := s)]
    exact List.toList_data_toByteArray
  rw [bytes, hbytes, List.map_flatMap]
  rfl

/-! ## Bytes of a character -/

/-- How many bytes follow the first one of a character. -/
def followers (n : Nat) : Nat :=
  if n ≤ 0x7f then 0 else if n ≤ 0x7ff then 1 else if n ≤ 0xffff then 2 else 3

/-- What the first byte is above the highest digit. -/
def lead : Nat → Nat
  | 0 => 0
  | 1 => 0xc0
  | 2 => 0xe0
  | _ => 0xf0

/-- The last digits of a number in base 64, as bytes. -/
def digitBytes : Nat → Nat → List Nat
  | 0, _ => []
  | k + 1, n => (n / 64 ^ k % 64 + 0x80) :: digitBytes k n

theorem toNat_lt (c : Char) : c.toNat < 0x110000 := by
  rcases c.valid with h | h
  · exact Nat.lt_trans h (by decide)
  · exact h.2

theorem charBytes_eq (c : Char) : charBytes c =
    (c.toNat / 64 ^ followers c.toNat + lead (followers c.toNat)) ::
      digitBytes (followers c.toNat) c.toNat := by
  have hlt := toNat_lt c
  have hval : c.val.toNat = c.toNat := rfl
  simp only [charBytes, String.utf8EncodeChar, hval]
  generalize c.toNat = n at hlt ⊢
  unfold followers
  split_ifs <;> simp [digitBytes, lead] <;> omega

/-! ## Characters in order -/

/-- Lists whose heads are in order or equal are in order when equal heads leave tails in order. -/
theorem cons_lt_cons_of_le {a b : Nat} {xs ys : List Nat} (hle : a ≤ b) (h : a = b → xs < ys) :
    a :: xs < b :: ys := by
  rw [List.cons_lt_cons_iff]
  rcases Nat.lt_or_eq_of_le hle with hlt | heq
  · exact .inl hlt
  · exact .inr ⟨heq, h heq⟩

/-- The quotients of numbers in order are in order, and where they are equal the remainders are. -/
theorem div_le_and_mod_lt {m n : Nat} (h : m < n) (d : Nat) :
    m / d ≤ n / d ∧ (m / d = n / d → m % d < n % d) := by
  refine ⟨Nat.div_le_div_right (Nat.le_of_lt h), fun heq => ?_⟩
  have hm := Nat.div_add_mod m d
  have hn := Nat.div_add_mod n d
  rw [heq] at hm
  omega

/-- The highest digit in which two numbers differ decides. -/
theorem digitBytes_append_lt {k m n : Nat} (h : m % 64 ^ k < n % 64 ^ k) (xs ys : List Nat) :
    digitBytes k m ++ xs < digitBytes k n ++ ys := by
  induction k with
  | zero => simp [Nat.mod_one] at h
  | succ k ih =>
    have ⟨hdigit, hrest⟩ := div_le_and_mod_lt h (64 ^ k)
    rw [Nat.pow_succ, Nat.mod_mul_right_div_self, Nat.mod_mul_right_div_self,
      Nat.mod_mul_right_mod, Nat.mod_mul_right_mod] at hrest
    rw [Nat.pow_succ, Nat.mod_mul_right_div_self, Nat.mod_mul_right_div_self] at hdigit
    -- where the highest digits are equal, the digits below them are left
    exact cons_lt_cons_of_le (by omega) fun heq => ih (hrest (by omega))

/-- A character that more bytes follow has a larger first byte. -/
theorem first_lt_first {m n : Nat} (hn : n < 0x110000) (h : followers m < followers n) :
    m / 64 ^ followers m + lead (followers m) < n / 64 ^ followers n + lead (followers n) := by
  -- the first bytes are up to 127, from 194 to 223, from 224 to 239, and from 240 to 244
  unfold followers at h ⊢
  split_ifs at h ⊢ <;> simp only [lead] <;> omega

theorem followers_le_of_lt {m n : Nat} (h : m < n) : followers m ≤ followers n := by
  unfold followers
  split_ifs <;> omega

/-- Characters in order have bytes in order, whatever comes after them. -/
theorem charBytes_append_lt {c d : Char} (h : c < d) (xs ys : List Nat) :
    charBytes c ++ xs < charBytes d ++ ys := by
  have hlt : c.toNat < d.toNat := h
  rw [charBytes_eq, charBytes_eq]
  rcases Nat.lt_or_eq_of_le (followers_le_of_lt hlt) with hfewer | hsame
  · have hfirst := first_lt_first (toNat_lt d) hfewer
    exact cons_lt_cons_of_le (Nat.le_of_lt hfirst) fun heq => absurd heq (Nat.ne_of_lt hfirst)
  · rw [hsame]
    have ⟨hdigit, hrest⟩ := div_le_and_mod_lt hlt (64 ^ followers d.toNat)
    exact cons_lt_cons_of_le (by omega) fun heq => digitBytes_append_lt (hrest (by omega)) xs ys

/-! ## Texts in order -/

theorem flatMap_charBytes_lt {cs ds : List Char} (h : cs < ds) :
    cs.flatMap charBytes < ds.flatMap charBytes := by
  induction h with
  | @nil d ds =>
    rw [List.flatMap_nil, List.flatMap_cons, charBytes_eq]
    exact List.nil_lt_cons _ _
  | rel h => exact charBytes_append_lt h _ _
  | cons _ ih => exact List.append_left_lt ih

/-- Texts in order have bytes in order. -/
theorem bytes_strictMono : StrictMono bytes := fun s t h => by
  rw [bytes_eq, bytes_eq]
  exact flatMap_charBytes_lt h

/-- Strings are compared as their bytes are. -/
theorem stringOrder_compares_bytes (s t : String) :
    (stringOrder s t).Compares (bytes s) (bytes t) := by
  rw [bytes_strictMono.compares]
  unfold stringOrder
  split_ifs with hlt heq
  · exact hlt
  · exact heq
  · exact lt_of_le_of_ne (not_lt.1 hlt) (Ne.symm heq)

end Formula

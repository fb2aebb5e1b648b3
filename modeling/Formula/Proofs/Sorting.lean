import Formula.Proofs.Roles
import Mathlib.Data.List.TakeWhile

/-!
# Reading tokens

Classifying tokens and putting them into postfix order can be seen as one machine that reads
a token after the other (`Reads`). Its state is the role of the token before and the elements
on their way to postfix order.
-/

namespace Formula

open Role (expectsOperand)

namespace Sorting

/-- Frames of open calls when something has come in the innermost one. -/
def touched : List Frame → List Frame
  | [] => []
  | f :: fs => { f with pending := true } :: fs

@[simp] theorem touched_nil : touched [] = [] := rfl

@[simp] theorem touched_cons (f : Frame) (fs : List Frame) :
    touched (f :: fs) = ⟨f.ended, true⟩ :: fs := rfl

@[simp] theorem touched_touched (fs : List Frame) : touched (touched fs) = touched fs := by
  cases fs <;> rfl

/-- A token that is read marks that something has come in the innermost call. -/
theorem touch_eq (s : Sorting) : s.touch = ⟨s.output, s.waiting, touched s.calls⟩ := by
  rcases s with ⟨output, waiting, _ | ⟨f, fs⟩⟩ <;> rfl

/-- What is taken from the front does not reach into a rest that would stop it. -/
theorem takeWhile_append {p : Element → Bool} {w : List Element}
    (hstop : ∀ e, w.head? = some e → p e = false) (ops : List Element) :
    (ops ++ w).takeWhile p = ops.takeWhile p ∧ (ops ++ w).dropWhile p = ops.dropWhile p ++ w := by
  induction ops with
  | nil =>
    cases w with
    | nil => exact ⟨rfl, rfl⟩
    | cons e es => simp [hstop e rfl]
  | cons e ops ih =>
    cases he : p e with
    | true => simpa [he] using ih
    | false => simp [he]

/-- What is released is what satisfies `p`, up to the first waiting element that does not. -/
theorem release_eq {p : Element → Bool} {s : Sorting} {pend w : List Element}
    (hw : s.waiting = pend ++ w) (hpend : ∀ e ∈ pend, p e = true)
    (hstop : ∀ e, w.head? = some e → p e = false) :
    s.release p = ⟨pend.reverse ++ s.output, w, s.calls⟩ := by
  obtain ⟨htake, hdrop⟩ := takeWhile_append hstop pend
  rw [release, hw, htake, hdrop, List.takeWhile_eq_self_iff.2 hpend,
    List.dropWhile_eq_nil_iff.2 hpend, List.nil_append]

theorem yields_iff {r : Role} {e : Element} : yields r e = true ↔
    e.role.isParenthesis = false ∧ (r.precedence < e.role.precedence ∨
      e.role.precedence = r.precedence ∧ r.associativity = .left) := by
  simp [yields]

end Sorting

theorem Role.precedence_le (r : Role) : r.precedence ≤ 8 := by
  cases r with
  | arith op => cases op <;> decide
  | logic op => cases op <;> decide
  | _ => simp [precedence, noPrecedence]

namespace Token

variable {t : Token} {r : Role} {K M N : Level}

/-- Before a binary operator waits, everything that binds at least as tightly as its left
operand goes to the output. -/
theorem Binds.yields_iff (h : t.Binds r K M N) {e : Element} :
    Sorting.yields r e = true ↔
      e.role.isParenthesis = false ∧ K.rank ≤ e.role.precedence := by
  have hleft : ∀ {r' : Role}, r'.precedence = K.rank → r'.associativity = .left →
      (Sorting.yields r' e = true ↔
        e.role.isParenthesis = false ∧ K.rank ≤ e.role.precedence) := by
    intro r' hprec hassoc
    rw [Sorting.yields_iff, hprec, hassoc]
    refine and_congr_right fun _ => ⟨fun h => ?_, fun h => ?_⟩
    · rcases h with h | ⟨h, -⟩ <;> omega
    · rcases Int.lt_or_eq_of_le h with h | h
      · exact .inl h
      · exact .inr ⟨h.symm, rfl⟩
  cases h with
  | semicolon ht => exact hleft rfl rfl
  | operator ht hop =>
    obtain ⟨hprec, -, ⟨op, rfl⟩ | ⟨op, rfl⟩ | ⟨op, rfl⟩⟩ := Level.mem_operators hop
    · exact hleft hprec rfl
    · exact hleft hprec rfl
    · exact hleft hprec rfl
  | assign ht hop =>
    obtain ⟨op, rfl⟩ := Level.mem_assignments hop
    rw [Sorting.yields_iff]
    refine and_congr_right fun _ => ⟨fun h => ?_, fun h => .inl h⟩
    rcases h with h | ⟨-, h⟩
    · exact h
    · simp [Role.associativity] at h

/-- An operator in front of an operand lets everything wait. -/
theorem Signs.yields (h : t.Signs r) (e : Element) : Sorting.yields r e = false := by
  have hle := Role.precedence_le e.role
  have hr : r.precedence = 8 ∧ r.associativity = .right := by
    rcases Level.mem_signs h.2 with ⟨s, rfl⟩ | rfl <;> exact ⟨rfl, rfl⟩
  rw [← Bool.not_eq_true, Sorting.yields_iff, hr.1, hr.2]
  rintro ⟨-, h | ⟨-, h⟩⟩
  · omega
  · simp at h

/-- An operator between operands lets go of the operators that it yields to, and waits. -/
theorem Binds.step (h : t.Binds r K M N) (s : Sorting) (n : Nat) :
    s.step ⟨t, r, n⟩ = .ok ((s.touch.release (Sorting.yields r)).push ⟨t, r, n⟩) := by
  rcases h.role_eq with rfl | ⟨op, rfl⟩ | ⟨op, rfl⟩ | ⟨op, rfl⟩ | ⟨op, rfl⟩ <;> rfl

/-- An operator before an operand lets go of nothing, and waits. -/
theorem Signs.step (h : t.Signs r) (s : Sorting) (n : Nat) :
    s.step ⟨t, r, n⟩ = .ok (s.touch.push ⟨t, r, n⟩) := by
  have hrelease : s.touch.release (Sorting.yields r) = s.touch :=
    Sorting.release_eq (List.nil_append _).symm (by simp) fun e _ => h.yields e
  rcases Level.mem_signs h.2 with ⟨g, rfl⟩ | rfl <;>
    exact congrArg (fun s => Except.ok (Sorting.push _ s)) hrelease

theorem Binds.expectsOperand (h : t.Binds r K M N) :
    expectsOperand (some r) = true ∧ r ≠ .function ∧ r.isParenthesis = false := by
  rcases h.role_eq with rfl | ⟨op, rfl⟩ | ⟨op, rfl⟩ | ⟨op, rfl⟩ | ⟨op, rfl⟩ <;>
    exact ⟨rfl, by simp, rfl⟩

theorem Signs.expectsOperand (h : t.Signs r) :
    expectsOperand (some r) = true ∧ r ≠ .function ∧ r.isParenthesis = false := by
  rcases Level.mem_signs h.2 with ⟨s, rfl⟩ | rfl <;> exact ⟨rfl, by simp, rfl⟩

end Token

/-! ## The machine -/

/-- Reading tokens in front of `rest` leads from one state to another. -/
inductive Reads (rest : List Token) :
    Option Role → Sorting → List Token → Option Role → Sorting → Prop
  | nil {prior : Option Role} {s : Sorting} : Reads rest prior s [] prior s
  | cons {prior prior' : Option Role} {s s₁ s' : Sorting} {t : Token} {ts : List Token}
      {r : Role} (hr : t.Plays prior (ts ++ rest).head? r) (hs : s.step ⟨t, r, 0⟩ = .ok s₁) :
      Reads rest (some r) s₁ ts prior' s' → Reads rest prior s (t :: ts) prior' s'

/-- Runs of reading append. -/
theorem Reads.append {rest ts₁ ts₂ : List Token} {p p₁ p₂ : Option Role} {s s₁ s₂ : Sorting}
    (h₁ : Reads (ts₂ ++ rest) p s ts₁ p₁ s₁) (h₂ : Reads rest p₁ s₁ ts₂ p₂ s₂) :
    Reads rest p s (ts₁ ++ ts₂) p₂ s₂ := by
  induction h₁ with
  | nil => exact h₂
  | cons hr hs _ ih =>
    rw [← List.append_assoc] at hr
    exact .cons hr hs (ih h₂)

theorem Reads.single {rest : List Token} {p : Option Role} {s s₁ : Sorting} {t : Token} {r : Role}
    (hr : t.Plays p rest.head? r) (hs : s.step ⟨t, r, 0⟩ = .ok s₁) :
    Reads rest p s [t] (some r) s₁ :=
  .cons hr hs .nil

/-- The machine classifies tokens and puts their elements into postfix order. -/
theorem Reads.iff_classifyFrom {p : Option Role} {ts : List Token} {s s' : Sorting} :
    (∃ p', Reads [] p s ts p' s') ↔
      ∃ es, Element.classifyFrom p ts = .ok es ∧ es.foldlM Sorting.step s = .ok s' := by
  induction ts generalizing p s with
  | nil =>
    constructor
    · rintro ⟨p', h⟩
      cases h
      exact ⟨[], rfl, rfl⟩
    · rintro ⟨es, hes, h⟩
      obtain rfl := Except.ok.inj hes
      obtain rfl : s = s' := Except.ok.inj h
      exact ⟨p, .nil⟩
  | cons t ts ih =>
    rw [Element.classifyFrom]
    constructor
    · rintro ⟨p', h⟩
      cases h with
      | cons hr hs hts =>
        rename_i s₁ r
        rw [List.append_nil] at hr
        obtain ⟨es, hes, h⟩ := ih.1 ⟨_, hts⟩
        refine ⟨⟨t, r, 0⟩ :: es, ?_, ?_⟩
        · rw [Role.ofToken_eq_ok.2 hr]
          exact Except.map_eq_ok.2 ⟨es, hes, rfl⟩
        · rw [List.foldlM_cons, Except.bind_eq_ok]
          exact ⟨_, hs, h⟩
    · rintro ⟨es, hes, h⟩
      split at hes
      · simp at hes
      · rename_i r hr
        obtain ⟨es', hes', rfl⟩ := Except.map_eq_ok.1 hes
        rw [List.foldlM_cons, Except.bind_eq_ok] at h
        obtain ⟨s₁, hs, h⟩ := h
        obtain ⟨p', hts⟩ := ih.2 ⟨es', hes', h⟩
        exact ⟨p', .cons (by rw [List.append_nil]; exact Role.ofToken_eq_ok.1 hr) hs hts⟩

end Formula

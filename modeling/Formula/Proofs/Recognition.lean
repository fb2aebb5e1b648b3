import Formula.Proofs.Building
import Formula.Proofs.Reading

/-!
# What is read is derived

The machine also accepts tokens that the grammar does not derive : an operand may be missing
before a semicolon, a comma, a closing parenthesis or the end. Such a gap leaves the output one
tree short, and no other place makes up for it, since no part of the output comes to more than
the one tree that it should be (`Balanced`). If the elements reduce to exactly one tree, there is
no gap, and the tokens are derived (`parses_iff_derives`).

The invariant of the machine (`Sorting.Invariant`) lays out what was read as parentheses that
are open, one inside the other (`Nest`), and in each the operators that wait with their left
operands (`Open`). A text that compiles is derived as well (`Compiler.derives_of_build`), since
building takes its operands from the stack as reducing does.
-/

namespace Formula

open Role (expectsOperand)
open Sorting (touched)
open Element (totalWeight weight)

/-! ## Outputs that may have gaps -/

/-- The output for an operand of the level. It never comes to more than one tree, and if it comes
to one, the level derives the tokens and gives this output. -/
structure Balanced (L : Level) (ts : List Token) (out : List Element) : Prop where
  le : totalWeight out ≤ 1
  derives : totalWeight out = 1 → ∃ T, Derives L ts [T] ∧ T.elements = out

namespace Balanced

variable {K L M N : Level} {ts ls rs : List Token} {out o : List Element} {t : Token} {r : Role}

/-- A missing operand. -/
theorem missing (L : Level) : Balanced L [] [] := ⟨by simp, by simp⟩

theorem mono (h : Balanced L ts out) (hle : K.rank ≤ L.rank) : Balanced K ts out := by
  refine ⟨h.le, fun hone => ?_⟩
  obtain ⟨T, hT, hout⟩ := h.derives hone
  exact ⟨T, .lift hle hT, hout⟩

theorem of_derives {e : Element} (hd : Derives L ts [.node e []]) (he : e.arity? = some 0) :
    Balanced L ts [e] :=
  ⟨by simp [weight, he], fun _ => ⟨_, hd, rfl⟩⟩

theorem binary (ht : t.Binds r K M N) (hl : Balanced K ls out) (hr : Balanced M rs o) :
    Balanced N (ls ++ t :: rs) (out ++ o ++ [⟨t, r, 0⟩]) := by
  have hw : totalWeight (out ++ o ++ [⟨t, r, 0⟩]) = totalWeight out + totalWeight o - 1 := by
    simp [weight, ht.arity]
    omega
  have hlle := hl.le
  have hrle := hr.le
  refine ⟨by omega, fun hone => ?_⟩
  obtain ⟨A, hA, rfl⟩ := hl.derives (by omega)
  obtain ⟨B, hB, rfl⟩ := hr.derives (by omega)
  exact ⟨_, .binary ht hA hB, by simp [Tree.elements, Tree.allElements]⟩

theorem sign (ht : t.Signs r) (h : Balanced .signed ts out) :
    Balanced .signed (t :: ts) (out ++ [⟨t, r, 0⟩]) := by
  have hw : totalWeight (out ++ [⟨t, r, 0⟩]) = totalWeight out := by
    simp [weight, ht.arity]
  refine ⟨hw ▸ h.le, fun hone => ?_⟩
  obtain ⟨A, hA, rfl⟩ := h.derives (hw ▸ hone)
  exact ⟨_, .sign ht hA, by simp [Tree.elements, Tree.allElements]⟩

theorem group {p c : Token} (hp : p.kind = .leftParen) (hc : c.kind = .rightParen)
    (h : Balanced .sequence ts out) : Balanced .primary (p :: (ts ++ [c])) out := by
  refine ⟨h.le, fun hone => ?_⟩
  obtain ⟨T, hT, hout⟩ := h.derives hone
  exact ⟨T, .group hp hc hT, hout⟩

end Balanced

/-- Arguments of a call with a comma after each, and their output. -/
inductive Arguments : List Token → List Element → Nat → Prop
  | none : Arguments [] [] 0
  | more {as ts : List Token} {out o : List Element} {n : Nat} {c : Token}
      (has : Arguments as out n) (hts : Balanced .sequence ts o) (hc : c.kind = .comma) :
      Arguments (as ++ ts ++ [c]) (out ++ o) (n + 1)

/-- With the last argument, the output comes to no more trees than there are arguments. -/
theorem Arguments.last {as ts : List Token} {out o : List Element} {n : Nat}
    (has : Arguments as out n) (hts : Balanced .sequence ts o) :
    totalWeight (out ++ o) ≤ n + 1 ∧ (totalWeight (out ++ o) = n + 1 →
      ∃ Ts, Derives .arguments (as ++ ts) Ts ∧ Ts.length = n + 1 ∧
        Tree.allElements Ts = out ++ o) := by
  induction has generalizing ts o with
  | none =>
    refine ⟨hts.le, fun hone => ?_⟩
    obtain ⟨T, hT, rfl⟩ := hts.derives hone
    exact ⟨[T], .lift (by decide) hT, rfl, by simp⟩
  | @more as ts' out o' n c has hts' hc ih =>
    obtain ⟨hle, hderives⟩ := ih hts'
    have hle' := hts.le
    rw [Element.totalWeight_append]
    push_cast
    refine ⟨by omega, fun hone => ?_⟩
    obtain ⟨Ts, hTs, hlen, helems⟩ := hderives (by omega)
    obtain ⟨T, hT, rfl⟩ := hts.derives (by omega)
    refine ⟨Ts ++ [T], ?_, by simp [hlen], by simp [helems]⟩
    simpa using Derives.argument hc hTs hT

theorem Balanced.call {f p c : Token} {as ts : List Token} {out o : List Element} {n : Nat}
    (hf : f.IsName) (hp : p.kind = .leftParen) (hc : c.kind = .rightParen)
    (has : Arguments as out n) (hts : Balanced .sequence ts o) :
    Balanced .primary (f :: p :: (as ++ ts ++ [c])) (out ++ o ++ [⟨f, .function, n + 1⟩]) := by
  obtain ⟨hle, hderives⟩ := has.last hts
  have hw : totalWeight (out ++ o ++ [⟨f, .function, n + 1⟩]) = totalWeight (out ++ o) - n := by
    simp [weight, Element.arity?]
    omega
  refine ⟨by omega, fun hone => ?_⟩
  obtain ⟨Ts, hTs, hlen, helems⟩ := hderives (by omega)
  refine ⟨_, .call hf hp hc hTs, ?_⟩
  rw [Tree.elements, helems, hlen]

/-! ## Operators that wait -/

namespace Token

variable {t : Token} {r : Role} {K M N : Level}

theorem Binds.le_signed (h : t.Binds r K M N) :
    Level.sequence.rank ≤ N.rank ∧ K.rank ≤ Level.signed.rank ∧ M.rank ≤ Level.signed.rank := by
  cases h with
  | semicolon ht => decide
  | operator ht hop =>
    obtain ⟨hlt, hlt'⟩ := Level.rank_of_mem_operators hop
    exact ⟨Int.le_of_lt (Int.lt_trans (by decide) hlt), Int.le_of_lt hlt',
      Level.rank_next_le hlt'⟩
  | assign ht hop => decide

/-- An operator that waits on takes the one after it into its right operand. -/
theorem Binds.right_le {t' : Token} {r' : Role} {K' M' N' : Level} (h : t.Binds r K M N)
    (h' : t'.Binds r' K' M' N') (hlt : N.rank < K'.rank) : M.rank ≤ N'.rank := by
  cases h' with
  | semicolon ht => exact absurd h.le_signed.1 (Int.not_le.2 hlt)
  | operator ht' hop' =>
    have hgt := (Level.rank_of_mem_operators hop').1
    cases h with
    | semicolon ht => exact Int.le_of_lt hgt
    | operator ht hop => exact Level.rank_next_le hlt
    | assign ht hop => exact Int.le_of_lt hgt
  | assign ht' hop' =>
    cases h with
    | semicolon ht => decide
    | operator ht hop =>
      exact absurd hlt (Int.not_lt.2 (Int.add_one_le_of_lt (Level.rank_of_mem_operators hop).1))
    | assign ht hop => decide

end Token

/-- Tokens up to an operator that waits for its operand, their output, the operators that wait,
the last first, and the level of the operand. -/
inductive Open : List Token → List Element → List Element → Level → Prop
  | start : Open [] [] [] .sequence
  | binary {ts ls : List Token} {out o ops : List Element} {t : Token} {r : Role}
      {J K M N : Level} (hts : Open ts out ops J) (hls : Balanced K ls o)
      (ht : t.Binds r K M N) (hle : J.rank ≤ N.rank) :
      Open (ts ++ ls ++ [t]) (out ++ o) (⟨t, r, 0⟩ :: ops) M
  | sign {ts : List Token} {out ops : List Element} {t : Token} {r : Role} {J : Level}
      (hts : Open ts out ops J) (ht : t.Signs r) :
      Open (ts ++ [t]) out (⟨t, r, 0⟩ :: ops) .signed

namespace Open

variable {ts cur : List Token} {out o ops : List Element} {J K L M N : Level}

theorem rank_le (h : Open ts out ops J) : J.rank ≤ Level.signed.rank := by
  cases h with
  | start => decide
  | binary hts hls ht hle => exact ht.le_signed.2.2
  | sign hts ht => exact Int.le_refl _

theorem isParenthesis (h : Open ts out ops J) : ∀ e ∈ ops, e.role.isParenthesis = false := by
  induction h with
  | start => simp
  | binary hts hls ht hle ih => exact List.forall_mem_cons.2 ⟨ht.expectsOperand.2.2, ih⟩
  | sign hts ht ih => exact List.forall_mem_cons.2 ⟨ht.expectsOperand.2.2, ih⟩

/-- At the end all operators go to the output. -/
theorem close (h : Open ts out ops J) (hcur : Balanced L cur o) (hle : J.rank ≤ L.rank) :
    Balanced .sequence (ts ++ cur) (out ++ o ++ ops) := by
  induction h generalizing L cur o with
  | start => simpa using hcur.mono hle
  | binary hts hls ht hle' ih =>
    simpa using ih (.binary ht hls (hcur.mono hle)) hle'
  | sign hts ht ih =>
    simpa using ih (.sign ht (hcur.mono hle)) hts.rank_le

/-- Before an operator waits, those that bind more tightly go to the output, and what they
have come to is its left operand. -/
theorem release {t : Token} {r : Role} (ht : t.Binds r K M N) (h : Open ts out ops J)
    (hcur : Balanced L cur o) (hle : J.rank ≤ L.rank) (hK : K.rank ≤ L.rank) :
    ∃ ts₁ cur₁ out₁ o₁ J₁, Open ts₁ out₁ (ops.dropWhile (Sorting.yields r)) J₁ ∧
      Balanced K cur₁ o₁ ∧ J₁.rank ≤ N.rank ∧ ts ++ cur = ts₁ ++ cur₁ ∧
        out ++ o ++ ops.takeWhile (Sorting.yields r) = out₁ ++ o₁ := by
  induction h generalizing L cur o with
  | start =>
    exact ⟨[], cur, [], o, .sequence, .start, hcur.mono hK, ht.le_signed.1, rfl, by simp⟩
  | @binary ts ls out o' ops t' r' J K' M' N' hts hls ht' hle' ih =>
    cases hyields : Sorting.yields r ⟨t', r', 0⟩ with
    | true =>
      -- the operator takes its operand, and those below are looked at
      have hN := (ht.yields_iff.1 hyields).2
      obtain ⟨ts₁, cur₁, out₁, o₁, J₁, hopen, hcur₁, hJ₁, hts₁, hout₁⟩ :=
        ih (.binary ht' hls (hcur.mono hle)) hle' (ht'.precedence_eq ▸ hN)
      refine ⟨ts₁, cur₁, out₁, o₁, J₁, ?_, hcur₁, hJ₁, ?_, ?_⟩
      · rwa [List.dropWhile_cons_of_pos hyields]
      · simpa using hts₁
      · rw [List.takeWhile_cons_of_pos hyields]
        simpa using hout₁
    | false =>
      -- the operator binds more loosely and stays, with all below it
      have hlt : N'.rank < K.rank := by
        rw [← Bool.not_eq_true, ht.yields_iff, ← ht'.precedence_eq] at *
        exact Int.not_le.1 fun hK' => hyields ⟨ht'.expectsOperand.2.2, hK'⟩
      refine ⟨ts ++ ls ++ [t'], cur, out ++ o', o, M', ?_, hcur.mono hK, ht'.right_le ht hlt,
        rfl, ?_⟩
      · rw [List.dropWhile_cons_of_neg (by simp [hyields])]
        exact .binary hts hls ht' hle'
      · rw [List.takeWhile_cons_of_neg (by simp [hyields])]
        simp
  | @sign ts out ops t' r' J hts ht' ih =>
    have hyields : Sorting.yields r ⟨t', r', 0⟩ = true := by
      refine ht.yields_iff.2 ⟨ht'.expectsOperand.2.2, ?_⟩
      have hK' := ht.le_signed.2.1
      rcases Level.mem_signs ht'.2 with ⟨g, rfl⟩ | rfl <;> exact hK'
    obtain ⟨ts₁, cur₁, out₁, o₁, J₁, hopen, hcur₁, hJ₁, hts₁, hout₁⟩ :=
      ih (.sign ht' (hcur.mono hle)) hts.rank_le ht.le_signed.2.1
    refine ⟨ts₁, cur₁, out₁, o₁, J₁, ?_, hcur₁, hJ₁, ?_, ?_⟩
    · rwa [List.dropWhile_cons_of_pos hyields]
    · simpa using hts₁
    · rw [List.takeWhile_cons_of_pos hyields]
      simpa using hout₁

end Open

/-! ## Parentheses that are open -/

namespace Sorting

/-- The state after elements that went to the output since, and others that wait. -/
def after (s : Sorting) (out ops : List Element) : Sorting :=
  ⟨out.reverse ++ s.output, ops ++ s.waiting, touched s.calls⟩

theorem touch_eq_after (s : Sorting) : s.touch = s.after [] [] := by
  rw [touch_eq]
  rfl

@[simp] theorem touch_after (s : Sorting) (out ops : List Element) :
    (s.after out ops).touch = s.after out ops := by
  simp [touch_eq, after]

@[simp] theorem push_after (s : Sorting) (out ops : List Element) (e : Element) :
    push e (s.after out ops) = s.after out (e :: ops) := rfl

@[simp] theorem emit_after (s : Sorting) (out ops : List Element) (e : Element) :
    emit e (s.after out ops) = s.after (out ++ [e]) ops := by
  simp [emit, after]

@[simp] theorem after_after (s : Sorting) (out ops out' ops' : List Element) :
    (s.after out ops).after out' ops' = s.after (out ++ out') (ops' ++ ops) := by
  simp [after]

theorem release_after {p : Element → Bool} {s : Sorting}
    (hstop : ∀ e, s.waiting.head? = some e → p e = false) (out ops : List Element) :
    release p (s.after out ops) = s.after (out ++ ops.takeWhile p) (ops.dropWhile p) := by
  obtain ⟨htake, hdrop⟩ := takeWhile_append hstop ops
  rw [release, after, htake, hdrop]
  simp [after]

end Sorting

/-- Tokens that end with an open parenthesis, or with a comma in one, and the state after
them. -/
inductive Nest : List Token → Sorting → Prop
  | top : Nest [] .empty
  | group {nts ts : List Token} {s : Sorting} {out ops : List Element} {J : Level} {t : Token}
      (hn : Nest nts s) (ho : Open ts out ops J) (ht : t.kind = .leftParen) :
      Nest (nts ++ ts ++ [t]) (s.after out (⟨t, .groupOpen, 0⟩ :: ops))
  | call {nts ts as : List Token} {s : Sorting} {out ops aout : List Element} {J : Level}
      {f t : Token} {n : Nat} (hn : Nest nts s) (ho : Open ts out ops J) (hf : f.IsName)
      (ht : t.kind = .leftParen) (has : Arguments as aout n) :
      Nest (nts ++ ts ++ f :: t :: as)
        ⟨(out ++ aout).reverse ++ s.output,
          ⟨t, .callOpen, 0⟩ :: ⟨f, .function, 0⟩ :: (ops ++ s.waiting),
          ⟨n, false⟩ :: touched s.calls⟩

theorem Nest.head {ts : List Token} {s : Sorting} (h : Nest ts s) :
    ∀ e, s.waiting.head? = some e → e.role.isParenthesis = true := by
  cases h with
  | top => simp [Sorting.empty]
  | group hn ho ht => simp [Sorting.after, Role.isParenthesis]
  | call hn ho hf ht has => simp [Role.isParenthesis]

/-- Tokens after which an operand has to come, and the state after them. -/
inductive Waits : List Token → Sorting → Prop
  | intro {nts ts : List Token} {s : Sorting} {out ops : List Element} {J : Level}
      (hn : Nest nts s) (ho : Open ts out ops J) : Waits (nts ++ ts) (s.after out ops)

/-- Tokens that end with an operand, which may be missing, and the state after them. -/
inductive Filled : List Token → Sorting → Prop
  | intro {nts ts cur : List Token} {s : Sorting} {out ops o : List Element} {J : Level}
      (hn : Nest nts s) (ho : Open ts out ops J) (hcur : Balanced .primary cur o) :
      Filled (nts ++ ts ++ cur) (s.after (out ++ o) ops)

theorem Nest.waits {ts : List Token} {s : Sorting} (h : Nest ts s) : Waits ts s.touch := by
  simpa [Sorting.touch_eq_after] using Waits.intro h .start

namespace Waits

variable {ts : List Token} {s : Sorting} {t : Token} {r : Role}

theorem touch (h : Waits ts s) : s.touch = s := by
  cases h with
  | intro hn ho => exact Sorting.touch_after ..

/-- The operand is missing. -/
theorem filled (h : Waits ts s) : Filled ts s := by
  cases h with
  | intro hn ho => simpa using Filled.intro hn ho (.missing .primary)

theorem value {e : Element} (h : Waits ts s) (ht : Balanced .primary [t] [e]) :
    Filled (ts ++ [t]) (s.emit e) := by
  cases h with
  | intro hn ho => simpa using Filled.intro hn ho ht

theorem sign (h : Waits ts s) (ht : t.Signs r) : Waits (ts ++ [t]) (s.push ⟨t, r, 0⟩) := by
  cases h with
  | intro hn ho => simpa using Waits.intro hn (ho.sign ht)

theorem group (h : Waits ts s) (ht : t.kind = .leftParen) :
    Nest (ts ++ [t]) (s.push ⟨t, .groupOpen, 0⟩) := by
  cases h with
  | intro hn ho => exact .group hn ho ht

end Waits

namespace Filled

variable {ts : List Token} {s s₁ : Sorting} {t : Token} {r : Role} {K M N : Level}

theorem binary (h : Filled ts s) (ht : t.Binds r K M N) :
    Waits (ts ++ [t]) ((s.release (Sorting.yields r)).push ⟨t, r, 0⟩) := by
  cases h with
  | @intro nts ts cur s out ops o J hn ho hcur =>
    obtain ⟨ts₁, cur₁, out₁, o₁, J₁, ho₁, hcur₁, hle, hts, hout⟩ :=
      ho.release ht hcur (Level.rank_le_primary J) (Level.rank_le_primary K)
    have hstop : ∀ e, s.waiting.head? = some e → Sorting.yields r e = false :=
      fun e he => by simp [Sorting.yields, hn.head e he]
    rw [Sorting.release_after hstop, hout, List.append_assoc nts, hts, Sorting.push_after]
    simpa using Waits.intro hn (.binary ho₁ hcur₁ ht hle)

/-- At the end of a parenthesis all that waits in it goes to the output. -/
theorem release_inside (h : Filled ts s) : ∃ nts cur s₀ o, Nest nts s₀ ∧
    Balanced .sequence cur o ∧ ts = nts ++ cur ∧ s.release Sorting.inside = s₀.after o [] := by
  cases h with
  | @intro nts ts cur s out ops o J hn ho hcur =>
    have hstop : ∀ e, s.waiting.head? = some e → Sorting.inside e = false :=
      fun e he => by simp [Sorting.inside, hn.head e he]
    have hops : ∀ e ∈ ops, Sorting.inside e = true :=
      fun e he => by simp [Sorting.inside, ho.isParenthesis e he]
    refine ⟨nts, ts ++ cur, s, out ++ o ++ ops, hn, ho.close hcur (Level.rank_le_primary J),
      by simp, ?_⟩
    rw [Sorting.release_after hstop, List.takeWhile_eq_self_iff.2 hops,
      List.dropWhile_eq_nil_iff.2 hops]

theorem comma (h : Filled ts s) (ht : t.kind = .comma)
    (hs : s.comma ⟨t, .comma, 0⟩ = .ok s₁) : Nest (ts ++ [t]) s₁ := by
  obtain ⟨nts, cur, s₀, o, hn, hcur, rfl, hrelease⟩ := h.release_inside
  simp only [Sorting.comma, hrelease] at hs
  cases hn with
  | top => simp [Sorting.after, Sorting.empty] at hs
  | @group _ _ s₁ _ _ _ _ hn ho ht' =>
    cases hcalls : touched s₁.calls <;> simp [Sorting.after, hcalls] at hs
  | call hn ho hf ht' has =>
    obtain rfl : _ = s₁ := by simpa [Sorting.after] using hs
    simpa using Nest.call hn ho hf ht' (has.more hcur ht)

theorem close (h : Filled ts s) (ht : t.kind = .rightParen)
    (hs : s.close ⟨t, .close, 0⟩ = .ok s₁) : Filled (ts ++ [t]) s₁ := by
  obtain ⟨nts, cur, s₀, o, hn, hcur, rfl, hrelease⟩ := h.release_inside
  simp only [Sorting.close, hrelease] at hs
  cases hn with
  | top => simp [Sorting.after, Sorting.empty] at hs
  | group hn ho ht' =>
    obtain rfl : _ = s₁ := by simpa [Sorting.after] using hs
    simpa [Sorting.after] using Filled.intro hn ho (hcur.group ht' ht)
  | call hn ho hf ht' has =>
    obtain rfl : _ = s₁ := by simpa [Sorting.after, Sorting.closeCall] using hs
    simpa [Sorting.after] using Filled.intro hn ho (.call hf ht' ht has hcur)

theorem finish {out : List Element} (h : Filled ts s) (hs : s.finish = .ok out) :
    Balanced .sequence ts out := by
  obtain ⟨nts, cur, s₀, o, hn, hcur, rfl, hrelease⟩ := h.release_inside
  simp only [Sorting.finish, hrelease] at hs
  cases hn with
  | top =>
    obtain rfl : o = out := by simpa [Sorting.after, Sorting.empty] using hs
    simpa using hcur
  | group hn ho ht => simp [Sorting.after] at hs
  | call hn ho hf ht has => simp [Sorting.after] at hs

end Filled

/-- Nothing has come yet in the innermost parenthesis. -/
theorem Nest.close {ts : List Token} {s s₁ : Sorting} {t : Token} (h : Nest ts s)
    (ht : t.kind = .rightParen) (hs : s.close ⟨t, .close, 0⟩ = .ok s₁) : Filled (ts ++ [t]) s₁ := by
  cases h with
  | top => simp [Sorting.close, Sorting.release, Sorting.empty] at hs
  | @group nts ts s out ops J p hn ho hp =>
    have hfilled : Filled (nts ++ ts ++ [p]) (s.after out (⟨p, .groupOpen, 0⟩ :: ops)) := by
      simpa [Sorting.touch_eq_after] using (Nest.group hn ho hp).waits.filled
    exact hfilled.close ht hs
  | @call nts ts as s out ops aout J f p n hn ho hf hp has =>
    cases has with
    | none =>
      obtain rfl : _ = s₁ := by
        simpa [Sorting.close, Sorting.closeCall, Sorting.release, Sorting.inside,
          Role.isParenthesis] using hs
      simpa [Sorting.after] using Filled.intro hn ho (.of_derives (.bare hf hp ht) rfl)
    | more has hts hc =>
      simp [Sorting.close, Sorting.closeCall, Sorting.release, Sorting.inside,
        Role.isParenthesis] at hs

theorem Nest.not_comma {ts : List Token} {s s₁ : Sorting} {t : Token} (h : Nest ts s) :
    s.comma ⟨t, .comma, 0⟩ ≠ .ok s₁ := by
  intro hs
  cases h with
  | top => simp [Sorting.comma, Sorting.release, Sorting.empty] at hs
  | @group _ _ s₁ _ _ _ _ hn ho ht' =>
    cases hcalls : touched s₁.calls <;>
      simp [Sorting.comma, Sorting.after, Sorting.release, Sorting.inside, Role.isParenthesis,
        hcalls] at hs
  | call hn ho hf ht has =>
    simp [Sorting.comma, Sorting.release, Sorting.inside, Role.isParenthesis] at hs

/-! ## The invariant -/

/-- What the state says of the tokens that were read, before the token `next`. -/
inductive Sorting.Invariant (next : Option Token) : Option Role → List Token → Sorting → Prop
  /-- Nothing has come in the innermost parenthesis. -/
  | start {p : Option Role} {ts : List Token} {s : Sorting} (hp : expectsOperand p = true)
      (hf : p ≠ some .function) (hn : Nest ts s) : Invariant next p ts s
  | waits {p : Option Role} {ts : List Token} {s : Sorting} (hp : expectsOperand p = true)
      (hf : p ≠ some .function) (hw : Waits ts s) : Invariant next p ts s
  | filled {p : Option Role} {ts : List Token} {s : Sorting} (hp : expectsOperand p = false)
      (hs : Filled ts s) : Invariant next p ts s
  /-- The name of a function has come, and the parenthesis is next. -/
  | called {ts : List Token} {s : Sorting} {f : Token} (hw : Waits ts s) (hf : f.IsName)
      (hn : Token.opens next = true) :
      Invariant next (some .function) (ts ++ [f]) (s.push ⟨f, .function, 0⟩)

namespace Sorting.Invariant

variable {p : Option Role} {ts : List Token} {s s₁ : Sorting} {t : Token} {next : Option Token}
  {r : Role}

theorem ne_function (h : Invariant next p ts s) (hn : Token.opens next = false) :
    p ≠ some .function := by
  cases h with
  | start hp hf hn => exact hf
  | waits hp hf hw => exact hf
  | filled hp hs =>
    rintro rfl
    exact absurd hp (by decide)
  | called hw hf hn' => simp [hn] at hn'

/-- Where an operand is expected, one has to come. -/
theorem touch_waits (h : Invariant next p ts s) (hp : expectsOperand p = true)
    (hf : p ≠ some .function) : Waits ts s.touch := by
  cases h with
  | start hp hf hn => exact hn.waits
  | waits hp hf hw => exact hw.touch.symm ▸ hw
  | filled hp' hs => simp [hp] at hp'
  | called hw hf hn' => exact absurd rfl hf

/-- A gap counts as an operand. -/
theorem touch_filled (h : Invariant next p ts s) (hf : p ≠ some .function) :
    Filled ts s.touch := by
  cases hp : expectsOperand p with
  | true => exact (h.touch_waits hp hf).filled
  | false =>
    cases h with
    | start hp' hf hn => simp [hp] at hp'
    | waits hp' hf hw => simp [hp] at hp'
    | filled hp' hs =>
      cases hs with
      | intro hn ho hcur => simpa using Filled.intro hn ho hcur
    | called hw hf' hn' => exact absurd rfl hf

/-- Reading one token keeps the invariant. -/
theorem step (h : Invariant (some t) p ts s) (hr : t.Plays p next r)
    (hs : s.step ⟨t, r, 0⟩ = .ok s₁) : Invariant next (some r) (ts ++ [t]) s₁ := by
  have hne : t.kind ≠ .leftParen → p ≠ some .function :=
    fun hk => h.ne_function (Token.opens_of_kind hk)
  cases hr with
  | @literal k ht hp =>
    obtain rfl := Except.ok.inj hs
    exact .filled rfl ((h.touch_waits hp (hne ht.kind_ne)).value (.of_derives (.literal ht) rfl))
  | name ht hp hn =>
    obtain rfl := Except.ok.inj hs
    have hk : t.kind ≠ .leftParen := by simp [ht.1]
    exact .filled rfl ((h.touch_waits hp (hne hk)).value (.of_derives (.name ht) rfl))
  | function ht hp hn =>
    obtain rfl := Except.ok.inj hs
    have hk : t.kind ≠ .leftParen := by simp [ht.1]
    exact .called (h.touch_waits hp (hne hk)) ht hn
  | group ht hp hf =>
    obtain rfl := Except.ok.inj hs
    exact .start rfl (by simp) ((h.touch_waits hp hf).group ht)
  | arguments ht hf =>
    obtain rfl := Except.ok.inj hs
    subst hf
    cases h with
    | start hp hf hn => exact absurd rfl hf
    | waits hp hf hw => exact absurd rfl hf
    | filled hp hfill => exact absurd hp (by decide)
    | called hw hf hn =>
      cases hw with
      | intro hn ho =>
        refine .start rfl (by simp) ?_
        simpa [Sorting.after, Sorting.push] using Nest.call hn ho hf ht .none
  | close ht =>
    refine .filled rfl ?_
    cases h with
    | start hp hf hn => exact hn.close ht hs
    | waits hp hf hw => exact hw.filled.close ht hs
    | filled hp hfill => exact hfill.close ht hs
    | called hw hf hn => exact absurd rfl (hne (by simp [ht]))
  | comma ht =>
    refine .start rfl (by simp) ?_
    cases h with
    | start hp hf hn => exact absurd hs hn.not_comma
    | waits hp hf hw => exact hw.filled.comma ht hs
    | filled hp hfill => exact hfill.comma ht hs
    | called hw hf hn => exact absurd rfl (hne (by simp [ht]))
  | binary ht hp =>
    rw [ht.step] at hs
    obtain rfl := Except.ok.inj hs
    obtain ⟨hr, hrf, -⟩ := ht.expectsOperand
    exact .waits hr (by simpa using hrf) ((h.touch_filled (hne ht.kind_ne)).binary ht)
  | sign ht hp =>
    rw [ht.step] at hs
    obtain rfl := Except.ok.inj hs
    have hk : t.kind ≠ .leftParen := by simp [ht.1]
    obtain ⟨hr, hrf, -⟩ := ht.expectsOperand
    exact .waits hr (by simpa using hrf) ((h.touch_waits hp (hne hk)).sign ht)

/-- Reading tokens keeps the invariant. -/
theorem reads {ts' : List Token} {p' : Option Role} {s' : Sorting}
    (h : Invariant ts'.head? p ts s) (hreads : Reads [] p s ts' p' s') :
    Invariant none p' (ts ++ ts') s' := by
  induction ts' generalizing p ts s with
  | nil =>
    cases hreads
    simpa using h
  | cons t ts' ih =>
    cases hreads with
    | cons hr hs hreads =>
      rw [List.append_nil] at hr
      simpa using ih (h.step hr hs) hreads

theorem finish {out : List Element} (h : Invariant none p ts s) (hs : s.finish = .ok out) :
    Balanced .sequence ts out := by
  have hfinish : s.touch.finish = s.finish := by
    rw [Sorting.touch_eq]
    rfl
  exact (h.touch_filled (h.ne_function rfl)).finish (hfinish.trans hs)

end Sorting.Invariant

/-- What is read comes to at most one tree, and if it comes to one, the grammar derives it. -/
theorem Balanced.of_toPostfix {ts : List Token} {es out : List Element}
    (hes : Element.classify ts = .ok es) (hout : Element.toPostfix es = .ok out) :
    Balanced .sequence ts out := by
  rw [Element.toPostfix] at hout
  split at hout
  · simp at hout
  · rename_i s hs
    obtain ⟨p, hreads⟩ := Reads.iff_classifyFrom.2 ⟨es, hes, hs⟩
    have hstart : Sorting.Invariant ts.head? none [] .empty := .start rfl (by simp) .top
    exact (hstart.reads hreads).finish hout

/-- Tokens whose postfix order reduces to one tree are derived by the grammar, with that tree. -/
theorem derives_of_reduce {ts : List Token} {es out : List Element} {T : Tree}
    (hes : Element.classify ts = .ok es) (hout : Element.toPostfix es = .ok out)
    (hT : Element.reduce out = some [T]) : Derives .sequence ts [T] := by
  have hweight : totalWeight out = 1 := by
    have hlen := Element.length_of_foldlM hT
    simp only [List.length_cons, List.length_nil] at hlen
    omega
  obtain ⟨T', hT', rfl⟩ := (Balanced.of_toPostfix hes hout).derives hweight
  obtain rfl : T' = T := by simpa [hT'.reduce] using hT
  exact hT'

/-- Tokens can be put into a postfix order that reduces to one tree exactly when the grammar
derives them, and the tree is the derived one. -/
theorem parses_iff_derives {ts : List Token} {T : Tree} :
    (∃ es out, Element.classify ts = .ok es ∧ Element.toPostfix es = .ok out ∧
      Element.reduce out = some [T]) ↔ Derives .sequence ts [T] := by
  constructor
  · rintro ⟨es, out, hes, hout, hT⟩
    exact derives_of_reduce hes hout hT
  · intro h
    obtain ⟨es, hes, hout⟩ := h.toPostfix
    exact ⟨es, T.elements, hes, hout, h.reduce⟩

/-- The grammar derives the tokens of a text that compiles. -/
theorem Compiler.derives_of_build {c : Compiler} {source : String} {scope : Scope} {root : Node}
    (h : c.build source scope = .ok root) :
    ∃ ts T, Token.scan source = .ok ts ∧ Derives .sequence ts [T] := by
  obtain ⟨out, hout, h⟩ := Except.bind_eq_ok.1 h
  obtain ⟨root', hroot, -⟩ := Except.bind_eq_ok.1 h
  obtain ⟨T, hT, -⟩ := Node.reduces_of_ofPostfix (Q := fun _ _ => True)
    (fun _ _ _ _ _ _ _ => trivial) hroot
  obtain ⟨ts, hts, hout⟩ := Except.bind_eq_ok.1 hout
  obtain ⟨es, hes, hout⟩ := Except.bind_eq_ok.1 hout
  exact ⟨ts, T, hts, derives_of_reduce hes hout hT⟩

end Formula

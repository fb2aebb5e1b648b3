import Formula.Proofs.Sorting

/-!
# Derived tokens are read

The machine reads whatever the grammar derives. When it has read the tokens of an operand, some
of the operators in it may still wait, but nothing that was waiting before has moved, and the
output together with those operators is the derived tree in postfix order (`Derives.reads`). The
operators that wait bind as tightly as the level of the operand, so that the next operator, or
a parenthesis or a comma, puts them to the output.
-/

namespace Formula

open Role (expectsOperand)
open Sorting (touched)

namespace Token

variable {t : Token} {r : Role} {K M N : Level}

theorem Binds.precedence_eq (h : t.Binds r K M N) : r.precedence = N.rank := by
  cases h with
  | semicolon ht => rfl
  | operator ht hop => exact (Level.mem_operators hop).1
  | assign ht hop =>
    obtain ⟨op, rfl⟩ := Level.mem_assignments hop
    rfl

theorem Binds.rank_le (h : t.Binds r K M N) : N.rank ≤ K.rank ∧ N.rank ≤ M.rank := by
  cases h with
  | semicolon ht => decide
  | operator ht hop => exact ⟨Int.le_refl _, Level.rank_le_rank_next _⟩
  | assign ht hop => decide

theorem Binds.rank_lt (h : t.Binds r K M N) : N.rank < Level.signed.rank := by
  cases h with
  | semicolon ht => decide
  | operator ht hop => exact (Level.rank_of_mem_operators hop).2
  | assign ht hop => decide

/-- What stands right of a binary operator does not take what stands left of it. -/
theorem Binds.precedence_lt {t' : Token} {r' : Role} {K' M' N' : Level} (h : t.Binds r K M N)
    (h' : t'.Binds r' K' M' N') (hle : M.rank ≤ N'.rank) : r.precedence < K'.rank := by
  have hN := h'.rank_le.1
  cases h with
  | semicolon ht => exact Int.lt_of_lt_of_le (by decide) (Int.le_trans hle hN)
  | operator ht hop =>
    exact Int.lt_of_lt_of_le (Level.mem_operators hop).2.1 (Int.le_trans hle hN)
  | assign ht hop =>
    obtain ⟨op, rfl⟩ := Level.mem_assignments hop
    cases h' with
    | semicolon ht => exact absurd hle (by decide)
    | operator ht hop => exact (Level.rank_of_mem_operators hop).1
    | assign ht hop => simp [Role.precedence, Level.rank]

end Token

/-- No operator between operands of the level puts the topmost waiting element to the
output. -/
def Level.Stops (L : Level) (w : List Element) : Prop :=
  ∀ e, w.head? = some e → ∀ t r K M N, Token.Binds t r K M N → L.rank ≤ N.rank →
    Sorting.yields r e = false

namespace Level.Stops

variable {L K M N : Level} {w : List Element} {t : Token} {r : Role}

theorem nil : Stops L [] := by
  intro e he
  simp at he

theorem mono (h : Stops K w) (hle : K.rank ≤ L.rank) : Stops L w :=
  fun e he t r K M N hb hN => h e he t r K M N hb (Int.le_trans hle hN)

theorem parenthesis {e : Element} (he : e.role.isParenthesis = true) : Stops L (e :: w) := by
  rintro e' he' t r K M N hb -
  obtain rfl : e = e' := by simpa using he'
  simp [Sorting.yields, he]

theorem binary (h : t.Binds r K M N) : Stops M (⟨t, r, 0⟩ :: w) := by
  intro e he t' r' K' M' N' hb hle
  obtain rfl : ⟨t, r, 0⟩ = e := by simpa using he
  rw [← Bool.not_eq_true, hb.yields_iff]
  exact fun ⟨_, hK⟩ => absurd (h.precedence_lt hb hle) (Int.not_lt.2 hK)

theorem signed : Stops .signed w :=
  fun _ _ _ _ _ _ _ hb hle => absurd hb.rank_lt (Int.not_lt.2 hle)

end Level.Stops

/-- Reading the tokens of an operand of a level. -/
def ReadsOperand (L : Level) (ts : List Token) (T : Tree) : Prop :=
  ∀ (rest : List Token) (p : Option Role) (s : Sorting), expectsOperand p = true →
    p ≠ some .function → Token.opens rest.head? = false → L.Stops s.waiting →
      ∃ p' pend out, Reads rest p s ts p' ⟨out, pend ++ s.waiting, touched s.calls⟩ ∧
        expectsOperand p' = false ∧
          (∀ e ∈ pend, e.role.isParenthesis = false ∧ L.rank ≤ e.role.precedence) ∧
            pend.reverse ++ out = T.elements.reverse ++ s.output

/-- Reading the tokens between the parentheses of a call. -/
def ReadsArguments (ts : List Token) (Ts : List Tree) : Prop :=
  ∀ (rest : List Token) (p : Option Role) (output : List Element) (o : Element)
    (w : List Element) (fs : List Frame), expectsOperand p = true → p ≠ some .function →
    Token.opens rest.head? = false → o.role = .callOpen →
      ∃ p' pend out n, Reads rest p ⟨output, o :: w, ⟨0, false⟩ :: fs⟩ ts p'
          ⟨out, pend ++ o :: w, ⟨n, true⟩ :: fs⟩ ∧
        Ts.length = n + 1 ∧ expectsOperand p' = false ∧
          (∀ e ∈ pend, e.role.isParenthesis = false) ∧
            pend.reverse ++ out = (Tree.allElements Ts).reverse ++ output

theorem ReadsOperand.mono {K L : Level} {ts : List Token} {T : Tree} (h : ReadsOperand L ts T)
    (hle : K.rank ≤ L.rank) : ReadsOperand K ts T := by
  intro rest p s hp hf hrest hstops
  obtain ⟨p', pend, out, hreads, hp', hpend, hout⟩ := h rest p s hp hf hrest (hstops.mono hle)
  exact ⟨p', pend, out, hreads, hp',
    fun e he => ⟨(hpend e he).1, Int.le_trans hle (hpend e he).2⟩, hout⟩

/-- A single argument. -/
theorem ReadsOperand.arguments {L : Level} {ts : List Token} {T : Tree}
    (h : ReadsOperand L ts T) : ReadsArguments ts [T] := by
  intro rest p output o w fs hp hf hrest ho
  obtain ⟨p', pend, out, hreads, hp', hpend, hout⟩ :=
    h rest p ⟨output, o :: w, ⟨0, false⟩ :: fs⟩ hp hf hrest
      (.parenthesis (by rw [ho]; rfl))
  refine ⟨p', pend, out, 0, hreads, rfl, hp', fun e he => (hpend e he).1, ?_⟩
  rw [Tree.allElements_singleton]
  exact hout

theorem Token.IsLiteral.kind_ne {t : Token} {k : LiteralKind} (h : t.IsLiteral k) :
    t.kind ≠ .leftParen := by
  rcases h with h | ⟨hk, -⟩
  · intro hk
    simp [hk] at h
  · simp [hk]

theorem Token.Binds.kind_ne {t : Token} {r : Role} {K M N : Level} (h : t.Binds r K M N) :
    t.kind ≠ .leftParen := by
  cases h with
  | semicolon ht => simp [ht]
  | operator ht hop => simp [ht]
  | assign ht hop => simp [ht]

theorem Token.opens_of_kind {t : Token} (h : t.kind ≠ .leftParen) : opens (some t) = false := by
  simpa [opens] using h

/-- One operand, an operator, and another operand. -/
theorem ReadsOperand.binary {K M N : Level} {ls rs : List Token} {A B : Tree} {t : Token}
    {r : Role} (ht : t.Binds r K M N) (hA : ReadsOperand K ls A) (hB : ReadsOperand M rs B) :
    ReadsOperand N (ls ++ t :: rs) (.node ⟨t, r, 0⟩ [A, B]) := by
  intro rest p s hp hf hrest hstops
  obtain ⟨p₁, pend₁, out₁, hreads₁, hp₁, hpend₁, hout₁⟩ :=
    hA (t :: rs ++ rest) p s hp hf (Token.opens_of_kind ht.kind_ne) (hstops.mono ht.rank_le.1)
  -- the operators of the left operand go to the output, and what waited before stays
  have hstep : Sorting.step ⟨out₁, pend₁ ++ s.waiting, touched s.calls⟩ ⟨t, r, 0⟩ =
      .ok ⟨A.elements.reverse ++ s.output, ⟨t, r, 0⟩ :: s.waiting, touched s.calls⟩ := by
    rw [ht.step, Sorting.touch_eq, Sorting.release_eq rfl
      (fun e he => ht.yields_iff.2 (hpend₁ e he))
      (fun e he => hstops e he t r K M N ht (Int.le_refl _)), hout₁]
    simp [Sorting.push]
  obtain ⟨hr, hrf, hrp⟩ := ht.expectsOperand
  obtain ⟨p₂, pend₂, out₂, hreads₂, hp₂, hpend₂, hout₂⟩ :=
    hB rest (some r) ⟨A.elements.reverse ++ s.output, ⟨t, r, 0⟩ :: s.waiting, touched s.calls⟩ hr
      (by simpa using hrf) hrest (.binary ht)
  refine ⟨p₂, pend₂ ++ [⟨t, r, 0⟩], out₂, ?_, hp₂, ?_, ?_⟩
  · refine hreads₁.append (.cons (.binary ht fun _ => hp₁) hstep ?_)
    simpa using hreads₂
  · intro e he
    rcases List.mem_append.1 he with he | he
    · exact ⟨(hpend₂ e he).1, Int.le_trans ht.rank_le.2 (hpend₂ e he).2⟩
    · obtain rfl := List.mem_singleton.1 he
      exact ⟨hrp, Int.le_of_eq ht.precedence_eq.symm⟩
  · simp [Tree.elements, Tree.allElements, hout₂]

/-- An operator in front of an operand. -/
theorem ReadsOperand.sign {ts : List Token} {A : Tree} {t : Token} {r : Role} (ht : t.Signs r)
    (hA : ReadsOperand .signed ts A) : ReadsOperand .signed (t :: ts) (.node ⟨t, r, 0⟩ [A]) := by
  intro rest p s hp hf hrest hstops
  obtain ⟨hr, hrf, hrp⟩ := ht.expectsOperand
  obtain ⟨p₁, pend, out, hreads, hp₁, hpend, hout⟩ :=
    hA rest (some r) (s.touch.push ⟨t, r, 0⟩) hr (by simpa using hrf) hrest .signed
  rw [Sorting.touch_eq] at hreads hout
  refine ⟨p₁, pend ++ [⟨t, r, 0⟩], out, .cons (.sign ht hp) (ht.step s 0) ?_, hp₁, ?_, ?_⟩
  · rw [Sorting.touch_eq]
    simpa [Sorting.push] using hreads
  · intro e he
    rcases List.mem_append.1 he with he | he
    · exact hpend e he
    · obtain rfl := List.mem_singleton.1 he
      refine ⟨hrp, ?_⟩
      rcases Level.mem_signs ht.2 with ⟨g, rfl⟩ | rfl <;> exact Int.le_refl _
  · simpa [Tree.elements, Tree.allElements, Sorting.push] using hout

/-- An operand of one token. -/
theorem ReadsOperand.value {t : Token} {r : Role} (hvalue : r.isValue = true)
    (hplays : ∀ {p next}, expectsOperand p = true → Token.opens next = false →
      t.Plays p next r) : ReadsOperand .primary [t] (.node ⟨t, r, 0⟩ []) := by
  intro rest p s hp hf hrest hstops
  have hstep : s.step ⟨t, r, 0⟩ = .ok (s.touch.emit ⟨t, r, 0⟩) := by
    cases r with
    | literal k => rfl
    | name => rfl
    | _ => simp [Role.isValue] at hvalue
  refine ⟨some r, [], ⟨t, r, 0⟩ :: s.output, .single (hplays hp hrest) ?_, ?_, by simp, ?_⟩
  · rw [hstep, Sorting.touch_eq]
    rfl
  · cases r with
    | literal k => rfl
    | name => rfl
    | _ => simp [Role.isValue] at hvalue
  · simp [Tree.elements, Tree.allElements]

/-- The elements inside parentheses go to the output when they close. -/
theorem Sorting.release_inside {pend w out : List Element} {o : Element} {fs : List Frame}
    (hpend : ∀ e ∈ pend, e.role.isParenthesis = false) (ho : o.role.isParenthesis = true) :
    Sorting.release Sorting.inside ⟨out, pend ++ o :: w, fs⟩ =
      ⟨pend.reverse ++ out, o :: w, fs⟩ := by
  refine Sorting.release_eq rfl (fun e he => by simp [Sorting.inside, hpend e he]) ?_
  intro e he
  obtain rfl : o = e := by simpa using he
  simp [Sorting.inside, ho]

/-- An operand in parentheses. -/
theorem ReadsOperand.group {o c : Token} {ts : List Token} {T : Tree} (ho : o.kind = .leftParen)
    (hc : c.kind = .rightParen) (hT : ReadsOperand .sequence ts T) :
    ReadsOperand .primary (o :: (ts ++ [c])) T := by
  intro rest p s hp hf hrest hstops
  obtain ⟨p₁, pend, out, hreads, hp₁, hpend, hout⟩ :=
    hT (c :: rest) (some .groupOpen) (s.touch.push ⟨o, .groupOpen, 0⟩) rfl (by simp)
      (Token.opens_of_kind (by simp [hc])) (.parenthesis rfl)
  refine ⟨some .close, [], T.elements.reverse ++ s.output, ?_, rfl, by simp, by simp⟩
  refine .cons (.group ho hp hf) rfl (.append hreads (.single (.close hc) ?_))
  rw [Sorting.touch_eq] at hout ⊢
  simp only [Sorting.step, Sorting.close, Sorting.push] at hout ⊢
  rw [Sorting.release_inside (fun e he => (hpend e he).1) rfl, hout]
  simp

/-- Opening the arguments of a call. -/
theorem Reads.call {f o : Token} {ts rest : List Token} {p p' : Option Role} {s s' : Sorting}
    (hf : f.IsName) (ho : o.kind = .leftParen) (hp : expectsOperand p = true)
    (h : Reads rest (some .callOpen) ⟨s.output, ⟨o, .callOpen, 0⟩ :: ⟨f, .function, 0⟩ :: s.waiting,
      ⟨0, false⟩ :: touched s.calls⟩ ts p' s') : Reads rest p s (f :: o :: ts) p' s' := by
  refine .cons (.function hf hp (by simp [Token.opens, ho])) rfl (.cons (.arguments ho rfl) rfl ?_)
  rwa [Sorting.touch_eq]

/-- A call without arguments. -/
theorem ReadsOperand.bare {f o c : Token} (hf : f.IsName) (ho : o.kind = .leftParen)
    (hc : c.kind = .rightParen) :
    ReadsOperand .primary [f, o, c] (.node ⟨f, .function, 0⟩ []) := by
  intro rest p s hp hpf hrest hstops
  refine ⟨some .close, [], ⟨f, .function, 0⟩ :: s.output, ?_, rfl, by simp, ?_⟩
  · exact .call hf ho hp (.single (.close hc) rfl)
  · simp [Tree.elements, Tree.allElements]

/-- A call with arguments. -/
theorem ReadsArguments.call {f o c : Token} {ts : List Token} {Ts : List Tree} (hf : f.IsName)
    (ho : o.kind = .leftParen) (hc : c.kind = .rightParen) (hTs : ReadsArguments ts Ts) :
    ReadsOperand .primary (f :: o :: (ts ++ [c])) (.node ⟨f, .function, Ts.length⟩ Ts) := by
  intro rest p s hp hpf hrest hstops
  obtain ⟨p₁, pend, out, n, hreads, hlen, hp₁, hpend, hout⟩ :=
    hTs (c :: rest) (some .callOpen) s.output ⟨o, .callOpen, 0⟩ (⟨f, .function, 0⟩ :: s.waiting)
      (touched s.calls) rfl (by simp) (Token.opens_of_kind (by simp [hc])) rfl
  refine ⟨some .close, [], ⟨f, .function, Ts.length⟩ :: (Tree.allElements Ts).reverse ++ s.output,
    .call hf ho hp (.append hreads (.single (.close hc) ?_)), rfl, by simp, ?_⟩
  · simp only [Sorting.step, Sorting.close]
    rw [Sorting.release_inside hpend rfl, hout]
    simp [Sorting.closeCall, hlen]
  · simp [Tree.elements]

/-- One more argument. -/
theorem ReadsArguments.argument {as ts : List Token} {As : List Tree} {T : Tree} {c : Token}
    (hc : c.kind = .comma) (hAs : ReadsArguments as As) (hT : ReadsOperand .sequence ts T) :
    ReadsArguments (as ++ c :: ts) (As ++ [T]) := by
  intro rest p output o w fs hp hpf hrest ho
  obtain ⟨p₁, pend₁, out₁, n, hreads₁, hlen, hp₁, hpend₁, hout₁⟩ :=
    hAs (c :: ts ++ rest) p output o w fs hp hpf (Token.opens_of_kind (by simp [hc])) ho
  have hstep : Sorting.step ⟨out₁, pend₁ ++ o :: w, ⟨n, true⟩ :: fs⟩ ⟨c, .comma, 0⟩ =
      .ok ⟨(Tree.allElements As).reverse ++ output, o :: w, ⟨n + 1, false⟩ :: fs⟩ := by
    simp only [Sorting.step, Sorting.comma]
    rw [Sorting.release_inside hpend₁ (by rw [ho]; rfl), hout₁]
    simp [ho]
  obtain ⟨p₂, pend₂, out₂, hreads₂, hp₂, hpend₂, hout₂⟩ :=
    hT rest (some .comma)
      ⟨(Tree.allElements As).reverse ++ output, o :: w, ⟨n + 1, false⟩ :: fs⟩ rfl (by simp) hrest
      (.parenthesis (by rw [ho]; rfl))
  refine ⟨p₂, pend₂, out₂, n + 1, ?_, by simp [hlen], hp₂, fun e he => (hpend₂ e he).1, ?_⟩
  · exact hreads₁.append (.cons (.comma hc) hstep hreads₂)
  · simp [hout₂]

/-- What the machine does with the tokens that a level derives. -/
def ReadsAs : Level → List Token → List Tree → Prop
  | .arguments, ts, Ts => ReadsArguments ts Ts
  | L, ts, Ts => ∃ T, Ts = [T] ∧ ReadsOperand L ts T

theorem readsAs_of_operand {L : Level} {ts : List Token} {T : Tree} (h : ReadsOperand L ts T) :
    ReadsAs L ts [T] := by
  cases L with
  | arguments => exact h.arguments
  | _ => exact ⟨T, rfl, h⟩

theorem operand_of_readsAs {L : Level} {ts : List Token} {Ts : List Tree} (h : ReadsAs L ts Ts)
    (hL : L ≠ .arguments) : ∃ T, Ts = [T] ∧ ReadsOperand L ts T := by
  cases L with
  | arguments => exact absurd rfl hL
  | _ => exact h

/-- The machine reads what the grammar derives. -/
theorem Derives.readsAs {L : Level} {ts : List Token} {Ts : List Tree} (h : Derives L ts Ts) :
    ReadsAs L ts Ts := by
  have hone : ∀ {L : Level} {ts : List Token} {T : Tree}, L ≠ .arguments → ReadsAs L ts [T] →
      ReadsOperand L ts T := by
    intro L ts T hL h
    obtain ⟨T', hT, h⟩ := operand_of_readsAs h hL
    rwa [List.singleton_inj.1 hT]
  induction h with
  | @lift K L ts Ts hle _ ih =>
    by_cases hL : L = .arguments
    · subst hL
      cases K with
      | arguments => exact ih
      | _ => exact absurd hle (by decide)
    · obtain ⟨T, rfl, h⟩ := operand_of_readsAs ih hL
      exact readsAs_of_operand (h.mono hle)
  | argument hc _ _ ihs ih => exact ReadsArguments.argument hc ihs (hone (by decide) ih)
  | @binary K M N _ _ _ _ _ _ ht _ _ ihl ihr =>
    have hlevel : ∀ L : Level, N.rank ≤ L.rank → L ≠ .arguments := by
      rintro L hle rfl
      cases ht with
      | semicolon ht => exact absurd hle (by decide)
      | operator ht hop =>
        exact absurd (Int.lt_of_lt_of_le (Level.rank_of_mem_operators hop).1 hle) (by decide)
      | assign ht hop => exact absurd hle (by decide)
    exact readsAs_of_operand (.binary ht (hone (hlevel K ht.rank_le.1) ihl)
      (hone (hlevel M ht.rank_le.2) ihr))
  | sign ht _ ih => exact readsAs_of_operand (.sign ht (hone (by decide) ih))
  | literal ht => exact readsAs_of_operand (.value rfl fun hp _ => .literal ht hp)
  | name ht => exact readsAs_of_operand (.value rfl fun hp hn => .name ht hp hn)
  | group ho hc _ ih => exact readsAs_of_operand (.group ho hc (hone (by decide) ih))
  | bare hf ho hc => exact readsAs_of_operand (.bare hf ho hc)
  | call hf ho hc _ ih => exact readsAs_of_operand (ReadsArguments.call hf ho hc ih)

/-- Derived tokens are classified and put into postfix order, and the elements in that order
are those of the derived tree. -/
theorem Derives.toPostfix {ts : List Token} {T : Tree} (h : Derives .sequence ts [T]) :
    ∃ es, Element.classify ts = .ok es ∧ Element.toPostfix es = .ok T.elements := by
  obtain ⟨T', hT, hreads⟩ := operand_of_readsAs h.readsAs (by decide)
  obtain rfl := List.singleton_inj.1 hT
  obtain ⟨p', pend, out, hreads, -, hpend, hout⟩ :=
    hreads [] none .empty rfl (by simp) rfl .nil
  obtain ⟨es, hes, hfold⟩ := Reads.iff_classifyFrom.1 ⟨p', hreads⟩
  refine ⟨es, hes, ?_⟩
  rw [Element.toPostfix, hfold]
  simp only [Sorting.finish]
  rw [Sorting.release_eq rfl (fun e he => by simp [Sorting.inside, (hpend e he).1])
    (by simp [Sorting.empty])]
  simp only [Sorting.empty] at hout ⊢
  simp [hout]

end Formula

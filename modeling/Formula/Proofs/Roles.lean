import Formula.Proofs.Grammar
import Formula.Proofs.Results

/-!
# The roles that tokens get

`Token.Plays` says which role a token gets from the role before it and the token after it,
in the terms of the grammar : an operand and an operator in front of one come where an operand
is expected, a binary operator comes where none is, and semicolons, commas and closing
parentheses come anywhere (`Role.ofToken_eq_ok`).
-/

namespace Formula

open Role (expectsOperand)

/-- Whether the next token is an opening parenthesis. -/
def Token.opens (next : Option Token) : Bool := next.any fun t => t.kind == .leftParen

/-- The role of a token, after one with the role `prior` and before the token `next`. -/
inductive Token.Plays (prior : Option Role) (t : Token) (next : Option Token) : Role → Prop
  | literal {k : LiteralKind} (h : t.IsLiteral k) (hp : expectsOperand prior = true) :
      Plays prior t next (.literal k)
  | name (h : t.IsName) (hp : expectsOperand prior = true) (hn : opens next = false) :
      Plays prior t next .name
  | function (h : t.IsName) (hp : expectsOperand prior = true) (hn : opens next = true) :
      Plays prior t next .function
  | group (h : t.kind = .leftParen) (hp : expectsOperand prior = true)
      (hf : prior ≠ some .function) : Plays prior t next .groupOpen
  | arguments (h : t.kind = .leftParen) (hf : prior = some .function) :
      Plays prior t next .callOpen
  | close (h : t.kind = .rightParen) : Plays prior t next .close
  | comma (h : t.kind = .comma) : Plays prior t next .comma
  | binary {r : Role} {K M N : Level} (h : t.Binds r K M N)
      (hp : t.kind = .operator → expectsOperand prior = false) : Plays prior t next r
  | sign {r : Role} (h : t.Signs r) (hp : expectsOperand prior = true) : Plays prior t next r

namespace Role

variable {prior : Option Role} {t : Token} {next : Option Token} {r : Role}

theorem ofUnary?_eq_some {lexeme : String} :
    ofUnary? lexeme = some r ↔ (lexeme, r) ∈ Level.signs := by
  unfold ofUnary? Level.signs
  split <;> simp_all [eq_comm]

theorem ofInfix?_of_binds {K M N : Level} (h : t.Binds r K M N) (hk : t.kind = .operator) :
    ofInfix? t.lexeme = some r ∧ t.lexeme ≠ "!" := by
  cases h with
  | semicolon ht => simp [ht] at hk
  | operator ht hop =>
    have hall : ∀ L : Level, ∀ p ∈ L.operators, ofInfix? p.1 = some p.2 ∧ p.1 ≠ "!" := by
      intro L
      cases L <;> decide
    exact hall _ _ hop
  | assign ht hop =>
    have hall : ∀ p ∈ Level.assignments, ofInfix? p.1 = some p.2 ∧ p.1 ≠ "!" := by decide
    exact hall _ hop

theorem binds_of_ofInfix? (h : ofInfix? t.lexeme = some r) (hk : t.kind = .operator) :
    ∃ K M N, t.Binds r K M N := by
  have hops : (∃ L : Level, (t.lexeme, r) ∈ L.operators) ∨ (t.lexeme, r) ∈ Level.assignments := by
    generalize t.lexeme = lexeme at h ⊢
    unfold ofInfix? at h
    split at h
    case h_1 | h_2 => exact .inl ⟨.sum, by simp_all [Level.operators]⟩
    case h_3 | h_4 | h_5 => exact .inl ⟨.product, by simp_all [Level.operators]⟩
    case h_6 | h_7 | h_8 | h_9 | h_10 | h_11 =>
      exact .inl ⟨.comparison, by simp_all [Level.operators]⟩
    case h_12 => exact .inl ⟨.and, by simp_all [Level.operators]⟩
    case h_13 => exact .inl ⟨.or, by simp_all [Level.operators]⟩
    case h_14 | h_15 | h_16 | h_17 | h_18 => exact .inr (by simp_all [Level.assignments])
    case h_19 => simp at h
  rcases hops with ⟨L, hop⟩ | hop
  · exact ⟨L, L.next, L, .operator hk hop⟩
  · exact ⟨.or, .assignment, .assignment, .assign hk hop⟩

theorem ofIdentifier_of_mem {lexeme : String} {k : LiteralKind}
    (h : (lexeme, k) ∈ [("true", LiteralKind.boolean), ("false", .boolean), ("null", .null)]) :
    ofIdentifier lexeme next = .literal k := by
  have hall : ∀ p ∈ [("true", LiteralKind.boolean), ("false", .boolean), ("null", .null)],
      ofIdentifier p.1 next = .literal p.2 := by simp [ofIdentifier]
  exact hall _ h

theorem ofIdentifier_of_not_mem {lexeme : String} (h : lexeme ∉ ["true", "false", "null"]) :
    ofIdentifier lexeme next = if Token.opens next then function else name := by
  simp only [List.mem_cons, List.not_mem_nil, or_false, not_or] at h
  unfold ofIdentifier
  split
  · exact absurd rfl h.1
  · exact absurd rfl h.2.1
  · exact absurd rfl h.2.2
  · rfl

/-- What is not an operator gets its role from its kind, and an operand has to be expected. -/
theorem ofToken_of_ne_operator (hk : t.kind ≠ .operator) : ofToken prior t next = .ok r ↔
    ofOperand prior t next = r ∧ (r.startsOperand = true → expectsOperand prior = true) := by
  unfold ofToken
  rw [if_neg hk]
  simp only
  split
  · rename_i hcase
    simp only [Bool.and_eq_true, Bool.not_eq_true'] at hcase
    constructor
    · simp
    · rintro ⟨rfl, hp⟩
      simp [hp hcase.1] at hcase
  · rename_i hcase
    simp only [Bool.and_eq_true, Bool.not_eq_true', not_and, Bool.not_eq_false] at hcase
    constructor
    · intro h
      obtain rfl := Except.ok.inj h
      exact ⟨rfl, hcase⟩
    · rintro ⟨rfl, -⟩
      rfl

/-- A token gets the role that it plays in the grammar. -/
theorem ofToken_eq_ok : ofToken prior t next = .ok r ↔ t.Plays prior next r := by
  constructor
  · intro h
    cases hk : t.kind with
    | operator =>
      rw [ofToken, if_pos hk, ofOperator] at h
      split at h
      · rename_i hp
        split at h
        · rename_i r' hr
          obtain rfl := Except.ok.inj h
          exact .sign ⟨hk, ofUnary?_eq_some.1 hr⟩ hp
        · simp at h
      · rename_i hp
        split at h
        · simp at h
        · split at h
          · rename_i r' hr
            obtain rfl := Except.ok.inj h
            obtain ⟨K, M, N, hb⟩ := binds_of_ofInfix? hr hk
            exact .binary hb fun _ => by simpa using hp
          · simp at h
    | identifier =>
      obtain ⟨hr, hp⟩ := (ofToken_of_ne_operator (by simp [hk])).1 h
      simp only [ofOperand, hk] at hr
      by_cases hmem : t.lexeme ∈ ["true", "false", "null"]
      · obtain ⟨k, hk'⟩ : ∃ k, (t.lexeme, k) ∈
            [("true", LiteralKind.boolean), ("false", .boolean), ("null", .null)] := by
          simp only [List.mem_cons, List.not_mem_nil, or_false] at hmem
          rcases hmem with h | h | h <;> simp [h]
        rw [ofIdentifier_of_mem hk'] at hr
        subst hr
        exact .literal (.inr ⟨hk, hk'⟩) (hp rfl)
      · rw [ofIdentifier_of_not_mem hmem] at hr
        cases hn : Token.opens next with
        | true =>
          obtain rfl : function = r := by simpa [hn] using hr
          exact .function ⟨hk, hmem⟩ (hp rfl) hn
        | false =>
          obtain rfl : name = r := by simpa [hn] using hr
          exact .name ⟨hk, hmem⟩ (hp rfl) hn
    | leftParen =>
      obtain ⟨hr, hp⟩ := (ofToken_of_ne_operator (by simp [hk])).1 h
      simp only [ofOperand, hk] at hr
      split at hr
      · rename_i hf
        subst hr
        exact .arguments hk hf
      · rename_i hf
        subst hr
        exact .group hk (hp rfl) hf
    | integer | float | string =>
      obtain ⟨hr, hp⟩ := (ofToken_of_ne_operator (by simp [hk])).1 h
      simp only [ofOperand, hk] at hr
      subst hr
      exact .literal (.inl (by simp [hk])) (hp rfl)
    | rightParen =>
      obtain ⟨hr, -⟩ := (ofToken_of_ne_operator (by simp [hk])).1 h
      simp only [ofOperand, hk] at hr
      exact hr ▸ .close hk
    | comma =>
      obtain ⟨hr, -⟩ := (ofToken_of_ne_operator (by simp [hk])).1 h
      simp only [ofOperand, hk] at hr
      exact hr ▸ .comma hk
    | semicolon =>
      obtain ⟨hr, -⟩ := (ofToken_of_ne_operator (by simp [hk])).1 h
      simp only [ofOperand, hk] at hr
      exact hr ▸ .binary (.semicolon hk) (by simp [hk])
  · intro h
    cases h with
    | literal h hp =>
      rcases h with h | ⟨hk, h⟩
      · simp only [List.mem_cons, Prod.mk.injEq, List.not_mem_nil, or_false] at h
        rcases h with ⟨hk, rfl⟩ | ⟨hk, rfl⟩ | ⟨hk, rfl⟩ <;>
          simp [ofToken, ofOperand, hk, startsOperand, isValue, hp]
      · simp [ofToken, ofOperand, hk, ofIdentifier_of_mem h, startsOperand, isValue, hp]
    | name h hp hn =>
      simp [ofToken, ofOperand, h.1, ofIdentifier_of_not_mem h.2, hn, startsOperand, isValue, hp]
    | function h hp hn =>
      simp [ofToken, ofOperand, h.1, ofIdentifier_of_not_mem h.2, hn, startsOperand, hp]
    | group h hp hf => simp [ofToken, ofOperand, h, hf, startsOperand, hp]
    | arguments h hf => simp [ofToken, ofOperand, h, hf, startsOperand, isValue]
    | close h => simp [ofToken, ofOperand, h, startsOperand, isValue]
    | comma h => simp [ofToken, ofOperand, h, startsOperand, isValue]
    | binary h hp =>
      by_cases hk : t.kind = .operator
      · obtain ⟨hop, hne⟩ := ofInfix?_of_binds h hk
        simp [ofToken, ofOperator, hk, hp hk, hne, hop]
      · cases h with
        | semicolon ht => simp [ofToken, ofOperand, ht, startsOperand, isValue]
        | operator ht hop => exact absurd ht hk
        | assign ht hop => exact absurd ht hk
    | sign h hp => simp [ofToken, ofOperator, h.1, hp, ofUnary?_eq_some.2 h.2]

end Role

end Formula

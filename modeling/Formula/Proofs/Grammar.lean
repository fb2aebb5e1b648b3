import Formula.Element.Postfix

/-!
# The grammar of formulas

A formula is written at levels of binding, the loosest first. Binary operators of one level
group to the left, assignments group to the right, and an operator in front of an operand
binds more tightly than all of them. `Derives` says which tokens a level derives, and which
tree the derivation gives.

Nothing derives a parenthesis after a variable, so a name with a parenthesis after it is the
name of a function.

In postfix order a tree is its operands, in order, and then the element at its root. `reduce`
reads such an order with a stack of trees.
-/

namespace Formula

/-! ## Trees of elements -/

/-- An element with its operands. -/
inductive Tree where
  | node (e : Element) (operands : List Tree)

namespace Element

/-- How many operands an element takes in postfix order, if it can stand there. -/
def arity? (e : Element) : Option Nat :=
  match e.role with
  | .literal _ | .name => some 0
  | .sign _ | .not => some 1
  | .arith _ | .compare _ | .logic _ | .assign _ | .semicolon => some 2
  | .function => some e.argc
  | .comma | .groupOpen | .callOpen | .close => none

/-- Takes the operands of an element from the stack, and puts the tree in their place. -/
def reduceStep (stack : List Tree) (e : Element) : Option (List Tree) :=
  match e.arity? with
  | some n =>
    if stack.length < n then none else some (.node e (stack.take n).reverse :: stack.drop n)
  | none => none

/-- The trees that are left of elements in postfix order, the last first. -/
def reduce (es : List Element) : Option (List Tree) := es.foldlM reduceStep []

end Element

/-! ## Derivations -/

/-- A level of the grammar. -/
inductive Level where
  /-- The arguments of a call, with commas between them. -/
  | arguments
  /-- Statements, with semicolons between them. -/
  | sequence
  | assignment
  | or
  | and
  | comparison
  | sum
  | product
  /-- An operand with operators in front. -/
  | signed
  | primary
  deriving DecidableEq

namespace Level

/-- How tightly a level binds. -/
def rank : Level → Int
  | arguments => -1
  | sequence => 0
  | assignment => 2
  | or => 3
  | and => 4
  | comparison => 5
  | sum => 6
  | product => 7
  | signed => 8
  | primary => 9

/-- The next tighter level. -/
def next : Level → Level
  | arguments => sequence
  | sequence => assignment
  | assignment => or
  | or => and
  | and => comparison
  | comparison => sum
  | sum => product
  | product => signed
  | signed | primary => primary

/-- The binary operators of a level that group to the left, but for the semicolon. -/
def operators : Level → List (String × Role)
  | or => [("||", .logic .or)]
  | and => [("&&", .logic .and)]
  | comparison => [("==", .compare .eq), ("!=", .compare .ne), ("<", .compare .lt),
      ("<=", .compare .le), (">", .compare .gt), (">=", .compare .ge)]
  | sum => [("+", .arith .add), ("-", .arith .sub)]
  | product => [("*", .arith .mul), ("/", .arith .div), ("%", .arith .rem)]
  | _ => []

/-- The operators of assignment. -/
def assignments : List (String × Role) :=
  [("=", .assign .set), ("+=", .assign .add), ("-=", .assign .sub), ("*=", .assign .mul),
    ("/=", .assign .div)]

/-- The operators in front of an operand. -/
def signs : List (String × Role) :=
  [("+", .sign .plus), ("-", .sign .minus), ("!", .not)]

end Level

namespace Token

/-- The token stands between operands of the levels `K` and `M`, and the whole is of the level
`N`. -/
inductive Binds (t : Token) : Role → Level → Level → Level → Prop
  /-- Statements group to the left. -/
  | semicolon (ht : t.kind = .semicolon) : Binds t .semicolon .sequence .assignment .sequence
  /-- The operators of a level group to the left. -/
  | operator {L : Level} {r : Role} (ht : t.kind = .operator)
      (hop : (t.lexeme, r) ∈ L.operators) : Binds t r L L.next L
  /-- Assignments group to the right. -/
  | assign {r : Role} (ht : t.kind = .operator) (hop : (t.lexeme, r) ∈ Level.assignments) :
      Binds t r .or .assignment .assignment

/-- The token is an operator in front of an operand. -/
def Signs (t : Token) (r : Role) : Prop :=
  t.kind = .operator ∧ (t.lexeme, r) ∈ Level.signs

/-- The token is a literal. -/
def IsLiteral (t : Token) (k : LiteralKind) : Prop :=
  (t.kind, k) ∈ [(.integer, .integer), (.float, .float), (.string, .string)] ∨
    t.kind = .identifier ∧
      (t.lexeme, k) ∈ [("true", .boolean), ("false", .boolean), ("null", .null)]

/-- The token is a name, of a variable or of a function. -/
def IsName (t : Token) : Prop :=
  t.kind = .identifier ∧ t.lexeme ∉ ["true", "false", "null"]

end Token

/-- The tokens that a level derives, and what the derivation gives : one tree, and one for each
argument at the level of arguments. -/
inductive Derives : Level → List Token → List Tree → Prop
  /-- What a tighter level derives. -/
  | lift {K L : Level} {ts : List Token} {Ts : List Tree} (h : K.rank ≤ L.rank) :
      Derives L ts Ts → Derives K ts Ts
  /-- An argument after others. -/
  | argument {as ts : List Token} {As : List Tree} {T : Tree} {c : Token} (hc : c.kind = .comma) :
      Derives .arguments as As → Derives .sequence ts [T] →
        Derives .arguments (as ++ c :: ts) (As ++ [T])
  /-- Operands with an operator between them. -/
  | binary {K M N : Level} {ls rs : List Token} {A B : Tree} {t : Token} {r : Role}
      (ht : t.Binds r K M N) : Derives K ls [A] → Derives M rs [B] →
        Derives N (ls ++ t :: rs) [.node ⟨t, r, 0⟩ [A, B]]
  | sign {ts : List Token} {A : Tree} {t : Token} {r : Role} (ht : t.Signs r) :
      Derives .signed ts [A] → Derives .signed (t :: ts) [.node ⟨t, r, 0⟩ [A]]
  | literal {t : Token} {k : LiteralKind} (ht : t.IsLiteral k) :
      Derives .primary [t] [.node ⟨t, .literal k, 0⟩ []]
  | name {t : Token} (ht : t.IsName) : Derives .primary [t] [.node ⟨t, .name, 0⟩ []]
  | group {o c : Token} {ts : List Token} {T : Tree} (ho : o.kind = .leftParen)
      (hc : c.kind = .rightParen) : Derives .sequence ts [T] →
        Derives .primary (o :: (ts ++ [c])) [T]
  /-- A call without arguments. -/
  | bare {f o c : Token} (hf : f.IsName) (ho : o.kind = .leftParen) (hc : c.kind = .rightParen) :
      Derives .primary [f, o, c] [.node ⟨f, .function, 0⟩ []]
  | call {f o c : Token} {ts : List Token} {Ts : List Tree} (hf : f.IsName)
      (ho : o.kind = .leftParen) (hc : c.kind = .rightParen) : Derives .arguments ts Ts →
        Derives .primary (f :: o :: (ts ++ [c])) [.node ⟨f, .function, Ts.length⟩ Ts]

namespace Level

theorem rank_le_rank_next (L : Level) : L.rank ≤ L.next.rank := by
  cases L <;> decide

/-- Levels that bind more tightly bind at least as tightly as the next one. -/
theorem rank_next_le {K L : Level} (h : K.rank < L.rank) : K.next.rank ≤ L.rank := by
  cases K <;> cases L <;> first
    | decide
    | exact absurd h (by decide)

theorem rank_le_primary (L : Level) : L.rank ≤ primary.rank := by
  cases L <;> decide

end Level

/-! ## Trees in postfix order -/

namespace Tree

mutual

/-- The elements of a tree in postfix order. -/
def elements : Tree → List Element
  | node e Ts => allElements Ts ++ [e]

/-- The elements of several trees, one after the other. -/
def allElements : List Tree → List Element
  | [] => []
  | T :: Ts => elements T ++ allElements Ts

end

@[simp] theorem allElements_append : ∀ As Bs : List Tree,
    allElements (As ++ Bs) = allElements As ++ allElements Bs
  | [], Bs => rfl
  | A :: As, Bs => by
    rw [List.cons_append, allElements, allElements, allElements_append As Bs, List.append_assoc]

@[simp] theorem allElements_singleton (T : Tree) : allElements [T] = elements T := by
  rw [allElements, allElements, List.append_nil]

end Tree

namespace Element

/-- What an element adds to the number of trees on the stack. -/
def weight (e : Element) : Int := 1 - (e.arity?.getD 0 : Nat)

/-- What elements add to the number of trees on the stack. -/
@[simp] def totalWeight : List Element → Int
  | [] => 0
  | e :: es => e.weight + totalWeight es

@[simp] theorem totalWeight_append (es es' : List Element) :
    totalWeight (es ++ es') = totalWeight es + totalWeight es' := by
  induction es with
  | nil => simp
  | cons e es ih => simp [ih, Int.add_assoc]

theorem length_of_reduceStep {e : Element} {stack stack' : List Tree}
    (h : reduceStep stack e = some stack') : (stack'.length : Int) = stack.length + e.weight := by
  unfold reduceStep at h
  unfold weight
  cases harity : e.arity? with
  | none => simp [harity] at h
  | some n =>
    simp only [harity] at h
    split at h
    · simp at h
    · obtain rfl := Option.some.inj h
      simp
      omega

/-- The elements settle how many trees are left of them. -/
theorem length_of_foldlM {es : List Element} {stack stack' : List Tree}
    (h : es.foldlM reduceStep stack = some stack') :
    (stack'.length : Int) = stack.length + totalWeight es := by
  induction es generalizing stack with
  | nil =>
    obtain rfl : stack = stack' := by simpa using h
    simp
  | cons e es ih =>
    rw [List.foldlM_cons, Option.bind_eq_bind, Option.bind_eq_some_iff] at h
    obtain ⟨next, hnext, h⟩ := h
    rw [ih h, length_of_reduceStep hnext, totalWeight]
    omega

theorem reduceStep_of_arity {e : Element} {Ts stack : List Tree}
    (h : e.arity? = some Ts.length) :
    reduceStep (Ts.reverse ++ stack) e = some (.node e Ts :: stack) := by
  have htake : (Ts.reverse ++ stack).take Ts.length = Ts.reverse := by
    rw [← List.length_reverse, List.take_left]
  have hdrop : (Ts.reverse ++ stack).drop Ts.length = stack := by
    rw [← List.length_reverse, List.drop_left]
  unfold reduceStep
  simp only [h]
  rw [if_neg (by simp), htake, hdrop, List.reverse_reverse]

end Element

/-! ## The operators of the grammar -/

theorem Level.mem_operators {L : Level} {lexeme : String} {r : Role}
    (h : (lexeme, r) ∈ L.operators) :
    r.precedence = L.rank ∧ r.precedence < L.next.rank ∧
      ((∃ op, r = .arith op) ∨ (∃ op, r = .compare op) ∨ ∃ op, r = .logic op) := by
  have hall : ∀ p ∈ L.operators, p.2.precedence = L.rank ∧ p.2.precedence < L.next.rank ∧
      ((∃ op, p.2 = .arith op) ∨ (∃ op, p.2 = .compare op) ∨ ∃ op, p.2 = .logic op) := by
    cases L <;> simp [Level.operators, Level.rank, Level.next, Role.precedence]
  exact hall _ h

theorem Level.rank_of_mem_operators {L : Level} {lexeme : String} {r : Role}
    (h : (lexeme, r) ∈ L.operators) : assignment.rank < L.rank ∧ L.rank < signed.rank := by
  cases L <;> first
    | decide
    | simp [operators] at h

theorem Level.mem_assignments {lexeme : String} {r : Role} (h : (lexeme, r) ∈ assignments) :
    ∃ op, r = .assign op := by
  simp only [assignments, List.mem_cons, Prod.mk.injEq, List.not_mem_nil, or_false] at h
  rcases h with ⟨-, rfl⟩ | ⟨-, rfl⟩ | ⟨-, rfl⟩ | ⟨-, rfl⟩ | ⟨-, rfl⟩ <;> exact ⟨_, rfl⟩

theorem Level.mem_signs {lexeme : String} {r : Role} (h : (lexeme, r) ∈ signs) :
    (∃ s, r = .sign s) ∨ r = .not := by
  simp only [signs, List.mem_cons, Prod.mk.injEq, List.not_mem_nil, or_false] at h
  rcases h with ⟨-, rfl⟩ | ⟨-, rfl⟩ | ⟨-, rfl⟩
  · exact .inl ⟨_, rfl⟩
  · exact .inl ⟨_, rfl⟩
  · exact .inr rfl

namespace Token

variable {t : Token} {r : Role} {K M N : Level}

theorem Binds.role_eq (h : t.Binds r K M N) : r = .semicolon ∨ (∃ op, r = .arith op) ∨
    (∃ op, r = .compare op) ∨ (∃ op, r = .logic op) ∨ ∃ op, r = .assign op := by
  cases h with
  | semicolon ht => exact .inl rfl
  | operator ht hop =>
    rcases (Level.mem_operators hop).2.2 with h | h | h
    · exact .inr (.inl h)
    · exact .inr (.inr (.inl h))
    · exact .inr (.inr (.inr (.inl h)))
  | assign ht hop => exact .inr (.inr (.inr (.inr (Level.mem_assignments hop))))

theorem Binds.arity (h : t.Binds r K M N) : Element.arity? ⟨t, r, 0⟩ = some 2 := by
  rcases h.role_eq with rfl | ⟨op, rfl⟩ | ⟨op, rfl⟩ | ⟨op, rfl⟩ | ⟨op, rfl⟩ <;> rfl

theorem Signs.arity (h : t.Signs r) : Element.arity? ⟨t, r, 0⟩ = some 1 := by
  rcases Level.mem_signs h.2 with ⟨s, rfl⟩ | rfl <;> rfl

end Token

/-- The elements of trees are reduced to the trees, on top of any others. -/
def Tree.Reduces (Ts : List Tree) : Prop :=
  ∀ stack, (Tree.allElements Ts).foldlM Element.reduceStep stack = some (Ts.reverse ++ stack)

namespace Tree.Reduces

variable {As Bs : List Tree}

theorem append (hA : Reduces As) (hB : Reduces Bs) : Reduces (As ++ Bs) := by
  intro stack
  rw [allElements_append, List.foldlM_append, hA]
  simpa using hB (As.reverse ++ stack)

theorem node {e : Element} (harity : e.arity? = some As.length) (hA : Reduces As) :
    Reduces [.node e As] := by
  intro stack
  rw [allElements_singleton, elements, List.foldlM_append, hA]
  simp [Element.reduceStep_of_arity harity]

end Tree.Reduces

theorem Derives.reduces {L : Level} {ts : List Token} {Ts : List Tree} (h : Derives L ts Ts) :
    Tree.Reduces Ts := by
  induction h with
  | lift hrank _ ih => exact ih
  | argument hc _ _ ihs ih => exact ihs.append ih
  | binary ht _ _ ihl ihr => exact .node ht.arity (ihl.append ihr)
  | sign ht _ ih => exact .node ht.arity ih
  | literal ht => exact .node rfl fun stack => rfl
  | name ht => exact .node rfl fun stack => rfl
  | group ho hc _ ih => exact ih
  | bare hf ho hc => exact .node rfl fun stack => rfl
  | call hf ho hc _ ih => exact .node rfl ih

/-- A derived tree is what its elements reduce to. -/
theorem Derives.reduce {L : Level} {ts : List Token} {T : Tree} (h : Derives L ts [T]) :
    Element.reduce T.elements = some [T] := by
  have hT := h.reduces []
  rwa [Tree.allElements_singleton] at hT

end Formula

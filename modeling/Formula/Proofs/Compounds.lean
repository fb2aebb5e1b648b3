import Formula.Proofs.Spelling
import Formula.Proofs.Touching

/-!
# Compound assignments

A compound assignment such as `x += (e)` is short for one that spells out the operation,
`x = x + (e)`. Both run `e` once, combine the same two values and bind the same variable. They
differ in when they look at the variable : the long form does so before `e` is run, the short one
after it.

So one comes to a value just when the other does, to the same one and in the same surroundings,
if `e` leaves the variable as it is (`Compiler.execute_compound_iff`). A text that does not assign
to the variable does (`Compiler.get?_execute_of_not_mem_targets`). One that does assign to it
tells them apart.
-/

namespace Formula

/-! ## Texts of operands -/

/-- The text is a name that can stand for a variable. -/
structure IsVariable (x : String) : Prop where
  chars : ∃ c cs, x.toList = c :: cs ∧ startsName c = true ∧ cs.all continuesName = true
  notLiteral : x ∉ ["true", "false", "null"]

/-- Blanks, digits and the point stand before all characters with which names start. -/
theorem le_toNat_of_startsName {c : Char} (h : startsName c = true) : 65 ≤ c.toNat := by
  simp only [startsName, Char.isAlpha, Char.isUpper, Char.isLower, Bool.or_eq_true,
    Bool.and_eq_true, decide_eq_true_eq, beq_iff_eq, UInt32.le_iff_toNat_le] at h
  rcases h with (⟨h, -⟩ | ⟨h, -⟩) | rfl
  · exact h
  · exact Nat.le_trans (by decide) h
  · decide

theorem isDigit_of_startsName {c : Char} (h : startsName c = true) : c.isDigit = false := by
  have hle := le_toNat_of_startsName h
  rw [Bool.eq_false_iff]
  intro hdigit
  simp only [Char.isDigit, Bool.and_eq_true, decide_eq_true_eq, UInt32.le_iff_toNat_le] at hdigit
  exact absurd (Nat.le_trans hle hdigit.2) (by decide)

/-- What starts a name is the start of a name only. -/
theorem pieceAt_of_startsName {c : Char} {cs rest : List Char} (hc : startsName c = true)
    (hcs : cs.all continuesName = true) :
    pieceAt c (cs ++ ' ' :: rest) = .token .identifier cs.length 0 := by
  have hne : (c == '.') = false := by
    rw [beq_eq_false_iff_ne]
    rintro rfl
    cases hc
  have hnumber : startsNumber c (cs ++ ' ' :: rest) = false := by
    rw [startsNumber, isDigit_of_startsName hc, hne, Bool.false_and, Bool.false_or]
  rw [pieceAt_eq, hnumber, if_neg Bool.false_ne_true, if_pos hc, runLength_append_of_all hcs]
  rfl

theorem IsVariable.scansAs {x : String} (hx : IsVariable x) {line : UInt32} {rest : List Char}
    {ts : List Token} (h : ScansAs line rest ts) :
    ScansAs line (x.toList ++ ' ' :: rest) (⟨x, .identifier, line⟩ :: ts) := by
  obtain ⟨c, cs, hchars, hc, hcs⟩ := hx.chars
  have htoken := ScansAs.token (isSpace_eq_false hc rfl) (pieceAt_of_startsName hc hcs)
    h.space
  rwa [← hchars, String.ofList_toList] at htoken

theorem AssignOp.scansAs (op : AssignOp) {line : UInt32} {rest : List Char} {ts : List Token}
    (h : ScansAs line rest ts) :
    ScansAs line (op.symbol.toList ++ ' ' :: rest) (⟨op.symbol, .operator, line⟩ :: ts) := by
  cases op with
  | set => exact ScansAs.char rfl rfl h.space
  | add => exact ScansAs.pair rfl rfl h.space
  | sub => exact ScansAs.pair rfl rfl h.space
  | mul => exact ScansAs.pair rfl rfl h.space
  | div => exact ScansAs.pair rfl rfl h.space

theorem ArithOp.scansAs (op : ArithOp) {line : UInt32} {rest : List Char} {ts : List Token}
    (h : ScansAs line rest ts) :
    ScansAs line (op.symbol.toList ++ ' ' :: rest) (⟨op.symbol, .operator, line⟩ :: ts) := by
  cases op with
  | add => exact ScansAs.char rfl rfl h.space
  | sub => exact ScansAs.char rfl rfl h.space
  | mul => exact ScansAs.char rfl rfl h.space
  | div => exact ScansAs.char rfl rfl h.space
  | rem => exact ScansAs.char rfl rfl h.space

theorem pieceAt_open (cs : List Char) : pieceAt '(' cs = .token .leftParen 0 0 := by
  have hlong : (cs.head?.any fun d => longSymbols.contains ('(', d)) = false := by
    cases cs with
    | nil => rfl
    | cons d cs => simp [longSymbols]
  have hnumber : startsNumber '(' cs = false := rfl
  rw [pieceAt_eq, hnumber, symbolAt, hlong]
  rfl

/-- The text is an operand of the level, and the tree is built of it. -/
def IsOperand (ctx : BuildContext) (L : Level) (text : String) (n : Node) : Prop :=
  ∃ ts T, ScansAs 1 text.toList ts ∧ Derives L ts [T] ∧
    T.elements.foldlM (Node.build ctx) [] = .ok [n]

/-- The text of an assignment. -/
def assignText (x : String) (op : AssignOp) (value : String) : String :=
  x ++ " " ++ op.symbol ++ " " ++ value

/-- The text of an operation on a variable. -/
def arithText (x : String) (op : ArithOp) (value : String) : String :=
  x ++ " " ++ op.symbol ++ " " ++ value

/-- The text in parentheses. -/
def groupText (text : String) : String := "(" ++ text ++ ")"

namespace Node

variable {ctx : BuildContext} {stack stack' : List Node}

theorem foldlM_build_singleton (e : Element) :
    [e].foldlM (build ctx) stack = build ctx stack e := by
  rw [List.foldlM_cons]
  cases build ctx stack e <;> rfl

/-- The operands of a tree are built one after the other, and then its root is. -/
theorem foldlM_build_binary (e : Element) (A B : Tree) :
    (Tree.node e [A, B]).elements.foldlM (build ctx) stack =
      (A.elements.foldlM (build ctx) stack).bind fun stack =>
        (B.elements.foldlM (build ctx) stack).bind fun stack => build ctx stack e := by
  have helements : (Tree.node e [A, B]).elements = A.elements ++ (B.elements ++ [e]) := by
    simp [Tree.elements, Tree.allElements]
  rw [helements, List.foldlM_append]
  simp only [List.foldlM_append, foldlM_build_singleton]
  rfl

theorem build_name_eq_ok {t : Token} (h : build ctx [] ⟨t, .name, 0⟩ = .ok stack) :
    stack = [.read t.lexeme (ctx.settings.isConstant t.lexeme)
      (.ofKind (ctx.pinned t.lexeme))] := by
  obtain ⟨n, hn, rfl⟩ := Except.map_eq_ok.1 h
  cases makes_ofName (e := ⟨t, .name, 0⟩) rfl hn with
  | read => rfl
  | literal hrole => cases hrole
  | call hrole => cases hrole

theorem build_assign_eq_ok {t : Token} {op : AssignOp} {name : String} {c : Bool} {s : Slot}
    {value : Node} (h : build ctx [value, .read name c s] ⟨t, .assign op, 0⟩ = .ok stack) :
    c = false ∧
      stack = [.assign op name s.kind value (.ofKind (op.static? s.kind value.kind?))] := by
  obtain ⟨n, hn, rfl⟩ := Except.map_eq_ok.1 h
  cases c with
  | true => cases hn
  | false =>
    obtain rfl := Except.ok.inj hn
    exact ⟨rfl, rfl⟩

end Node

namespace IsOperand

variable {c : Compiler} {scope : Scope} {ctx : BuildContext} {x text : String} {n : Node}

/-- What is built of a text can stand in parentheses. -/
theorem group (h : c.build text scope = .ok n) :
    IsOperand ⟨c.settings, c.registry, scope⟩ .primary (groupText text) n := by
  obtain ⟨ts, T, hts, hT⟩ := Compiler.derives_of_build h
  obtain ⟨es, hes, hroot, -⟩ := Compiler.build_eq_ok.1 h
  obtain rfl := Except.ok.inj (hes.symm.trans (Element.postfixOfText_of_derives hts hT))
  obtain ⟨line, hscan⟩ := ScansAs.append_close hts
  refine ⟨⟨"(", .leftParen, 1⟩ :: (ts ++ [⟨")", .rightParen, line⟩]), T, ?_,
    .group rfl rfl hT, Node.foldlM_of_ofPostfix hroot⟩
  have hopen := ScansAs.char rfl (pieceAt_open _) hscan
  simpa [groupText] using hopen

theorem lift {K L : Level} (hrank : K.rank ≤ L.rank) (h : IsOperand ctx L text n) :
    IsOperand ctx K text n := by
  obtain ⟨ts, T, hts, hT, hbuild⟩ := h
  exact ⟨ts, T, hts, .lift hrank hT, hbuild⟩

theorem arith (hx : IsVariable x) (hconst : ctx.settings.isConstant x = false)
    (hstrict : ctx.settings.strict = false) (op : ArithOp) (h : IsOperand ctx .primary text n) :
    IsOperand ctx .assignment (arithText x op text)
      (.arith op (.read x false (.ofKind none)) n (.ofKind none)) := by
  obtain ⟨ts, T, hts, hT, hbuild⟩ := h
  have hname : (⟨x, .identifier, 1⟩ : Token).IsName := ⟨rfl, hx.notLiteral⟩
  obtain ⟨L, hop, hrank⟩ : ∃ L : Level, (op.symbol, Role.arith op) ∈ L.operators ∧
      Level.assignment.rank ≤ L.rank := by
    cases op with
    | add | sub => exact ⟨.sum, by decide, by decide⟩
    | mul | div | rem => exact ⟨.product, by decide, by decide⟩
  have hread : Node.build ctx [] ⟨⟨x, .identifier, 1⟩, .name, 0⟩ =
      .ok [.read x false (.ofKind none)] := by
    simp [Node.build, Node.ofName, Element.lexeme, hconst, hstrict, Except.map]
  refine ⟨_, _, ?_, .lift hrank (.binary (t := ⟨op.symbol, .operator, 1⟩) (.operator rfl hop)
    (.lift L.rank_le_primary (.name hname)) (.lift (Level.rank_le_primary _) hT)), ?_⟩
  · simpa [arithText] using hx.scansAs (op.scansAs hts)
  · rw [Node.foldlM_build_binary, Tree.elements, Tree.allElements, List.nil_append,
      Node.foldlM_build_singleton, hread]
    exact Except.bind_eq_ok.2 ⟨_, rfl, Except.bind_eq_ok.2
      ⟨_, Node.foldlM_build_append hbuild [_], rfl⟩⟩

theorem build_assign {op : AssignOp} {root : Node} (hx : IsVariable x)
    (hstrict : c.settings.strict = false)
    (h : IsOperand ⟨c.settings, c.registry, scope⟩ .assignment text n)
    (hroot : c.build (assignText x op text) scope = .ok root) :
    c.settings.isConstant x = false ∧
      root = .assign op x none n (.ofKind (op.static? none n.kind?)) := by
  obtain ⟨ts, T, hts, hT, hbuild⟩ := h
  have hname : (⟨x, .identifier, 1⟩ : Token).IsName := ⟨rfl, hx.notLiteral⟩
  have hop : (op.symbol, Role.assign op) ∈ Level.assignments := by cases op <;> decide
  have hscan : ScansAs 1 (assignText x op text).toList
      (⟨x, .identifier, 1⟩ :: ⟨op.symbol, .operator, 1⟩ :: ts) := by
    simpa [assignText] using hx.scansAs (op.scansAs hts)
  have hderives := Derives.binary (t := ⟨op.symbol, .operator, 1⟩) (.assign rfl hop)
    (.lift (Level.rank_le_primary _) (.name hname)) hT
  obtain ⟨es, hes, hroot, -⟩ := Compiler.build_eq_ok.1 hroot
  obtain rfl := Except.ok.inj (hes.symm.trans
    (Element.postfixOfText_of_derives (hscan 0) (.lift (by decide) hderives)))
  have hfold := Node.foldlM_of_ofPostfix hroot
  rw [Node.foldlM_build_binary, Tree.elements, Tree.allElements, List.nil_append,
    Node.foldlM_build_singleton] at hfold
  obtain ⟨stack, hread, hfold⟩ := Except.bind_eq_ok.1 hfold
  obtain rfl := Node.build_name_eq_ok hread
  obtain ⟨stack, hvalue, hassign⟩ := Except.bind_eq_ok.1 hfold
  obtain rfl := Except.ok.inj ((Node.foldlM_build_append hbuild _).symm.trans hvalue)
  obtain ⟨hconst, hnode⟩ := Node.build_assign_eq_ok hassign
  have hpinned : BuildContext.pinned ⟨c.settings, c.registry, scope⟩ x = none := by
    simp [BuildContext.pinned, hconst, hstrict]
  rw [hpinned] at hnode
  exact ⟨hconst, List.singleton_inj.1 hnode⟩

end IsOperand

/-! ## What the two forms come to -/

namespace Node

variable {op : AssignOp} {a : ArithOp} {x : String} {n : Node} {env env' : Env} {v : Value}

/-- Where no kind is fixed, nothing but the binding itself can fail. -/
theorem answer_assign_free :
    (assign op x none n (.ofKind none)).answer env =
      (n.answer env).andThen (Term.bindValue op x) := by
  rw [answer_assign]
  refine Answer.andThen_congr fun w _ => ?_
  rw [Term.bindValue]
  cases assigned op (n.answer env).env.scope x w with
  | error e => rfl
  | ok u =>
    simp only [bindVariable_of_admits (s := .ofKind none) (v := u) (.inl rfl) (.inl rfl)]

/-- A compound assignment looks at the variable when its right side has been run. -/
theorem answer_compound_eq_ok (hop : op.arith? = some a) :
    (assign op x none n (.ofKind none)).answer env = ⟨.ok v, env'⟩ ↔
      ∃ w env₁, n.answer env = ⟨.ok w, env₁⟩ ∧
        (∃ current, env₁.scope.get? x = some current ∧ current.arith a w = .ok v) ∧
        ∃ scope, env₁.scope.set x v = .ok scope ∧ env' = { env₁ with scope } := by
  rw [answer_assign_free, Answer.andThen_eq_ok]
  refine exists_congr fun w => exists_congr fun env₁ => and_congr_right fun _ => ?_
  rw [Term.bindValue_eq_ok, assigned, hop]
  refine and_congr_left fun _ => Except.bind_eq_ok.trans (exists_congr fun current => ?_)
  rw [readVariable_eq_ok]

/-- The operation that is spelled out looks at the variable before the rest is run. -/
theorem answer_expansion_eq_ok :
    (assign .set x none (arith a (read x false (.ofKind none)) n (.ofKind none))
        (.ofKind none)).answer env = ⟨.ok v, env'⟩ ↔
      ∃ w env₁, n.answer env = ⟨.ok w, env₁⟩ ∧
        (∃ current, env.scope.get? x = some current ∧ current.arith a w = .ok v) ∧
        ∃ scope, env₁.scope.set x v = .ok scope ∧ env' = { env₁ with scope } := by
  have hread : (read x false (.ofKind none)).answer env = ⟨readVariable env.scope x, env⟩ := by
    rw [answer_read, Answer.fitting_of_admits fun _ _ => .inl rfl]
  have harith : ∀ {u env₁}, (arith a (read x false (.ofKind none)) n (.ofKind none)).answer env =
      ⟨.ok u, env₁⟩ ↔ ∃ w, n.answer env = ⟨.ok w, env₁⟩ ∧
        ∃ current, env.scope.get? x = some current ∧ current.arith a w = .ok u := by
    intro u env₁
    rw [answer_arith, Answer.fitting_of_admits fun _ _ => .inl rfl, hread, Answer.andThen_eq_ok]
    constructor
    · rintro ⟨current, env₂, hcurrent, hoperand⟩
      obtain ⟨hvalue, rfl⟩ := Answer.mk.inj hcurrent
      obtain ⟨w, hw, hu⟩ := Answer.pass_eq_ok.1 hoperand
      exact ⟨w, hw, current, readVariable_eq_ok.1 hvalue, hu⟩
    · rintro ⟨w, hw, current, hcurrent, hu⟩
      exact ⟨current, env, by rw [readVariable_eq_ok.2 hcurrent],
        Answer.pass_eq_ok.2 ⟨w, hw, hu⟩⟩
  rw [answer_assign_free, Answer.andThen_eq_ok]
  constructor
  · rintro ⟨u, env₁, hu, hbind⟩
    obtain ⟨w, hw, hcurrent⟩ := harith.1 hu
    obtain ⟨hset, hscope⟩ := Term.bindValue_eq_ok.1 hbind
    obtain rfl := Except.ok.inj hset
    exact ⟨w, env₁, hw, hcurrent, hscope⟩
  · rintro ⟨w, env₁, hw, hcurrent, hscope⟩
    exact ⟨v, env₁, harith.2 ⟨w, hw, hcurrent⟩, Term.bindValue_eq_ok.2 ⟨rfl, hscope⟩⟩

end Node

theorem Expression.execute_eq_ok_iff {e : Expression} {env env' : Env} {v : Value} :
    (e.execute env).result = .ok v ∧ (e.execute env).env = env' ↔
      e.root.answer env = ⟨.ok v, env'⟩ :=
  (Answer.mk.injEq ..).symm ▸ Iff.rfl

namespace Compiler

variable {c : Compiler} {op : AssignOp} {a : ArithOp} {x source : String} {scope : Scope}
  {operand compound expansion : Expression}

/-- A text that does not assign to a variable leaves it as it is. -/
theorem get?_execute_of_not_mem_targets {es : List Element}
    (hes : Element.postfixOfText source = .ok es) (hx : x ∉ Element.targets es)
    (h : c.compilePlain source scope = .ok operand) (s : Variables) (history : History) :
    (operand.execute ⟨.store s, history⟩).env.scope.get? x = s.get? x := by
  obtain ⟨T, hT, hin⟩ := Yields.inText (.inl h) hes
  obtain ⟨bindings, hnames, hscope⟩ : (operand.root.answer ⟨.store s, history⟩).env.Bound
      (Term.Target ⟨c.settings, c.registry, scope⟩ T) s :=
    Node.answer_keeps (hin.imp fun _ ht => ht.keeps) ⟨[], by simp, rfl⟩
  have hscope' : (operand.execute ⟨.store s, history⟩).env.scope =
      .store (s.insertAll bindings) := hscope
  rw [hscope']
  refine Variables.get?_insertAll_of_forall_ne fun b hb => ?_
  rintro rfl
  exact hx (by simpa only [Element.targets, hT] using (hnames b hb).1)

/-- Both forms of an assignment come to the same, if the operand leaves the variable as it is. In
settings that are not strict, one of them comes to a value just when the other does, to the same
one, and leaves the same variables. -/
theorem execute_compound_iff (hstrict : c.settings.strict = false) (hop : op.arith? = some a)
    (hx : IsVariable x) (hoperand : c.compilePlain source scope = .ok operand)
    (hcompound : c.compilePlain (assignText x op (groupText source)) scope = .ok compound)
    (hexpansion : c.compilePlain (assignText x .set (arithText x a (groupText source))) scope =
      .ok expansion)
    {env : Env} (hkeeps : ∀ w, (operand.execute env).result = .ok w →
      (operand.execute env).env.scope.get? x = env.scope.get? x) (v : Value) (env' : Env) :
    (compound.execute env).result = .ok v ∧ (compound.execute env).env = env' ↔
      (expansion.execute env).result = .ok v ∧ (expansion.execute env).env = env' := by
  obtain ⟨n, hn, rfl⟩ := Except.map_eq_ok.1 hoperand
  obtain ⟨short, hshort, rfl⟩ := Except.map_eq_ok.1 hcompound
  obtain ⟨long, hlong, rfl⟩ := Except.map_eq_ok.1 hexpansion
  have hgroup := IsOperand.group hn
  obtain ⟨hconst, rfl⟩ := (hgroup.lift (by decide)).build_assign hx hstrict hshort
  obtain ⟨-, rfl⟩ := (hgroup.arith hx hconst hstrict a).build_assign hx hstrict hlong
  have hkind : op.static? none n.kind? = none := by
    rw [AssignOp.static?, hop]
    rfl
  rw [Expression.execute_eq_ok_iff, Expression.execute_eq_ok_iff, Expression.ofNode, hkind,
    Node.answer_compound_eq_ok hop]
  refine Iff.trans ?_ Node.answer_expansion_eq_ok.symm
  refine exists_congr fun w => exists_congr fun env₁ => and_congr_right fun hw => ?_
  obtain ⟨hresult, rfl⟩ := Expression.execute_eq_ok_iff (e := .ofNode n).2 hw
  rw [hkeeps w hresult]

/-- The operand assigns to another variable. -/
theorem execute_compound_iff_other :
    assignText "x" .add (groupText "y = 2") = "x += (y = 2)" ∧
      assignText "x" .set (arithText "x" .add (groupText "y = 2")) = "x = x + (y = 2)" ∧
      ∃ compound expansion, standard.compilePlain "x += (y = 2)" .empty = .ok compound ∧
        standard.compilePlain "x = x + (y = 2)" .empty = .ok expansion ∧
        (compound.execute ⟨.store (.ofList [("x", .integer 1)]), []⟩).result =
          .ok (.integer 3) ∧
        (expansion.execute ⟨.store (.ofList [("x", .integer 1)]), []⟩).result =
          .ok (.integer 3) ∧
        (expansion.execute ⟨.store (.ofList [("x", .integer 1)]), []⟩).env =
          (compound.execute ⟨.store (.ofList [("x", .integer 1)]), []⟩).env := by
  have hshort : assignText "x" .add (groupText "y = 2") = "x += (y = 2)" := by cbv
  have hlong : assignText "x" .set (arithText "x" .add (groupText "y = 2")) =
      "x = x + (y = 2)" := by cbv
  have hes : (Element.postfixOfText "y = 2").map Element.targets = .ok ["y"] := by cbv
  have hoperand : (standard.compilePlain "y = 2" .empty).isOk = true := by cbv
  have hexpansion : (standard.compilePlain "x = x + (y = 2)" .empty).isOk = true := by cbv
  have hcompound : (standard.compilePlain "x += (y = 2)" .empty).map (fun e =>
      (e.execute ⟨.store (.ofList [("x", .integer 1)]), []⟩).result) =
        .ok (.ok (.integer 3)) := by cbv
  have hx : IsVariable "x" := ⟨⟨'x', [], rfl, rfl, rfl⟩, by decide⟩
  obtain ⟨es, hes, htargets⟩ := Except.map_eq_ok.1 hes
  obtain ⟨operand, hoperand⟩ := Except.isOk_iff.1 hoperand
  obtain ⟨expansion, hexpansion⟩ := Except.isOk_iff.1 hexpansion
  obtain ⟨compound, hcompound, hresult⟩ := Except.map_eq_ok.1 hcompound
  rw [← hshort] at hcompound
  rw [← hlong] at hexpansion
  have hsame := (execute_compound_iff rfl rfl hx hoperand hcompound hexpansion
    (fun w _ => get?_execute_of_not_mem_targets hes (by simp [htargets]) hoperand _ [])
    (.integer 3) _).1 ⟨hresult, rfl⟩
  rw [hshort] at hcompound
  rw [hlong] at hexpansion
  exact ⟨hshort, hlong, compound, expansion, hcompound, hexpansion, hresult, hsame⟩

/-- The operand assigns to the variable itself : the compound form adds to what that has bound, and
the long form to what was bound before. -/
theorem execute_compound_same_variable :
    (standard.compilePlain "x += (x = 5)" .empty).map (fun e =>
        (e.execute ⟨.store (.ofList [("x", .integer 1)]), []⟩).result) =
      .ok (.ok (.integer 10)) ∧
    (standard.compilePlain "x = x + (x = 5)" .empty).map (fun e =>
        (e.execute ⟨.store (.ofList [("x", .integer 1)]), []⟩).result) =
      .ok (.ok (.integer 6)) :=
  ⟨by cbv, by cbv⟩

end Compiler

end Formula

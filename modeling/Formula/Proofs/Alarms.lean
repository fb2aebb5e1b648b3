import Formula.Proofs.Recognition
import Formula.Proofs.Runs
import Formula.Proofs.Signatures
import Formula.Proofs.Spelling

/-!
# Clashes are never false alarms

A tree that is not valid holds two kinds that are known and clash where they meet. A run may still
come to a value if it does not get there, and only `&&` and `||` leave an operand out. In a formula
without them every place is reached unless the run fails before, and so a tree that is not valid
fails on every store (`Node.execute_fails_of_validate`).

The argument runs the other way. What is known of a kind is right about every value that a run comes
to (`Node.kind?_of_execute_ok`), so an operation that came to a value had operands that pass its
check. An assignment with an operator does not look at the kind of what it reads, only at that of
what it binds : the kind that comes out of meeting meets the right side again, in itself
(`Kind.promote_of_promote`), and this is what the check of the assignment asks.
-/

namespace Formula

/-! ## Kinds that met -/

namespace Kind

/-- The kind in which two kinds meet has met them already. -/
theorem promote_of_promote {a b k : Kind} (h : promote a b = .ok k) : promote k b = .ok k := by
  cases a <;> cases b <;> cases h <;> rfl

end Kind

/-- Values are only compared if their kinds can be. -/
theorem Value.checkComparison_of_compare {op : CompareOp} {a b : Value} {c : Bool}
    (h : a.compare op b = .ok c) : Kind.checkComparison op a.kind b.kind = .ok () := by
  cases hab : a.isNumeric && b.isNumeric with
  | true =>
    have hab' : (a.kind.isNumeric && b.kind.isNumeric) = true := hab
    rw [compare_of_isNumeric hab] at h
    unfold Kind.checkComparison
    rw [if_pos hab']
    cases hp : Kind.promote a.kind b.kind with
    | error e => simp [align_of_promote_error hp, Except.map] at h
    | ok k => rfl
  | false =>
    rcases @compare_of_not_isNumeric op a b hab with ⟨-, hc⟩ | ⟨hfault, -⟩
    · exact hc
    · simp [hfault] at h

namespace Node

variable {k k' target : Option Kind} {a b v : Value}

/-! ## An operation that comes to a value passes its check -/

theorem checkBoolean_of_boolean {symbol : String} {c : Bool}
    (hk : Kind.AtMost k (some (Value.boolean c).kind)) : Kind.checkBoolean symbol k = .ok () :=
  hk.check rfl rfl

theorem checkSign_of_applySign {g : Sign} (hk : Kind.AtMost k (some a.kind))
    (h : applySign g a = .ok v) : Kind.checkSign g k = .ok () := by
  refine hk.check ?_ rfl
  have hnum : a.kind.isNumeric = true := (applySign_kind h).1
  rw [Kind.checkSign, if_pos hnum]

theorem checkMeeting_of_arith {op : ArithOp} (hk : Kind.AtMost k (some a.kind))
    (hk' : Kind.AtMost k' (some b.kind)) (h : a.arith op b = .ok v) :
    Kind.checkMeeting k k' = .ok () := by
  refine hk.checkBoth ?_ (fun _ => rfl) (fun k => by cases k <;> rfl) hk'
  rw [Kind.checkMeeting, Value.arith_kind h]
  rfl

theorem checkCompared_of_compare {op : CompareOp} {c : Bool} (hk : Kind.AtMost k (some a.kind))
    (hk' : Kind.AtMost k' (some b.kind)) (h : a.compare op b = .ok c) :
    checkCompared op k k' = .ok () := by
  have hmeet : checkCompared op (some a.kind) (some b.kind) = .ok () :=
    Value.checkComparison_of_compare h
  exact hk.checkBoth hmeet (fun _ => rfl) (fun k => by cases k <;> rfl) hk'

/-- A value that was bound had the kind of the variable, if that was fixed, and the right side is
of a kind that leads there. -/
theorem checkAssign_of_assigned {op : AssignOp} {scope : Scope} {name : String}
    (hk : Kind.AtMost k (some a.kind)) (hassigned : assigned op scope name a = .ok v)
    (htarget : Kind.checkTarget name target v.kind = .ok ()) :
    checkAssign op name target k = .ok () := by
  refine checkAssign_atMost hk ?_
  unfold assigned at hassigned
  unfold checkAssign
  cases hop : op.arith? with
  | none =>
    rw [hop] at hassigned
    obtain rfl := Except.ok.inj hassigned
    exact htarget
  | some o =>
    rw [hop] at hassigned
    obtain ⟨current, -, harith⟩ := Except.bind_eq_ok.1 hassigned
    cases target with
    | none => rfl
    | some fixed =>
      obtain rfl : fixed = v.kind := by simpa using (Kind.checkTarget_eq_ok _).1 htarget
      have hmeet : Kind.promote v.kind a.kind = .ok v.kind :=
        Kind.promote_of_promote (Value.arith_kind harith)
      simp only [Kind.checkMeeting, Kind.static?, hmeet]
      exact htarget

end Node

/-! ## Runs that reach every place -/

/-- Not one of the operators that leave an operand out. -/
def Term.Straight : Term → Prop
  | .logic .. => False
  | _ => True

namespace Node

variable {ctx : BuildContext} {es : List Element} {n n' : Node} {env env' : Env} {v : Value}

theorem validateAll_of_executeAll_ok {ns ns' : List Node} {vs : List Value}
    (ih : ∀ n ∈ ns, ∀ {env n' env' v}, n.execute env = ⟨n', env', .ok v⟩ → n.validate = .ok ())
    (h : executeAll ns env = ⟨ns', env', vs, none⟩) : validateAll ns = .ok () := by
  induction ns generalizing env ns' vs with
  | nil => rfl
  | cons n ns ihs =>
    rw [List.forall_mem_cons] at ih
    obtain ⟨n', env₁, v, rest, ws, hn, hns, -, -⟩ := executeAll_cons_ok.1 h
    rw [validateAll, ih.1 hn]
    exact ihs ih.2 hns

/-- A tree without connectives that has come to a value is valid, whatever was in its slots and in
the surroundings. -/
theorem validate_of_execute_ok (hn : n.term.Forall Term.Straight)
    (h : n.execute env = ⟨n', env', .ok v⟩) : n.validate = .ok () := by
  induction n generalizing env n' env' v with
  | literal w => rw [validate]
  | read name c s => rw [validate]
  | logic op l r s ihl ihr => exact (Term.forall_logic.1 hn).1.elim
  | not a s ih =>
    obtain ⟨-, a', b, ha, -, -⟩ := execute_not_ok.1 h
    rw [validate, ih (Term.forall_not.1 hn).2 ha]
    exact checkBoolean_of_boolean (kind?_of_execute_ok ha)
  | sign g a s ih =>
    obtain ⟨-, a', w, ha, hsign, -⟩ := execute_sign_ok.1 h
    rw [validate, ih (Term.forall_sign.1 hn).2 ha]
    exact checkSign_of_applySign (kind?_of_execute_ok ha) hsign
  | arith op l r s ihl ihr =>
    obtain ⟨-, l', env₁, a, r', b, hl, hr, harith, -⟩ := execute_arith_ok.1 h
    obtain ⟨-, hnl, hnr⟩ := Term.forall_arith.1 hn
    rw [validate, ihl hnl hl, ihr hnr hr]
    exact checkMeeting_of_arith (kind?_of_execute_ok hl) (kind?_of_execute_ok hr) harith
  | compare op l r s ihl ihr =>
    obtain ⟨-, l', env₁, a, r', b, c, hl, hr, hcompare, -, -⟩ := execute_compare_ok.1 h
    obtain ⟨-, hnl, hnr⟩ := Term.forall_compare.1 hn
    rw [validate, ihl hnl hl, ihr hnr hr]
    exact checkCompared_of_compare (kind?_of_execute_ok hl) (kind?_of_execute_ok hr) hcompare
  | assign op name target a s ih =>
    obtain ⟨a', env₁, w, scope, ha, hassigned, hbind, -, -⟩ := execute_assign_ok.1 h
    rw [validate, ih (Term.forall_assign.1 hn).2 ha]
    have htarget : Kind.checkTarget name target v.kind = .ok () :=
      (Kind.checkTarget_eq_ok name).2 (bindVariable_eq_ok.1 hbind).2.1
    exact checkAssign_of_assigned (kind?_of_execute_ok ha) hassigned htarget
  | call name f args b s ih =>
    obtain ⟨-, args', env₁, vs, hargs, -, -⟩ := execute_call_ok.1 h
    rw [term, terms_eq_map, Term.forall_call, List.forall_mem_map] at hn
    rw [validate]
    exact validateAll_of_executeAll_ok (fun a ha => ih a ha (hn.2 a ha)) hargs
  | sequence a b s iha ihb =>
    obtain ⟨-, a', env₁, u, b', ha, hb, -⟩ := execute_sequence_ok.1 h
    obtain ⟨-, hna, hnb⟩ := Term.forall_sequence.1 hn
    rw [validate, iha hna ha]
    exact ihb hnb hb

/-! ## Texts without connectives -/

/-- An element that is no connective makes of operands without connectives a tree without one. -/
theorem Makes.straight {e : Element} {operands : List Node} (h : Makes ctx e operands n)
    (hrole : ∀ op, e.role ≠ .logic op) (hs : ∀ a ∈ operands, a.term.Forall Term.Straight) :
    n.term.Forall Term.Straight := by
  cases h with
  | literal _ v => exact Term.forall_literal.2 trivial
  | read => exact Term.forall_read.2 trivial
  | logic hlogic l r => exact absurd hlogic (hrole _)
  | not _ a => exact Term.forall_not.2 ⟨trivial, hs a (by simp)⟩
  | sign _ a => exact Term.forall_sign.2 ⟨trivial, hs a (by simp)⟩
  | arith _ l r => exact Term.forall_arith.2 ⟨trivial, hs l (by simp), hs r (by simp)⟩
  | compare _ l r => exact Term.forall_compare.2 ⟨trivial, hs l (by simp), hs r (by simp)⟩
  | assign _ name s v => exact Term.forall_assign.2 ⟨trivial, hs v (by simp)⟩
  | call =>
    rw [term, terms_eq_map, Term.forall_call, List.forall_mem_map]
    exact ⟨trivial, hs⟩
  | sequence _ a b => exact Term.forall_sequence.2 ⟨trivial, hs a (by simp), hs b (by simp)⟩

/-- Elements of which none is a connective make a tree that holds none. -/
theorem straight_ofPostfix (hlogic : ∀ e ∈ es, ∀ op, e.role ≠ .logic op)
    (h : ofPostfix ctx es = .ok n) : n.term.Forall Term.Straight :=
  property_ofPostfix (fun e he _ _ hn => hn.straight (hlogic e he)) h

end Node

/-- The token is `&&` or `||`. A string that holds these characters is not. -/
def Token.IsConnective (t : Token) : Prop := t.kind = .operator ∧ t.lexeme ∈ ["&&", "||"]

theorem Token.isConnective_of_mem_operators {t : Token} {L : Level} {op : Connective}
    (ht : t.kind = .operator) (h : (t.lexeme, Role.logic op) ∈ L.operators) : t.IsConnective := by
  refine ⟨ht, ?_⟩
  cases L <;> simp_all [Level.operators]

theorem Token.Binds.isConnective {t : Token} {r : Role} {op : Connective} {K M N : Level}
    (h : t.Binds r K M N) (hr : r = .logic op) : t.IsConnective := by
  cases h with
  | semicolon ht => simp at hr
  | operator ht hop => exact isConnective_of_mem_operators ht (hr ▸ hop)
  | assign ht hop =>
    obtain ⟨a, ha⟩ := Level.mem_assignments hop
    simp [ha] at hr

theorem mem_allElements_node {e x : Element} {Ts : List Tree} :
    x ∈ Tree.allElements [.node e Ts] ↔ x ∈ Tree.allElements Ts ∨ x = e := by
  rw [Tree.allElements_singleton, Tree.elements, List.mem_append, List.mem_singleton]

/-- A connective in a derived tree is one of the tokens. -/
theorem Derives.isConnective_of_mem {L : Level} {ts : List Token} {Ts : List Tree}
    (h : Derives L ts Ts) {e : Element} {op : Connective} (he : e ∈ Tree.allElements Ts)
    (hrole : e.role = .logic op) : e.token ∈ ts ∧ e.token.IsConnective := by
  induction h with
  | lift _ _ ih => exact ih he
  | argument _ _ _ ihs ih =>
    rw [Tree.allElements_append, List.mem_append] at he
    rcases he with he | he
    · exact ⟨by simp [(ihs he).1], (ihs he).2⟩
    · exact ⟨by simp [(ih he).1], (ih he).2⟩
  | binary ht _ _ ihl ihr =>
    rw [mem_allElements_node, Tree.allElements, List.mem_append] at he
    rcases he with (hl | hr) | rfl
    · obtain ⟨hmem, hconn⟩ := ihl (by simpa using hl)
      exact ⟨by simp [hmem], hconn⟩
    · exact ⟨by simp [(ihr hr).1], (ihr hr).2⟩
    · exact ⟨by simp, ht.isConnective hrole⟩
  | sign ht _ ih =>
    rw [mem_allElements_node] at he
    rcases he with ha | rfl
    · exact ⟨by simp [(ih ha).1], (ih ha).2⟩
    · rcases Level.mem_signs ht.2 with ⟨g, rfl⟩ | rfl <;> simp at hrole
  | literal | name | bare =>
    obtain rfl : e = _ := by simpa [Tree.allElements] using mem_allElements_node.1 he
    simp at hrole
  | group _ _ _ ih => exact ⟨by simp [(ih he).1], (ih he).2⟩
  | call _ _ _ _ ih =>
    rw [mem_allElements_node] at he
    rcases he with ha | rfl
    · exact ⟨by simp [(ih ha).1], (ih ha).2⟩
    · simp at hrole

namespace Node

variable {ctx : BuildContext} {n : Node}

/-- The elements of a text that make a tree are those of a tree that the grammar derives. -/
theorem derives_of_ofPostfix {source : String} {ts : List Token} {es : List Element}
    (hts : Token.scan source = .ok ts) (hes : Element.postfixOfText source = .ok es)
    (hn : ofPostfix ctx es = .ok n) : ∃ T, Derives .sequence ts [T] ∧ es = T.elements := by
  obtain ⟨T, hT, -⟩ := reduces_of_ofPostfix (Q := fun _ _ => True)
    (fun _ _ _ _ _ _ _ => trivial) hn
  obtain ⟨ts', hts', hout⟩ := Except.bind_eq_ok.1 hes
  obtain rfl := Except.ok.inj (hts.symm.trans hts')
  obtain ⟨xs, hxs, hout⟩ := Except.bind_eq_ok.1 hout
  have hderives := derives_of_reduce hxs hout hT
  exact ⟨T, hderives,
    Except.ok.inj (hes.symm.trans (Element.postfixOfText_of_derives hts hderives))⟩

/-- A clash is no false alarm in a formula without `&&` and `||`. If the tree that is built from a
text is not valid, in whatever settings, then it fails on every store. -/
theorem execute_fails_of_validate {source : String} {ts : List Token} {es : List Element}
    {e : Fault} (hts : Token.scan source = .ok ts) (hlogic : ∀ t ∈ ts, ¬t.IsConnective)
    (hes : Element.postfixOfText source = .ok es) (hn : ofPostfix ctx es = .ok n)
    (hclash : n.validate = .error e) (vars : Variables) (before : History) :
    ∃ fault, (n.execute ⟨.store vars, before⟩).result = .error fault := by
  have hstraight : ∀ x ∈ es, ∀ op, x.role ≠ .logic op := by
    intro x hx op hrole
    obtain ⟨T, hT, rfl⟩ := derives_of_ofPostfix hts hes hn
    obtain ⟨hmem, hconn⟩ := hT.isConnective_of_mem (by simpa using hx) hrole
    exact hlogic x.token hmem hconn
  cases hrun : (n.execute ⟨.store vars, before⟩).result with
  | error fault => exact ⟨fault, rfl⟩
  | ok v =>
    have hvalid : n.validate = .ok () :=
      validate_of_execute_ok (straight_ofPostfix hstraight hn) (execute_eq_iff.2 ⟨hrun, rfl, rfl⟩)
    simp [hvalid] at hclash

/-- The kind of `x` is fixed to that of a 32-bit number, and the sum with a 64-bit one is not of
that kind. -/
theorem execute_fails_of_validate_assign :
    ∃ ts es n e, Token.scan "x += y * 2; x" = .ok ts ∧ (∀ t ∈ ts, ¬t.IsConnective) ∧
      Element.postfixOfText "x += y * 2; x" = .ok es ∧
      ofPostfix ⟨{ Settings.standard with strict := true }, .empty,
        .store (.ofList [("x", .integer 1), ("y", .long 1)])⟩ es = .ok n ∧
      n.validate = .error e ∧
      ∀ vars before, ∃ fault, (n.execute ⟨.store vars, before⟩).result = .error fault := by
  have hts : (Token.scan "x += y * 2; x").map (fun ts =>
      ts.all fun t => t.lexeme != "&&" && t.lexeme != "||") = .ok true := by cbv
  have hes : (Element.postfixOfText "x += y * 2; x").bind (fun es =>
      (ofPostfix ⟨{ Settings.standard with strict := true }, .empty,
        .store (.ofList [("x", .integer 1), ("y", .long 1)])⟩ es).map validate) =
      .ok (.error (.kind (.assigned "x" .integer .long))) := by cbv
  obtain ⟨ts, hts, hall⟩ := Except.map_eq_ok.1 hts
  obtain ⟨es, hes, hn⟩ := Except.bind_eq_ok.1 hes
  obtain ⟨n, hn, hclash⟩ := Except.map_eq_ok.1 hn
  have hlogic : ∀ t ∈ ts, ¬t.IsConnective := by
    rintro t ht ⟨-, hlexeme⟩
    have ht' := List.all_eq_true.1 hall t ht
    simp_all
  exact ⟨ts, es, n, _, hts, hlogic, hes, hn, hclash,
    fun vars before => execute_fails_of_validate hts hlogic hes hn hclash vars before⟩

end Node

end Formula

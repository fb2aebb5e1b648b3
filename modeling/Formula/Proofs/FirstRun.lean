import Formula.Proofs.Building
import Formula.Proofs.Kinds
import Formula.Proofs.Store

/-!
# The first run

The slots of a tree that was just built have kinds but no values : a run may refuse a value
only because its kind was expected to be another. It never does, as long as the constants
have the kinds that they had while compiling (`Node.Built.answer_eq_eval`). What a first run
comes to is therefore what the term means, in strict settings too for a tree whose value is
fixed, since it reads constants only. Form by form, it is so if it is so for the operands
(`Node.Means`).
-/

namespace Formula

/-- A scope in which the constants have the kinds that they have while compiling. -/
def BuildContext.ConstantKinds (ctx : BuildContext) (scope : Scope) : Prop :=
  ctx.scope.SameKinds (fun name => ctx.settings.isConstant name = true) scope

namespace Node

/-- Whether the node can have values of a kind, as far as its kind is known. -/
def Expects (n : Node) (k : Kind) : Prop := n.kind? = none ∨ n.kind? = some k

variable {ctx : BuildContext} {es : List Element} {n l r a b : Node} {env : Env}

theorem allPrecomputable_iff {ns : List Node} :
    allPrecomputable ns = true ↔ ∀ n ∈ ns, n.isPrecomputable = true := by
  induction ns with
  | nil => simp [allPrecomputable]
  | cons n ns ih => simp [allPrecomputable, ih]

/-- No binding of the tree changes the kind of a constant. -/
def KeepsConstants (ctx : BuildContext) (n : Node) : Prop :=
  n.term.Forall (Term.Keeps fun env => ctx.ConstantKinds env.scope)

theorem KeepsConstants.eval (h : n.KeepsConstants ctx) (henv : ctx.ConstantKinds env.scope) :
    ctx.ConstantKinds (n.term.eval env).env.scope :=
  Term.eval_keeps (P := fun env => ctx.ConstantKinds env.scope) h henv

/-- No binding of a tree that was just built changes the kind of a constant. -/
theorem Built.keeps_constants (hb : Built ctx es n) : n.KeepsConstants ctx := by
  refine Term.Forall.imp (fun t ht => ?_) hb.forall_allowed
  cases t with
  | assign op name v =>
    intro env w scope henv hset
    exact henv.set hset fun hconst => by simp [ht.1] at hconst
  | call name f args => exact fun env vs henv => henv
  | _ => trivial

/-! ## Form by form -/

/-- As long as the constants have the kinds that they had while compiling, the tree comes to what
its term means, and to a value of the kind that is expected of it. -/
structure Means (ctx : BuildContext) (n : Node) : Prop where
  answer : ∀ {env}, ctx.ConstantKinds env.scope → n.answer env = n.term.eval env
  expects : ∀ {env v env'}, ctx.ConstantKinds env.scope → n.term.eval env = ⟨.ok v, env'⟩ →
    n.Expects v.kind

/-- A variable whose kind is fixed while compiling has a value of that kind, as long as the
constants have the kinds that they had then. -/
theorem admits_pinned {name : String} {v : Value}
    (henv : ctx.ConstantKinds env.scope)
    (hfree : ctx.settings.strict = false ∨ ctx.settings.isConstant name = true)
    (hv : readVariable env.scope name = .ok v) :
    (Slot.ofKind (ctx.pinned name)).Admits v.kind := by
  unfold BuildContext.pinned
  cases hconst : ctx.settings.isConstant name with
  | false =>
    rcases hfree with hstrict | h
    · exact .inl (by simp [Slot.ofKind, hstrict])
    · simp [hconst] at h
  | true =>
    cases hbound : ctx.scope.get? name with
    | none => exact .inl (by simp [Slot.ofKind])
    | some w =>
      obtain ⟨u, hu, hk⟩ := henv name w hconst hbound
      obtain rfl : u = v := by simpa [readVariable, hu] using hv
      exact .inr (by simp [Slot.ofKind, hk])

/-- The kind of an assignment to a variable that is fixed to none follows from its right side,
if nothing is combined with that. -/
theorem admits_assigned {scope : Scope} {op : AssignOp} {name : String} {v u : Value}
    (hu : assigned op scope name v = .ok u) (hv : n.Expects v.kind) :
    (Slot.ofKind (op.static? none n.kind?)).Admits u.kind := by
  unfold assigned at hu
  unfold AssignOp.static?
  cases hop : op.arith? with
  | none =>
    rw [hop] at hu
    obtain rfl := Except.ok.inj hu
    exact hv
  | some op => exact .inl rfl

/-- The kind of a signed number is that of the number. -/
theorem admits_applySign {g : Sign} {v u : Value} (hu : applySign g v = .ok u)
    (hv : n.Expects v.kind) : (Slot.ofKind (n.kind?.filter Kind.isNumeric)).Admits u.kind := by
  obtain ⟨hnum, hkind⟩ := applySign_kind hu
  rw [hkind]
  rcases hv with hnone | hsome
  · exact .inl (by rw [hnone]; rfl)
  · exact .inr (by rw [hsome]; exact Option.filter_some_pos hnum)

namespace Means

/-- A slot that admits what the term comes to stays out of the way. -/
theorem of_admits {s : Slot} (hkind : n.kind? = s.kind)
    (hanswer : ∀ {env}, ctx.ConstantKinds env.scope → n.answer env = (n.term.eval env).fitting s)
    (hadmits : ∀ {env v env'}, ctx.ConstantKinds env.scope → n.term.eval env = ⟨.ok v, env'⟩ →
      s.Admits v.kind) : n.Means ctx where
  answer {env} henv := by
    rw [hanswer henv]
    refine Answer.fitting_of_admits fun v hv => ?_
    have hrun : n.term.eval env = ⟨.ok v, (n.term.eval env).env⟩ := by rw [← hv]
    exact hadmits henv hrun
  expects henv h := by
    rw [Expects, hkind]
    exact hadmits henv h

theorem literal (v : Value) : (literal v).Means ctx where
  answer _ := answer_literal v _
  expects _ h := by
    rw [term, Term.eval, Answer.mk.injEq] at h
    rw [← Except.ok.inj h.1]
    exact .inr rfl

theorem read {name : String} {c : Bool}
    (hfree : ctx.settings.strict = false ∨ ctx.settings.isConstant name = true) :
    (read name c (.ofKind (ctx.pinned name))).Means ctx := by
  refine of_admits rfl (fun _ => answer_read ..) fun henv h => ?_
  rw [term, Term.eval, Answer.mk.injEq] at h
  exact admits_pinned henv hfree h.1

theorem logic {op : Connective} (hkeeps : l.KeepsConstants ctx) (hl : l.Means ctx)
    (hr : r.Means ctx) : (logic op l r (.ofKind (some .boolean))).Means ctx := by
  refine of_admits (s := .ofKind (some .boolean)) rfl (fun henv => ?_) fun henv h => ?_
  · rw [answer_logic, term, Term.eval, hl.answer henv]
    refine congrArg _ (Answer.andThen_congr fun b _ => ?_)
    rw [Answer.env_pass, hr.answer (hkeeps.eval henv)]
  · rw [term, Term.eval, Answer.andThen_eq_ok] at h
    obtain ⟨b, env₁, -, h⟩ := h
    split at h
    · rw [Answer.mk.injEq] at h
      rw [← Except.ok.inj h.1]
      exact .inr rfl
    · obtain ⟨c, -, rfl⟩ := Answer.map_eq_ok.1 h
      exact .inr rfl

theorem not (ha : a.Means ctx) : (not a (.ofKind (some .boolean))).Means ctx := by
  refine of_admits (s := .ofKind (some .boolean)) rfl (fun henv => ?_) fun henv h => ?_
  · rw [answer_not, term, Term.eval, ha.answer henv]
  · rw [term, Term.eval] at h
    obtain ⟨b, -, rfl⟩ := Answer.map_eq_ok.1 h
    exact .inr rfl

theorem sign {g : Sign} (ha : a.Means ctx) :
    (sign g a (.ofKind (a.kind?.filter Kind.isNumeric))).Means ctx := by
  refine of_admits rfl (fun henv => ?_) fun henv h => ?_
  · rw [answer_sign, term, Term.eval, ha.answer henv]
  · rw [term, Term.eval] at h
    obtain ⟨w, hw, h⟩ := Answer.pass_eq_ok.1 h
    exact admits_applySign h (ha.expects henv hw)

theorem arith {op : ArithOp} (hkeeps : l.KeepsConstants ctx) (hl : l.Means ctx)
    (hr : r.Means ctx) :
    (arith op l r (.ofKind (Kind.static? l.kind? r.kind?))).Means ctx := by
  refine of_admits rfl (fun henv => ?_) fun {env v env'} henv h => ?_
  · rw [answer_arith, term, Term.eval, hl.answer henv]
    refine congrArg _ (Answer.andThen_congr fun b _ => ?_)
    rw [hr.answer (hkeeps.eval henv)]
  · rw [term, Term.eval, Answer.andThen_eq_ok] at h
    obtain ⟨x, env₁, hx, h⟩ := h
    obtain ⟨y, hy, h⟩ := Answer.pass_eq_ok.1 h
    have henv₁ := hkeeps.eval henv
    rw [hx] at henv₁
    exact Value.static_of_arith (hl.expects henv hx) (hr.expects henv₁ hy) h

theorem compare {op : CompareOp} (hkeeps : l.KeepsConstants ctx) (hl : l.Means ctx)
    (hr : r.Means ctx) : (compare op l r (.ofKind (some .boolean))).Means ctx := by
  refine of_admits (s := .ofKind (some .boolean)) rfl (fun henv => ?_) fun henv h => ?_
  · rw [answer_compare, term, Term.eval, hl.answer henv]
    refine congrArg _ (Answer.andThen_congr fun b _ => ?_)
    rw [hr.answer (hkeeps.eval henv)]
  · rw [term, Term.eval, Answer.andThen_eq_ok] at h
    obtain ⟨x, env₁, -, h⟩ := h
    obtain ⟨c, -, rfl⟩ := Answer.map_eq_ok.1 h
    exact .inr rfl

/-- The kind of the variable is open where the settings are not strict, and so only the slot may
have expected another one. -/
theorem assign {op : AssignOp} {name : String} (ha : a.Means ctx) :
    (assign op name none a (.ofKind (op.static? none a.kind?))).Means ctx where
  answer {env} henv := by
    rw [answer_assign, term, Term.eval, ha.answer henv]
    refine Answer.andThen_congr fun w hw => ?_
    rw [Term.bindValue]
    cases hu : assigned op (a.term.eval env).env.scope name w with
    | error fault => rfl
    | ok u =>
      have hw' : a.term.eval env = ⟨.ok w, (a.term.eval env).env⟩ := by rw [← hw]
      have hslot := admits_assigned hu (ha.expects henv hw')
      simp only [bindVariable_of_admits hslot (.inl rfl)]
  expects {env u env'} henv h := by
    rw [term, Term.eval, Answer.andThen_eq_ok] at h
    obtain ⟨w, env₁, hw, h⟩ := h
    obtain ⟨hu, -⟩ := Term.bindValue_eq_ok.1 h
    exact admits_assigned hu (ha.expects henv hw)

theorem answerAll {ns : List Node} (hkeeps : ∀ n ∈ ns, n.KeepsConstants ctx)
    (hns : ∀ n ∈ ns, n.Means ctx) (henv : ctx.ConstantKinds env.scope) :
    answerAll ns env = Term.evalAll (terms ns) env := by
  induction ns generalizing env with
  | nil => rfl
  | cons n ns ih =>
    rw [List.forall_mem_cons] at hkeeps hns
    rw [answerAll_cons, terms, Term.evalAll, hns.1.answer henv]
    refine Answer.andThen_congr fun v _ => ?_
    rw [ih hkeeps.2 hns.2 (hkeeps.1.eval henv)]

/-- Nothing is expected of a call. -/
theorem call {name : String} {f : Overload} {args : List Node} {b : Buffer}
    (hkeeps : ∀ a ∈ args, a.KeepsConstants ctx) (hargs : ∀ a ∈ args, a.Means ctx) :
    (call name f args b (.ofKind none)).Means ctx := by
  refine of_admits rfl (fun henv => ?_) fun _ _ => .inl rfl
  rw [answer_call, term, Term.eval, answerAll hkeeps hargs henv]

theorem sequence (hkeeps : a.KeepsConstants ctx) (ha : a.Means ctx) (hb : b.Means ctx) :
    (sequence a b (.ofKind b.kind?)).Means ctx := by
  refine of_admits rfl (fun henv => ?_) fun henv h => ?_
  · rw [answer_sequence, term, Term.eval, ha.answer henv]
    refine congrArg _ (Answer.andThen_congr fun _ _ => ?_)
    rw [hb.answer (hkeeps.eval henv)]
  · rw [term, Term.eval, Answer.andThen_eq_ok] at h
    obtain ⟨u, env₁, hu, h⟩ := h
    have henv₁ := hkeeps.eval henv
    rw [hu] at henv₁
    exact hb.expects henv₁ h

end Means

/-- A tree that was just built means its term. The settings are not strict, or the value is fixed
while compiling. -/
theorem Built.means (hb : Built ctx es n)
    (hfree : ctx.settings.strict = false ∨ n.isPrecomputable = true) : n.Means ctx := by
  induction hb with
  | literal v => exact .literal v
  | read he hrole hbound => exact .read hfree
  | logic hl hr ihl ihr =>
    simp only [isPrecomputable, Bool.and_eq_true] at hfree
    exact .logic hl.keeps_constants (ihl (hfree.imp_right And.left))
      (ihr (hfree.imp_right And.right))
  | not ha ih => exact .not (ih hfree)
  | sign ha ih => exact .sign (ih hfree)
  | arith hl hr ihl ihr =>
    simp only [isPrecomputable, Bool.and_eq_true] at hfree
    exact .arith hl.keeps_constants (ihl (hfree.imp_right And.left))
      (ihr (hfree.imp_right And.right))
  | compare hl hr ihl ihr =>
    simp only [isPrecomputable, Bool.and_eq_true] at hfree
    exact .compare hl.keeps_constants (ihl (hfree.imp_right And.left))
      (ihr (hfree.imp_right And.right))
  | @assign op e v he hrole hvar _ hv ih =>
    have hstrict : ctx.settings.strict = false := by simpa [isPrecomputable] using hfree
    have hpinned : ctx.pinned e.lexeme = none := by simp [BuildContext.pinned, hvar, hstrict]
    rw [hpinned]
    exact .assign (ih (.inl hstrict))
  | call he hrole _ hf hargs ih =>
    simp only [isPrecomputable, Bool.and_eq_true, allPrecomputable_iff] at hfree
    exact .call (fun a ha => (hargs a ha).keeps_constants)
      fun a ha => ih a ha (hfree.imp_right fun h => h.2 a ha)
  | sequence ha hb iha ihb =>
    simp only [isPrecomputable, Bool.and_eq_true] at hfree
    exact .sequence ha.keeps_constants (iha (hfree.imp_right And.left))
      (ihb (hfree.imp_right And.right))

/-- On its first run, a tree comes to what its term means. The settings are not strict, or the
value is fixed while compiling. -/
theorem Built.answer_eq_eval (hb : Built ctx es n)
    (hfree : ctx.settings.strict = false ∨ n.isPrecomputable = true)
    (henv : ctx.ConstantKinds env.scope) : n.answer env = n.term.eval env :=
  (hb.means hfree).answer henv

end Node

/-! ## Refusals -/

namespace Term

/-- No function that the term itself calls answers with this fault. -/
def NeverAnswers (e : Fault) : Term → Prop
  | call _ f _ => ∀ history args, f.function.answer history args ≠ .error e
  | _ => True

theorem evalAll_ne_error {e : Fault} {ts : List Term} {env : Env}
    (ih : ∀ t ∈ ts, ∀ env, (t.eval env).result ≠ .error e) :
    (evalAll ts env).result ≠ .error e := by
  induction ts generalizing env with
  | nil => simp [evalAll]
  | cons t ts ihs =>
    rw [List.forall_mem_cons] at ih
    rw [evalAll, Ne, Answer.andThen_eq_error]
    rintro (h | ⟨v, -, h⟩)
    · exact ih.1 env h
    · exact ihs ih.2 (Answer.map_eq_error.1 h)

/-- Without slots, only a function of the host can come up with a refusal. -/
theorem eval_ne_refusal {e : Fault} (he : IsRefusal e) {t : Term} {env : Env}
    (ht : t.Forall (NeverAnswers e)) : (t.eval env).result ≠ .error e := by
  have hbool : ∀ {what : String} {v : Value}, v.asBool what ≠ .error e :=
    fun h => ((Value.faultsIn_asBool ..).fault e h).not_isRefusal he
  have hread : ∀ {scope : Scope} {name : String}, Node.readVariable scope name ≠ .error e := by
    intro scope name h
    obtain ⟨fixed, produced, rfl⟩ := he
    simpa using (Node.readVariable_eq_error.1 h).2
  induction t generalizing env with
  | literal v => simp [eval]
  | read name c => exact hread
  | logic op l r ihl ihr =>
    rw [forall_logic] at ht
    rw [eval, Ne, Answer.andThen_eq_error, Answer.pass_eq_error]
    rintro ((h | ⟨v, -, h⟩) | ⟨b, -, h⟩)
    · exact ihl ht.2.1 h
    · exact hbool h
    · split at h
      · simp at h
      · rw [Answer.map_eq_error, Answer.pass_eq_error] at h
        rcases h with h | ⟨v, -, h⟩
        · exact ihr ht.2.2 h
        · exact hbool h
  | not a ih =>
    rw [forall_not] at ht
    rw [eval, Ne, Answer.map_eq_error, Answer.pass_eq_error]
    rintro (h | ⟨v, -, h⟩)
    · exact ih ht.2 h
    · exact hbool h
  | sign s a ih =>
    rw [forall_sign] at ht
    rw [eval, Ne, Answer.pass_eq_error]
    rintro (h | ⟨v, -, h⟩)
    · exact ih ht.2 h
    · exact ((Node.faultsIn_applySign ..).fault e h).not_isRefusal he
  | arith op l r ihl ihr =>
    rw [forall_arith] at ht
    rw [eval, Ne, Answer.andThen_eq_error]
    rintro (h | ⟨v, -, h⟩)
    · exact ihl ht.2.1 h
    · rcases Answer.pass_eq_error.1 h with h | ⟨w, -, h⟩
      · exact ihr ht.2.2 h
      · exact ((Value.faultsIn_arith ..).fault e h).not_isRefusal he
  | compare op l r ihl ihr =>
    rw [forall_compare] at ht
    rw [eval, Ne, Answer.andThen_eq_error]
    rintro (h | ⟨v, -, h⟩)
    · exact ihl ht.2.1 h
    · rcases Answer.pass_eq_error.1 (Answer.map_eq_error.1 h) with h | ⟨w, -, h⟩
      · exact ihr ht.2.2 h
      · exact ((Value.faultsIn_compare ..).fault e h).not_isRefusal he
  | assign op name v ih =>
    rw [forall_assign] at ht
    rw [eval, Ne, Answer.andThen_eq_error]
    rintro (h | ⟨w, -, h⟩)
    · exact ih ht.2 h
    · rcases bindValue_eq_error.1 h with h | ⟨u, -, h⟩
      · obtain ⟨a, -, h | ⟨u, -, h⟩⟩ := Node.assigned_eq_error.1 h
        · exact hread h
        · exact ((Value.faultsIn_arith ..).fault e h).not_isRefusal he
      · obtain ⟨c, rfl⟩ := Scope.runtime_of_set h
        obtain ⟨fixed, produced, he⟩ := he
        simp at he
  | call name f args ih =>
    rw [forall_call] at ht
    rw [eval, Ne, Answer.andThen_eq_error]
    rintro (h | ⟨vs, -, h⟩)
    · exact evalAll_ne_error (fun a ha env => ih a ha (ht.2 a ha)) h
    · exact ht.1 _ _ h
  | sequence a b iha ihb =>
    rw [forall_sequence] at ht
    rw [eval, Ne, Answer.andThen_eq_error]
    rintro (h | ⟨v, -, h⟩)
    · exact iha ht.2.1 h
    · exact ihb ht.2.2 h

end Term

namespace Compiler

/-- The first run of an expression that is not strict and not optimized comes to what its
term means : the same value or the same fault, and the same surroundings. A value is refused
only if a function that the host has registered says so itself. -/
theorem execute_plain_eq_eval {c : Compiler} {source : String} {scope : Scope}
    {e : Expression} {env : Env} (hstrict : c.settings.strict = false)
    (h : c.compilePlain source scope = .ok e)
    (henv : BuildContext.ConstantKinds ⟨c.settings, c.registry, scope⟩ env.scope) :
    (e.execute env).result = (e.root.term.eval env).result ∧
      (e.execute env).env = (e.root.term.eval env).env ∧
        ∀ fault, IsRefusal fault → (e.execute env).result = .error fault →
          ∃ f ∈ c.registry.entries.map Prod.snd, ∃ history args,
            f.answer history args = .error fault := by
  obtain ⟨root, hroot, rfl⟩ := Except.map_eq_ok.1 h
  obtain ⟨es, -, hbuilt, -⟩ := build_built hroot
  have hrun : root.answer env = root.term.eval env :=
    hbuilt.answer_eq_eval (.inl hstrict) henv
  refine ⟨congrArg Answer.result hrun, congrArg Answer.env hrun, fun fault hfault hresult => ?_⟩
  by_contra hnone
  refine Term.eval_ne_refusal hfault ?_ ((congrArg Answer.result hrun).symm.trans hresult)
  refine Term.Forall.imp (fun t ht => ?_) hbuilt.forall_allowed
  cases t with
  | call name f args =>
    intro history vs hanswer
    refine hnone ⟨f.function, List.mem_map.2 ⟨(name, f.function), ?_, rfl⟩, history, vs, hanswer⟩
    exact List.mem_of_getElem? (Registry.getElem?_of_resolve ht)
  | _ => trivial

/-- The constant `k` is `1` while compiling and `5` in the run. -/
theorem execute_plain_eq_eval_assign :
    ∃ e, compilePlain ⟨Settings.standard.withConstant "k", .empty⟩ "x = k + 1; x * 2"
        (.store (.ofList [("k", .integer 1)])) = .ok e ∧
      (e.execute ⟨.store (.ofList [("k", .integer 5)]), []⟩).result =
        (e.root.term.eval ⟨.store (.ofList [("k", .integer 5)]), []⟩).result := by
  have hok : (compilePlain ⟨Settings.standard.withConstant "k", .empty⟩ "x = k + 1; x * 2"
      (.store (.ofList [("k", .integer 1)]))).isOk = true := by cbv
  obtain ⟨e, h⟩ := Except.isOk_iff.1 hok
  refine ⟨e, h, (execute_plain_eq_eval rfl h ?_).1⟩
  intro name v hconst hv
  obtain rfl : name = "k" := by
    simpa [Settings.withConstant, Settings.isConstant, Settings.standard,
      Settings.insertName] using hconst
  obtain rfl : v = .integer 1 := (Option.some.inj hv).symm
  exact ⟨.integer 5, rfl, rfl⟩

end Compiler

end Formula

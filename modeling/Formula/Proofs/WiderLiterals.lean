import Formula.Proofs.Failures
import Formula.Proofs.Rebuilding
import Formula.Proofs.Widening

/-!
# Wider literals

Settings with whole literals of 64 bits make the same tree of a text as others, with wider
literals in it. Where the first run of the one tree comes to a value, that of the other comes
to a wider value and leaves wider variables (`Node.Rebuilt.answersWider`). The settings must
not be strict. Then the kind of a slot is known before the run only where it follows from
literals and constants, and what the wider tree knows it finds (`Compiler.widen_literals`).

A constant is fixed to the kind that it has while compiling. It is never bound by a run, and so
it is not widened.
-/

namespace Formula

/-! ## Variables -/

/-- The same number bound to a wider value. -/
def Variables.BindsWider (b b' : Ident × Value) : Prop := b'.1 = b.1 ∧ b.2.Widens b'.2

/-- The same names, bound to wider values one by one. -/
structure Variables.Widens (vars vars' : Variables) : Prop where
  names : vars'.names = vars.names
  bindings : List.Forall₂ BindsWider vars.bindings vars'.bindings

namespace Variables

variable {vars vars' : Variables} {bs bs' : List (Ident × Value)} {id : Ident} {v w : Value}
  {name : String}

theorem Widens.refl (vars : Variables) : vars.Widens vars :=
  ⟨rfl, List.forall₂_same.2 fun b _ => ⟨rfl, .refl b.2⟩⟩

theorem lookup_widens (h : List.Forall₂ BindsWider bs bs')
    (hv : bs.lookup id = some v) : ∃ w, bs'.lookup id = some w ∧ v.Widens w := by
  induction h with
  | nil => cases hv
  | @cons b b' bs bs' hb _ ih =>
    obtain ⟨i, x⟩ := b
    obtain ⟨j, y⟩ := b'
    obtain ⟨hj, hwide⟩ := hb
    obtain rfl : j = i := hj
    rw [List.lookup_cons] at hv ⊢
    cases hid : id == j with
    | true =>
      rw [hid] at hv
      obtain rfl := Option.some.inj hv
      exact ⟨y, rfl, hwide⟩
    | false =>
      rw [hid] at hv
      exact ih hv

theorem rebind_widens (h : List.Forall₂ BindsWider bs bs') (hv : v.Widens w) :
    List.Forall₂ BindsWider (rebind id v bs) (rebind id w bs') := by
  induction h with
  | nil => exact .cons ⟨rfl, hv⟩ .nil
  | @cons b b' bs bs' hb hbs ih =>
    obtain ⟨i, x⟩ := b
    obtain ⟨_, y⟩ := b'
    obtain ⟨rfl, hwide⟩ := hb
    rw [rebind, rebind]
    split
    · exact .cons ⟨rfl, hv⟩ hbs
    · exact .cons ⟨rfl, hwide⟩ ih

theorem Widens.get? (h : vars.Widens vars') (hv : vars.get? name = some v) :
    ∃ w, vars'.get? name = some w ∧ v.Widens w := by
  obtain ⟨id, hid, hv⟩ := Option.bind_eq_some_iff.1 hv
  obtain ⟨w, hw, hwide⟩ := lookup_widens h.bindings hv
  exact ⟨w, Option.bind_eq_some_iff.2 ⟨id, h.names ▸ hid, hw⟩, hwide⟩

theorem Widens.insert (h : vars.Widens vars') (hv : v.Widens w) :
    (vars.insert name v).Widens (vars'.insert name w) := by
  have hid : (vars'.names.intern name).1 = (vars.names.intern name).1 := by rw [h.names]
  refine ⟨congrArg (fun names : Names => (names.intern name).2) h.names, ?_⟩
  show List.Forall₂ _ (rebind (vars.names.intern name).1 v vars.bindings)
    (rebind (vars'.names.intern name).1 w vars'.bindings)
  rw [hid]
  exact rebind_widens h.bindings hv

end Variables

/-- Stores in which the second has wider variables, but the same constants. -/
structure Env.Widens (settings : Settings) (env env' : Env) : Prop where
  store : ∃ vars vars', env.scope = .store vars ∧ env'.scope = .store vars' ∧ vars.Widens vars'
  constant : ∀ name, settings.isConstant name = true →
    env'.scope.get? name = env.scope.get? name

namespace Env.Widens

variable {settings : Settings} {env env' : Env} {scope : Scope} {name : String} {v w : Value}

theorem readVariable (h : Env.Widens settings env env') (name : String) :
    Leads Value.Widens (Node.readVariable env.scope name)
      (Node.readVariable env'.scope name) := by
  intro v hv
  obtain ⟨vars, vars', hs, hs', hwide⟩ := h.store
  rw [Node.readVariable_eq_ok, hs] at hv
  obtain ⟨w, hw, hvw⟩ := hwide.get? hv
  exact ⟨w, Node.readVariable_eq_ok.2 (hs' ▸ hw), hvw⟩

theorem set (h : Env.Widens settings env env') (hname : settings.isConstant name = false)
    (hv : v.Widens w) (hset : env.scope.set name v = .ok scope) :
    ∃ scope', env'.scope.set name w = .ok scope' ∧
      Env.Widens settings { env with scope } { env' with scope := scope' } := by
  obtain ⟨vars, vars', hs, hs', hwide⟩ := h.store
  have hset' : env'.scope.set name w = .ok (.store (vars'.insert name w)) := by
    rw [hs']
    rfl
  have hscope : scope = .store (vars.insert name v) := by
    rw [hs] at hset
    exact (Except.ok.inj hset).symm
  refine ⟨_, hset', ⟨_, _, hscope, rfl, hwide.insert hv⟩, fun other hother => ?_⟩
  have hne : other ≠ name := by
    rintro rfl
    simp [hname] at hother
  rw [Scope.get?_of_set hset' other, Scope.get?_of_set hset other, if_neg hne, if_neg hne]
  exact h.constant other hother

end Env.Widens

/-! ## Answers -/

namespace Answer

variable {α α' β β' : Type} {R : Env → Env → Prop} {P : α → β → Prop} {Q : α' → β' → Prop}

/-- Where the first comes to something, the second does. What they come to is related, and so
are the surroundings that they leave. -/
def Leads (R : Env → Env → Prop) (P : α → β → Prop) (a : Answer α) (b : Answer β) : Prop :=
  ∀ v env, a = ⟨.ok v, env⟩ → ∃ w env', b = ⟨.ok w, env'⟩ ∧ P v w ∧ R env env'

namespace Leads

variable {a : Answer α} {b : Answer β}

theorem of_result {r : Except Fault α} {r' : Except Fault β} {env env' : Env}
    (h : Formula.Leads P r r') (henv : R env env') : Leads R P ⟨r, env⟩ ⟨r', env'⟩ := by
  intro v env₁ hv
  obtain ⟨rfl, rfl⟩ := Answer.mk.inj hv
  obtain ⟨w, rfl, hvw⟩ := h v rfl
  exact ⟨w, env', rfl, hvw, henv⟩

theorem pass {f : α → Except Fault α'} {g : β → Except Fault β'} (h : a.Leads R P b)
    (hf : ∀ v w, P v w → Formula.Leads Q (f v) (g w)) : (a.pass f).Leads R Q (b.pass g) := by
  intro v' env hpass
  obtain ⟨v, rfl, hv'⟩ := pass_eq_ok.1 hpass
  obtain ⟨w, env', rfl, hvw, henv⟩ := h v env rfl
  obtain ⟨w', hw', hvw'⟩ := hf v w hvw v' hv'
  exact ⟨w', env', pass_eq_ok.2 ⟨w, rfl, hw'⟩, hvw', henv⟩

theorem map {f : α → α'} {g : β → β'} (h : a.Leads R P b) (hf : ∀ v w, P v w → Q (f v) (g w)) :
    (a.map f).Leads R Q (b.map g) := by
  intro v' env hv'
  obtain ⟨v, rfl, rfl⟩ := map_eq_ok.1 hv'
  obtain ⟨w, env', rfl, hvw, henv⟩ := h v env rfl
  exact ⟨g w, env', rfl, hf v w hvw, henv⟩

theorem andThen {f : α → Env → Answer α'} {g : β → Env → Answer β'} (h : a.Leads R P b)
    (hf : ∀ v w env env', P v w → R env env' → (f v env).Leads R Q (g w env')) :
    (a.andThen f).Leads R Q (b.andThen g) := by
  intro v' env hv'
  obtain ⟨v, env₁, rfl, hv'⟩ := andThen_eq_ok.1 hv'
  obtain ⟨w, env', rfl, hvw, henv⟩ := h v env₁ rfl
  exact hf v w env₁ env' hvw henv v' env hv'

/-- A slot that admits what the second comes to stays out of the way. -/
theorem fitting {P : Value → Value → Prop} {a b : Answer Value} {s s' : Slot}
    (h : a.Leads R (fun v w => P v w ∧ s'.Admits w.kind) b) :
    (a.fitting s).Leads R P (b.fitting s') := by
  intro v env hv
  obtain ⟨rfl, -⟩ := fitting_eq_ok.1 hv
  obtain ⟨w, env', rfl, ⟨hvw, hadmits⟩, henv⟩ := h v env rfl
  exact ⟨w, env', fitting_eq_ok.2 ⟨rfl, hadmits⟩, hvw, henv⟩

end Leads

end Answer

/-! ## Trees -/

/-- Constants are fixed to the same kind, and other variables to none. -/
def PinsConstants (constant : Bool) (k k' : Option Kind) : Prop :=
  k' = k ∧ (constant = false → k = none)

namespace Node

variable {settings : Settings} {ctx : BuildContext} {n m : Node}

/-- Where a run of the first tree comes to a value, a run of the second one comes to a wider
value and leaves wider variables. -/
def AnswersWider (settings : Settings) (n m : Node) : Prop :=
  ∀ env env', Env.Widens settings env env' →
    (n.answer env).Leads (Env.Widens settings) Value.Widens (m.answer env')

/-- The value is of the kind that is expected of the tree. -/
theorem AnswersWider.expects (h : n.AnswersWider settings m) {env env' : Env}
    (henv : Env.Widens settings env env') :
    (n.answer env).Leads (Env.Widens settings) (fun v w => v.Widens w ∧ m.Expects w.kind)
      (m.answer env') := by
  intro v env₁ hv
  obtain ⟨w, env₂, hw, hvw, henv₁⟩ := h env env' henv v env₁ hv
  exact ⟨w, env₂, hw, ⟨hvw, kind?_of_answer_ok (by rw [hw])⟩, henv₁⟩

theorem assigned_widens {env env' : Env} {op : AssignOp} {name : String} {v w : Value}
    (henv : Env.Widens settings env env') (hv : v.Widens w) :
    Leads Value.Widens (assigned op env.scope name v) (assigned op env'.scope name w) := by
  unfold assigned
  cases op.arith? with
  | none => exact .ok hv
  | some op => exact (henv.readVariable name).bind fun _ _ h => Value.arith_widens op h hv

namespace AnswersWider

variable {l l' r r' a a' b b' : Node} {args args' : List Node}

theorem literal {v w : Value} (h : v.Widens w) :
    (literal v).AnswersWider settings (.literal w) := by
  intro env env' henv
  rw [answer_literal, answer_literal]
  exact .of_result (.ok h) henv

theorem read {name : String} {c : Bool} {k k' : Option Kind} (hk : PinsConstants c k k')
    (hc : c = true → settings.isConstant name = true) :
    (read name c (.ofKind k)).AnswersWider settings (.read name c (.ofKind k')) := by
  intro env env' henv
  rw [answer_read, answer_read]
  obtain ⟨rfl, hfree⟩ := hk
  cases c with
  | false =>
    obtain rfl := hfree rfl
    refine .fitting (.of_result (fun v hv => ?_) henv)
    obtain ⟨w, hw, hvw⟩ := henv.readVariable name v hv
    exact ⟨w, hw, hvw, .inl rfl⟩
  | true =>
    -- the slot may know the kind of a constant, but a constant is the same in both stores
    intro v env₁ hv
    obtain ⟨ha, hadmits⟩ := Answer.fitting_eq_ok.1 hv
    obtain ⟨hread, rfl⟩ := Answer.mk.inj ha
    refine ⟨v, env', Answer.fitting_eq_ok.2 ⟨?_, hadmits⟩, .refl v, henv⟩
    rw [readVariable_congr (henv.constant name (hc rfl)), hread]

theorem logic {op : Connective} {s : Slot} (hl : l.AnswersWider settings l')
    (hr : r.AnswersWider settings r') :
    (logic op l r s).AnswersWider settings (.logic op l' r' (.ofKind (some .boolean))) := by
  intro env env' henv
  rw [answer_logic, answer_logic]
  refine .fitting (((hl env env' henv).pass fun _ _ h => h.asBool op.symbol).andThen ?_)
  rintro b _ env env' rfl henv
  split
  · exact .of_result (.ok ⟨.refl _, .inr rfl⟩) henv
  · refine ((hr env env' henv).pass fun _ _ h => h.asBool op.symbol).map ?_
    rintro c _ rfl
    exact ⟨.refl _, .inr rfl⟩

theorem not {s : Slot} (ha : a.AnswersWider settings a') :
    (not a s).AnswersWider settings (.not a' (.ofKind (some .boolean))) := by
  intro env env' henv
  rw [answer_not, answer_not]
  refine .fitting (((ha env env' henv).pass fun _ _ h => h.asBool "!").map ?_)
  rintro b _ rfl
  exact ⟨.refl _, .inr rfl⟩

theorem sign {g : Sign} {s : Slot} (ha : a.AnswersWider settings a') :
    (sign g a s).AnswersWider settings
      (.sign g a' (.ofKind (a'.kind?.filter Kind.isNumeric))) := by
  intro env env' henv
  rw [answer_sign, answer_sign]
  refine .fitting ((ha.expects henv).pass ?_)
  rintro v w ⟨hvw, hkind⟩ u hu
  obtain ⟨x, hx, hux⟩ := Value.applySign_widens g hvw u hu
  exact ⟨x, hx, hux, admits_applySign hx hkind⟩

theorem arith {op : ArithOp} {s : Slot} (hl : l.AnswersWider settings l')
    (hr : r.AnswersWider settings r') :
    (arith op l r s).AnswersWider settings
      (.arith op l' r' (.ofKind (Kind.static? l'.kind? r'.kind?))) := by
  intro env env' henv
  rw [answer_arith, answer_arith]
  refine .fitting ((hl.expects henv).andThen fun v w env env' hvw henv => ?_)
  refine (hr.expects henv).pass fun x y hxy u hu => ?_
  obtain ⟨z, hz, huz⟩ := Value.arith_widens op hvw.1 hxy.1 u hu
  exact ⟨z, hz, huz, Value.static_of_arith hvw.2 hxy.2 hz⟩

theorem compare {op : CompareOp} {s : Slot} (hl : l.AnswersWider settings l')
    (hr : r.AnswersWider settings r') :
    (compare op l r s).AnswersWider settings
      (.compare op l' r' (.ofKind (some .boolean))) := by
  intro env env' henv
  rw [answer_compare, answer_compare]
  refine .fitting ((hl env env' henv).andThen fun v w env env' hvw henv => ?_)
  refine ((hr env env' henv).pass fun x y hxy => Value.compare_widens op hvw hxy).map ?_
  rintro c _ rfl
  exact ⟨.refl _, .inr rfl⟩

theorem assign {op : AssignOp} {name : String} {s : Slot}
    (hname : settings.isConstant name = false) (ha : a.AnswersWider settings a') :
    (assign op name none a s).AnswersWider settings
      (.assign op name none a' (.ofKind (op.static? none a'.kind?))) := by
  intro env env' henv
  rw [answer_assign, answer_assign]
  refine (ha.expects henv).andThen fun v w env env' hvw henv => ?_
  intro u env₁ hu
  cases hx : assigned op env.scope name v with
  | error e => simp [hx] at hu
  | ok x =>
    obtain ⟨y, hy, hxy⟩ := assigned_widens henv hvw.1 x hx
    simp only [hx] at hu
    cases hb : bindVariable env.scope name none s x with
    | error e => simp [hb] at hu
    | ok scope =>
      rw [hb, Answer.mk.injEq, Except.ok.injEq] at hu
      obtain ⟨rfl, rfl⟩ := hu
      obtain ⟨scope', hset, henv'⟩ := henv.set hname hxy (bindVariable_eq_ok.1 hb).2.2
      have hbind : bindVariable env'.scope name none (.ofKind (op.static? none a'.kind?)) y =
          .ok scope' := bindVariable_eq_ok.2 ⟨admits_assigned hy hvw.2, .inl rfl, hset⟩
      exact ⟨y, { env' with scope := scope' }, by simp only [hy, hbind], hxy, henv'⟩

theorem answerAll (h : List.Forall₂ (AnswersWider settings) args args') {env env' : Env}
    (henv : Env.Widens settings env env') :
    (answerAll args env).Leads (Env.Widens settings) (List.Forall₂ Value.Widens)
      (answerAll args' env') := by
  induction h generalizing env env' with
  | nil => exact .of_result (.ok .nil) henv
  | cons ha _ ih =>
    rw [answerAll_cons, answerAll_cons]
    exact (ha env env' henv).andThen fun v w env env' hvw henv =>
      (ih henv).map fun vs ws hvws => .cons hvw hvws

theorem call {name : String} {f : Overload} {buffer : Buffer} {s : Slot}
    (hf : f.function.Widening) (h : List.Forall₂ (AnswersWider settings) args args') :
    (call name f args buffer s).AnswersWider settings
      (.call name f args' buffer (.ofKind none)) := by
  intro env env' henv
  rw [answer_call, answer_call]
  refine .fitting ((answerAll h henv).andThen fun vs ws env env' hvws henv => ?_)
  refine .of_result (fun v hv => ?_) ⟨henv.store, henv.constant⟩
  obtain ⟨w, hw, hvw⟩ := hf _ _ vs ws hvws v hv
  exact ⟨w, hw, hvw, .inl rfl⟩

theorem sequence {s : Slot} (ha : a.AnswersWider settings a')
    (hb : b.AnswersWider settings b') :
    (sequence a b s).AnswersWider settings (.sequence a' b' (.ofKind b'.kind?)) := by
  intro env env' henv
  rw [answer_sequence, answer_sequence]
  exact .fitting ((ha env env' henv).andThen fun _ _ _ _ _ henv => hb.expects henv)

end AnswersWider

/-- A tree with wider literals comes to wider values. -/
theorem Rebuilt.answersWider
    (hcalls : ∀ e ∈ ctx.registry.entries, e.2.Widening) (h : Rebuilt Value.Widens PinsConstants n m)
    (hclean : n.term.Forall (Term.Clean ctx)) : n.AnswersWider ctx.settings m := by
  induction h with
  | literal h => exact .literal h
  | read h =>
    rw [term, Term.forall_read] at hclean
    exact .read h fun hc => (hclean hc).1
  | logic _ _ ihl ihr =>
    rw [term, Term.forall_logic] at hclean
    exact .logic (ihl hclean.2.1) (ihr hclean.2.2)
  | not _ ih =>
    rw [term, Term.forall_not] at hclean
    exact .not (ih hclean.2)
  | sign _ ih =>
    rw [term, Term.forall_sign] at hclean
    exact .sign (ih hclean.2)
  | arith _ _ ihl ihr =>
    rw [term, Term.forall_arith] at hclean
    exact .arith (ihl hclean.2.1) (ihr hclean.2.2)
  | compare _ _ ihl ihr =>
    rw [term, Term.forall_compare] at hclean
    exact .compare (ihl hclean.2.1) (ihr hclean.2.2)
  | assign ht _ ih =>
    rw [term, Term.forall_assign] at hclean
    obtain ⟨rfl, hfree⟩ := ht
    obtain rfl := hfree rfl
    exact .assign hclean.1 (ih hclean.2)
  | @call name f args args' hlen _ ih =>
    rw [term, terms_eq_map, Term.forall_call, List.forall_mem_map] at hclean
    obtain ⟨entry, hf⟩ := hclean.1
    refine .call (hcalls _ (List.mem_of_getElem? hf)) (List.forall₂_iff_zip.2 ⟨hlen, ?_⟩)
    exact fun {a a'} hmem => ih a a' hmem (hclean.2 a (List.of_mem_zip hmem).1)
  | sequence _ _ iha ihb =>
    rw [term, Term.forall_sequence] at hclean
    exact .sequence (iha hclean.2.1) (ihb hclean.2.2)

end Node

namespace Compiler

variable {c : Compiler} {source : String} {scope : Scope}

/-- The compiler whose whole literals are of 64 bits. -/
def withLongs (c : Compiler) : Compiler :=
  { c with settings := { c.settings with intPrecision := .i64 } }

theorem rebuilds_withLongs (hstrict : c.settings.strict = false) (scope : Scope) :
    BuildContext.Rebuilds Value.Widens PinsConstants ⟨c.settings, c.registry, scope⟩
      ⟨c.withLongs.settings, c.registry, scope⟩ where
  isConstant _ := rfl
  registry := rfl
  scope := rfl
  literal t kind v hv := by
    cases kind with
    | integer => exact t.integerValue_widens c.settings.intPrecision v hv
    | _ => exact ⟨v, hv, .refl v⟩
  pinned name := by
    refine ⟨rfl, fun hfree => ?_⟩
    simp [BuildContext.pinned, hstrict, hfree]

/-- Widening whole literals is safe. In settings that are not strict, with the functions that
are always there, let a text compile and its first run in a store come to a value. With whole
literals of 64 bits the text compiles too, and its first run in that store comes to the same
value, or to the same whole number in 64 bits. The variables it leaves are the same up to that,
one by one. -/
theorem widen_literals {plain : Expression} {vars : Variables} {history : History} {v : Value}
    (hregistry : c.registry = .builtins) (hstrict : c.settings.strict = false)
    (hplain : c.compilePlain source scope = .ok plain)
    (hv : (plain.execute ⟨.store vars, history⟩).result = .ok v) :
    ∃ wide, c.withLongs.compilePlain source scope = .ok wide ∧ ∀ history', ∃ w vars₁ vars₂,
      (wide.execute ⟨.store vars, history'⟩).result = .ok w ∧ v.Widens w ∧
      (plain.execute ⟨.store vars, history⟩).env.scope = .store vars₁ ∧
      (wide.execute ⟨.store vars, history'⟩).env.scope = .store vars₂ ∧ vars₁.Widens vars₂ := by
  obtain ⟨n, hn, rfl⟩ := Except.map_eq_ok.1 hplain
  obtain ⟨es, hes, hroot, -⟩ := build_eq_ok.1 hn
  obtain ⟨es', -, hbuilt, -⟩ := build_built hn
  obtain ⟨m, hm, hwider⟩ := Node.ofPostfix_rebuilt (rebuilds_withLongs hstrict scope) hroot
  have hlenient : c.withLongs.settings.strict ≠ true := by simp [withLongs, hstrict]
  have hcompile : c.withLongs.build source scope = .ok m :=
    build_eq_ok.2 ⟨es, hes, hm, fun h => absurd h hlenient⟩
  refine ⟨.ofNode m, Except.map_eq_ok.2 ⟨m, hcompile, rfl⟩, fun history' => ?_⟩
  have hcalls : ∀ e ∈ c.registry.entries, e.2.Widening := by
    rw [hregistry]
    exact Registry.widening_builtins
  have hstart : Env.Widens c.settings ⟨.store vars, history⟩ ⟨.store vars, history'⟩ :=
    ⟨⟨vars, vars, rfl, rfl, .refl vars⟩, fun _ _ => rfl⟩
  have hanswer : n.answer ⟨.store vars, history⟩ =
      ⟨.ok v, (n.execute ⟨.store vars, history⟩).env⟩ := by rw [← hv]; rfl
  obtain ⟨w, env, hw, hvw, ⟨vars₁, vars₂, h₁, h₂, hwide⟩, -⟩ :=
    hwider.answersWider hcalls hbuilt.clean _ _ hstart v _ hanswer
  have hresult : (m.answer ⟨.store vars, history'⟩).result = .ok w := by rw [hw]
  have henv : (m.answer ⟨.store vars, history'⟩).env.scope = .store vars₂ := by rw [hw, h₂]
  exact ⟨w, vars₁, vars₂, hresult, hvw, h₁, henv, hwide⟩

/-- The literals make a sum and a maximum of 64 bits, beside a constant that stays of 32. -/
theorem widen_literals_max :
    ∃ plain wide vars₁ vars₂,
      compilePlain ⟨Settings.standard.withConstant "k", .builtins⟩ "y = x + 2; max(y, k, 4)"
        (.store (.ofList [("k", .integer 3)])) = .ok plain ∧
      (withLongs ⟨Settings.standard.withConstant "k", .builtins⟩).compilePlain
        "y = x + 2; max(y, k, 4)" (.store (.ofList [("k", .integer 3)])) = .ok wide ∧
      (plain.execute ⟨.store (.ofList [("k", .integer 3), ("x", .integer 5)]), []⟩).result =
        .ok (.integer 7) ∧
      (wide.execute ⟨.store (.ofList [("k", .integer 3), ("x", .integer 5)]), []⟩).result =
        .ok (.long 7) ∧
      (plain.execute ⟨.store (.ofList [("k", .integer 3), ("x", .integer 5)]), []⟩).env.scope =
        .store vars₁ ∧
      (wide.execute ⟨.store (.ofList [("k", .integer 3), ("x", .integer 5)]), []⟩).env.scope =
        .store vars₂ ∧
      vars₁.Widens vars₂ := by
  have hplain : (compilePlain ⟨Settings.standard.withConstant "k", .builtins⟩
      "y = x + 2; max(y, k, 4)" (.store (.ofList [("k", .integer 3)]))).map (fun e =>
        (e.execute ⟨.store (.ofList [("k", .integer 3), ("x", .integer 5)]), []⟩).result) =
      .ok (.ok (.integer 7)) := by cbv
  have hwide : ((withLongs ⟨Settings.standard.withConstant "k", .builtins⟩).compilePlain
      "y = x + 2; max(y, k, 4)" (.store (.ofList [("k", .integer 3)]))).map (fun e =>
        (e.execute ⟨.store (.ofList [("k", .integer 3), ("x", .integer 5)]), []⟩).result) =
      .ok (.ok (.long 7)) := by cbv
  obtain ⟨plain, hplain, hv⟩ := Except.map_eq_ok.1 hplain
  obtain ⟨wide, hcompile, hruns⟩ := widen_literals rfl rfl hplain hv
  obtain ⟨w, vars₁, vars₂, -, -, h₁, h₂, hvars⟩ := hruns []
  rw [hcompile] at hwide
  exact ⟨plain, wide, vars₁, vars₂, hplain, hcompile, hv, Except.ok.inj hwide, h₁, h₂, hvars⟩

end Compiler

end Formula

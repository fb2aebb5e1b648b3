import Formula.Node.Build
import Formula.Expression
import Formula.Proofs.Grammar
import Formula.Proofs.Results
import Formula.Proofs.Term
import Mathlib.Data.List.Forall2

/-!
# The trees that are built

`Node.Built` lists the trees that can be built from elements : the kinds to which their slots
are fixed follow from those of the operands, a constant that is read is bound in the scope,
and no constant is assigned to. Every tree of a text is one of them (`Compiler.build_built`),
so what holds of all of them holds of every expression before it is optimized or run.
-/

namespace Formula

/-- A call means a function that is registered under its name. -/
theorem Registry.getElem?_of_resolve {r : Registry} {name : String} {argc : Nat} {f : Overload}
    (h : r.resolve name argc = .ok f) : r.entries[f.number]? = some (name, f.function) := by
  have hmem : f ∈ r.overloads name := by
    unfold resolve at h
    simp only at h
    split at h
    · simp at h
    · split at h
      · rename_i o ho
        obtain rfl := Except.ok.inj h
        rcases Option.or_eq_some_iff.1 ho with ho | ⟨-, ho⟩
        · exact List.mem_of_find?_eq_some ho
        · exact List.mem_of_find?_eq_some ho
      · simp at h
  obtain ⟨⟨⟨other, g⟩, i⟩, hentry, hif⟩ := List.mem_filterMap.1 hmem
  simp only at hif
  split at hif
  · rename_i hname
    obtain rfl := Option.some.inj hif
    rw [List.mem_zipIdx_iff_getElem?] at hentry
    rw [hentry, ← hname]
  · simp at hif

/-- A reduction that leaves surroundings with `P`, and comes to a tree with `Q` if it comes to
one. -/
structure Reduction.Meets (P : Env → Prop) (Q : Node → Prop) (r : Reduction) : Prop where
  env : P r.env
  node : ∀ n, r.result = .ok n → Q n

theorem Reduction.Meets.ok {P : Env → Prop} {Q : Node → Prop} {n : Node} {env : Env}
    (henv : P env) (hn : Q n) : Meets P Q ⟨.ok n, env⟩ :=
  ⟨henv, fun _ hm => Except.ok.inj hm ▸ hn⟩

theorem Reduction.Meets.imp {P : Env → Prop} {Q Q' : Node → Prop} {r : Reduction}
    (h : r.Meets P Q) (hq : ∀ n, Q n → Q' n) : r.Meets P Q' :=
  ⟨h.env, fun n hn => hq n (h.node n hn)⟩

theorem Reduction.Meets.andThen {P : Env → Prop} {Q Q' : Node → Prop} {r : Reduction}
    {f : Node → Env → Reduction} (h : r.Meets P Q)
    (hf : ∀ n env, P env → Q n → (f n env).Meets P Q') : (r.andThen f).Meets P Q' := by
  unfold Reduction.andThen
  cases hr : r.result with
  | error e => exact ⟨h.env, by simp⟩
  | ok n => exact hf n r.env h.env (h.node n hr)

/-- Whether the elements use a name as a variable. -/
def Element.UseVariable (es : List Element) (name : String) : Prop :=
  ∃ e ∈ es, e.role = .name ∧ e.lexeme = name

/-- The kind to which a variable is fixed while compiling, if it is. -/
def BuildContext.pinned (ctx : BuildContext) (name : String) : Option Kind :=
  if ctx.settings.isConstant name || ctx.settings.strict then
    (ctx.scope.get? name).map Value.kind
  else none

/-- The kind of an assignment, as far as it is known, to a variable of a kind. -/
def AssignOp.static? (op : AssignOp) (target value : Option Kind) : Option Kind :=
  match op.arith? with
  | none => value
  | some _ => Kind.static? target value

namespace Node

/-- The trees that can be built from some elements. -/
inductive Built (ctx : BuildContext) (es : List Element) : Node → Prop
  | literal (v : Value) : Built ctx es (literal v)
  | read {e : Element} (he : e ∈ es) (hrole : e.role = .name)
      (hbound : ctx.settings.isConstant e.lexeme = true → (ctx.scope.get? e.lexeme).isSome) :
      Built ctx es (read e.lexeme (ctx.settings.isConstant e.lexeme)
        (.ofKind (ctx.pinned e.lexeme)))
  | logic {op : Connective} {l r : Node} : Built ctx es l → Built ctx es r →
      Built ctx es (logic op l r (.ofKind (some .boolean)))
  | not {a : Node} : Built ctx es a → Built ctx es (not a (.ofKind (some .boolean)))
  | sign {s : Sign} {a : Node} : Built ctx es a →
      Built ctx es (sign s a (.ofKind (a.kind?.filter Kind.isNumeric)))
  | arith {op : ArithOp} {l r : Node} : Built ctx es l → Built ctx es r →
      Built ctx es (arith op l r (.ofKind (Kind.static? l.kind? r.kind?)))
  | compare {op : CompareOp} {l r : Node} : Built ctx es l → Built ctx es r →
      Built ctx es (compare op l r (.ofKind (some .boolean)))
  | assign {op : AssignOp} {e : Element} {v : Node} (he : e ∈ es) (hrole : e.role = .name)
      (hvar : ctx.settings.isConstant e.lexeme = false) (hop : ∃ a ∈ es, a.role = .assign op) :
      Built ctx es v →
      Built ctx es (assign op e.lexeme (ctx.pinned e.lexeme) v
        (.ofKind (op.static? (ctx.pinned e.lexeme) v.kind?)))
  | call {e : Element} {f : Overload} {args : List Node} (he : e ∈ es)
      (hrole : e.role = .function) (hlen : args.length = e.argc)
      (hf : ctx.registry.resolve e.lexeme args.length = .ok f) :
      (∀ a ∈ args, Built ctx es a) → Built ctx es (call e.lexeme f args .fresh (.ofKind none))
  | sequence {a b : Node} : Built ctx es a → Built ctx es b →
      Built ctx es (sequence a b (.ofKind b.kind?))

/-- What can stand at one place of a term that is built from some elements. -/
def Allowed (ctx : BuildContext) (es : List Element) : Term → Prop
  | .read name constant =>
    constant = ctx.settings.isConstant name ∧
      (constant = true → (ctx.scope.get? name).isSome) ∧ Element.UseVariable es name
  | .assign _ name _ =>
    ctx.settings.isConstant name = false ∧ Element.UseVariable es name
  | .call name f args =>
    ctx.registry.resolve name args.length = .ok f
  | _ => True

theorem Built.forall_allowed {ctx : BuildContext} {es : List Element} {n : Node}
    (h : Built ctx es n) : n.term.Forall (Allowed ctx es) := by
  induction h with
  | literal v => simp [term, Allowed]
  | read he hrole hbound => simpa [term, Allowed] using ⟨hbound, _, he, hrole, rfl⟩
  | logic _ _ ihl ihr => simpa [term, Allowed] using ⟨ihl, ihr⟩
  | not _ ih => simpa [term, Allowed] using ih
  | sign _ ih => simpa [term, Allowed] using ih
  | arith _ _ ihl ihr => simpa [term, Allowed] using ⟨ihl, ihr⟩
  | compare _ _ ihl ihr => simpa [term, Allowed] using ⟨ihl, ihr⟩
  | assign he hrole hvar _ _ ih =>
    simpa [term, Allowed] using ⟨⟨hvar, _, he, hrole, rfl⟩, ih⟩
  | call he hrole _ hf _ ih =>
    simpa [term, terms_eq_map, Allowed] using ⟨hf, ih⟩
  | sequence _ _ iha ihb => simpa [term, Allowed] using ⟨iha, ihb⟩

variable {ctx : BuildContext} {es : List Element} {e : Element} {stack stack' : List Node}

/-! ## Taking in one element -/

theorem popPair_eq_ok {l r : Node} {rest : List Node} :
    popPair e stack = .ok (l, r, rest) ↔ stack = r :: l :: rest := by
  rcases stack with _ | ⟨a, _ | ⟨b, rest'⟩⟩ <;> simp [popPair, and_left_comm]

theorem pop_eq_ok {a : Node} {rest : List Node} :
    pop e stack = .ok (a, rest) ↔ stack = a :: rest := by
  rcases stack with _ | ⟨b, rest'⟩ <;> simp [pop]

theorem ofLiteral_of_role {k : LiteralKind} (h : e.role = .literal k) :
    ofLiteral ctx e = (e.token.literalValue ctx.settings k).map literal := by
  rw [ofLiteral, h]

/-- The tree that an element makes of its operands. -/
inductive Makes (ctx : BuildContext) (e : Element) : List Node → Node → Prop
  | literal {k : LiteralKind} (hrole : e.role = .literal k) (v : Value) :
      Makes ctx e [] (literal v)
  | read (hrole : e.role = .name)
      (hbound : ctx.settings.isConstant e.lexeme = true → (ctx.scope.get? e.lexeme).isSome) :
      Makes ctx e [] (read e.lexeme (ctx.settings.isConstant e.lexeme)
        (.ofKind (ctx.pinned e.lexeme)))
  | logic {op : Connective} (hrole : e.role = .logic op) (l r : Node) :
      Makes ctx e [l, r] (logic op l r (.ofKind (some .boolean)))
  | not (hrole : e.role = .not) (a : Node) : Makes ctx e [a] (not a (.ofKind (some .boolean)))
  | sign {s : Sign} (hrole : e.role = .sign s) (a : Node) :
      Makes ctx e [a] (sign s a (.ofKind (a.kind?.filter Kind.isNumeric)))
  | arith {op : ArithOp} (hrole : e.role = .arith op) (l r : Node) :
      Makes ctx e [l, r] (arith op l r (.ofKind (Kind.static? l.kind? r.kind?)))
  | compare {op : CompareOp} (hrole : e.role = .compare op) (l r : Node) :
      Makes ctx e [l, r] (compare op l r (.ofKind (some .boolean)))
  | assign {op : AssignOp} (hrole : e.role = .assign op) (name : String) (s : Slot) (v : Node) :
      Makes ctx e [.read name false s, v]
        (assign op name s.kind v (.ofKind (op.static? s.kind v.kind?)))
  | call {f : Overload} {args : List Node} (hrole : e.role = .function)
      (hlen : args.length = e.argc) (hf : ctx.registry.resolve e.lexeme args.length = .ok f) :
      Makes ctx e args (call e.lexeme f args .fresh (.ofKind none))
  | sequence (hrole : e.role = .semicolon) (a b : Node) :
      Makes ctx e [a, b] (sequence a b (.ofKind b.kind?))

theorem makes_ofName {n : Node} (hrole : e.role = .name) (h : ofName ctx e.lexeme = .ok n) :
    Makes ctx e [] n := by
  unfold ofName at h
  simp only at h
  split at h
  · simp at h
  · rename_i hc
    obtain rfl := Except.ok.inj h
    exact .read hrole fun hconst => by simpa [hconst, Option.isSome_iff_ne_none] using hc

theorem makes_ofAssign {op : AssignOp} {v target n : Node} (hrole : e.role = .assign op)
    (h : ofAssign e op v target = .ok n) : Makes ctx e [target, v] n := by
  cases target with
  | read name c s =>
    unfold ofAssign at h
    simp only at h
    split at h
    · simp at h
    · rename_i hc
      obtain rfl : c = false := by simpa using hc
      obtain rfl := Except.ok.inj h
      exact .assign hrole name s v
  | _ => simp [ofAssign] at h

/-- The element stands for a tree, which takes the place of its operands. -/
theorem makes_ofCall (hrole : e.role = .function) (h : ofCall ctx e stack = .ok stack') :
    e.argc ≤ stack.length ∧ ∃ n, stack' = n :: stack.drop e.argc ∧
      Makes ctx e (stack.take e.argc).reverse n := by
  unfold ofCall at h
  split at h
  · simp at h
  · rename_i f hf
    split at h
    · simp at h
    · rename_i hlen
      obtain rfl := Except.ok.inj h
      have hargc : (stack.take e.argc).reverse.length = e.argc := by
        simp [Nat.min_eq_left (Nat.le_of_not_lt hlen)]
      exact ⟨Nat.le_of_not_lt hlen, _, rfl, .call hrole hargc (hargc.symm ▸ hf)⟩

/-- Taking in an element puts the tree that it makes in the place of its operands. -/
theorem makes_build (h : build ctx stack e = .ok stack') :
    ∃ k, e.arity? = some k ∧ k ≤ stack.length ∧
      ∃ n, stack' = n :: stack.drop k ∧ Makes ctx e (stack.take k).reverse n := by
  have one : ∀ {f : Node → Node}, (∀ a, Makes ctx e [a] (f a)) →
      (pop e stack).map (fun x => f x.1 :: x.2) = .ok stack' →
        1 ≤ stack.length ∧ ∃ n, stack' = n :: stack.drop 1 ∧
          Makes ctx e (stack.take 1).reverse n := by
    intro f hf h
    obtain ⟨⟨a, rest⟩, hpop, rfl⟩ := Except.map_eq_ok.1 h
    obtain rfl := pop_eq_ok.1 hpop
    exact ⟨by simp, f a, rfl, hf a⟩
  have two : ∀ {f : Node → Node → Node}, (∀ a b, Makes ctx e [a, b] (f a b)) →
      (popPair e stack).map (fun x => f x.1 x.2.1 :: x.2.2) = .ok stack' →
        2 ≤ stack.length ∧ ∃ n, stack' = n :: stack.drop 2 ∧
          Makes ctx e (stack.take 2).reverse n := by
    intro f hf h
    obtain ⟨⟨a, b, rest⟩, hpop, rfl⟩ := Except.map_eq_ok.1 h
    obtain rfl := popPair_eq_ok.1 hpop
    exact ⟨by simp, f a b, rfl, hf a b⟩
  unfold build at h
  unfold Element.arity?
  cases hrole : e.role with
  | literal k =>
    rw [hrole] at h
    obtain ⟨n, hn, rfl⟩ := Except.map_eq_ok.1 h
    rw [ofLiteral_of_role hrole] at hn
    obtain ⟨v, -, rfl⟩ := Except.map_eq_ok.1 hn
    exact ⟨0, rfl, Nat.zero_le _, _, rfl, .literal hrole v⟩
  | name =>
    rw [hrole] at h
    obtain ⟨n, hn, rfl⟩ := Except.map_eq_ok.1 h
    exact ⟨0, rfl, Nat.zero_le _, n, rfl, makes_ofName hrole hn⟩
  | function =>
    rw [hrole] at h
    exact ⟨e.argc, rfl, makes_ofCall hrole h⟩
  | assign op =>
    rw [hrole] at h
    simp only at h
    split at h
    · simp at h
    · rename_i target v rest hpop
      obtain rfl := popPair_eq_ok.1 hpop
      obtain ⟨n, hn, rfl⟩ := Except.map_eq_ok.1 h
      exact ⟨2, rfl, by simp, n, rfl, makes_ofAssign hrole hn⟩
  | not => exact ⟨1, rfl, one (.not hrole) (by rwa [hrole] at h)⟩
  | sign s => exact ⟨1, rfl, one (.sign hrole) (by rwa [hrole] at h)⟩
  | logic op => exact ⟨2, rfl, two (.logic hrole) (by rwa [hrole] at h)⟩
  | arith op => exact ⟨2, rfl, two (.arith hrole) (by rwa [hrole] at h)⟩
  | compare op => exact ⟨2, rfl, two (.compare hrole) (by rwa [hrole] at h)⟩
  | semicolon => exact ⟨2, rfl, two (.sequence hrole) (by rwa [hrole] at h)⟩
  | comma | groupOpen | callOpen | close => simp [hrole] at h

theorem Built.of_makes {operands : List Node} {n : Node} (he : e ∈ es)
    (h : Makes ctx e operands n) (hs : ∀ a ∈ operands, Built ctx es a) : Built ctx es n := by
  cases h with
  | literal hrole v => exact .literal v
  | read hrole hbound => exact .read he hrole hbound
  | logic hrole l r => exact .logic (hs l (by simp)) (hs r (by simp))
  | not hrole a => exact .not (hs a (by simp))
  | sign hrole a => exact .sign (hs a (by simp))
  | arith hrole l r => exact .arith (hs l (by simp)) (hs r (by simp))
  | compare hrole l r => exact .compare (hs l (by simp)) (hs r (by simp))
  | assign hrole name s v =>
    have htarget : Built ctx es (.read name false s) := hs _ (by simp)
    generalize hc : false = c at htarget
    cases htarget with
    | read he' hrole' hbound =>
      exact .assign he' hrole' hc.symm ⟨e, he, hrole⟩ (hs v (by simp))
  | call hrole hlen hf => exact .call he hrole hlen hf hs
  | sequence hrole a b => exact .sequence (hs a (by simp)) (hs b (by simp))

/-! ## Taking in all elements -/

/-- Trees of elements stay related to the trees that are built, if each element makes related
trees of related operands. -/
theorem reduces_of_foldlM {Q : Tree → Node → Prop} {todo : List Element} {trees : List Tree}
    (hQ : ∀ e ∈ todo, ∀ Ts ns n, List.Forall₂ Q Ts ns → Makes ctx e ns n → Q (.node e Ts) n)
    (hs : List.Forall₂ Q trees stack) (h : todo.foldlM (build ctx) stack = .ok stack') :
    ∃ trees', todo.foldlM Element.reduceStep trees = some trees' ∧
      List.Forall₂ Q trees' stack' := by
  induction todo generalizing stack trees with
  | nil =>
    obtain rfl : stack = stack' := by simpa [pure, Except.pure] using h
    exact ⟨trees, rfl, hs⟩
  | cons e todo ih =>
    rw [List.foldlM_cons, Except.bind_eq_ok] at h
    obtain ⟨next, hnext, h⟩ := h
    rw [List.forall_mem_cons] at hQ
    obtain ⟨k, harity, hle, n, rfl, hn⟩ := makes_build hnext
    have hstep : Element.reduceStep trees e =
        some (.node e (trees.take k).reverse :: trees.drop k) := by
      unfold Element.reduceStep
      simp only [harity]
      rw [if_neg (by rw [hs.length_eq]; omega)]
    have hnode : Q (.node e (trees.take k).reverse) n :=
      hQ.1 _ _ n (List.rel_reverse (List.forall₂_take k hs)) hn
    obtain ⟨trees', hfold, hs'⟩ := ih hQ.2 (.cons hnode (List.forall₂_drop k hs)) h
    refine ⟨trees', ?_, hs'⟩
    rw [List.foldlM_cons, hstep]
    exact hfold

theorem foldlM_of_ofPostfix {root : Node} (h : ofPostfix ctx es = .ok root) :
    es.foldlM (build ctx) [] = .ok [root] := by
  unfold ofPostfix at h
  split at h
  · simp at h
  · rename_i stack hstack
    unfold single at h
    split at h
    · obtain rfl := Except.ok.inj h
      exact hstack
    · simp at h
    · simp at h

/-- Elements that make a tree reduce to one, and the two are related if each element makes
related trees of related operands. -/
theorem reduces_of_ofPostfix {Q : Tree → Node → Prop} {root : Node}
    (hQ : ∀ e ∈ es, ∀ Ts ns n, List.Forall₂ Q Ts ns → Makes ctx e ns n → Q (.node e Ts) n)
    (h : ofPostfix ctx es = .ok root) : ∃ T, Element.reduce es = some [T] ∧ Q T root := by
  obtain ⟨trees, hfold, hs⟩ := reduces_of_foldlM hQ .nil (foldlM_of_ofPostfix h)
  obtain ⟨T, Ts, hT, hTs, rfl⟩ := List.forall₂_cons_right_iff.1 hs
  obtain rfl := List.forall₂_nil_right_iff.1 hTs
  exact ⟨T, hfold, hT⟩

/-- What elements make of operands that have a property has it, if each element makes such trees
of such operands. -/
theorem property_ofPostfix {Q : Node → Prop} {root : Node}
    (hQ : ∀ e ∈ es, ∀ ns n, Makes ctx e ns n → (∀ a ∈ ns, Q a) → Q n)
    (h : ofPostfix ctx es = .ok root) : Q root := by
  have hstep : ∀ e ∈ es, ∀ (Ts : List Tree) ns n, List.Forall₂ (fun _ n => Q n) Ts ns →
      Makes ctx e ns n → Q n := by
    intro e he Ts ns n hs hn
    refine hQ e he ns n hn fun a ha => ?_
    obtain ⟨i, hi, rfl⟩ := List.getElem_of_mem ha
    exact hs.get (by rw [hs.length_eq]; exact hi) hi
  obtain ⟨T, -, hroot⟩ := reduces_of_ofPostfix hstep h
  exact hroot

/-- The tree of elements is one that can be built from them. -/
theorem built_ofPostfix {root : Node} (h : ofPostfix ctx es = .ok root) :
    Built ctx es root :=
  property_ofPostfix (fun _ he _ _ hn => .of_makes he hn) h

end Node

/-- The tree of a text is that of its elements, and in strict settings no kinds that are known
clash in it. -/
theorem Compiler.build_eq_ok {c : Compiler} {source : String} {scope : Scope} {root : Node} :
    c.build source scope = .ok root ↔ ∃ es, Element.postfixOfText source = .ok es ∧
      Node.ofPostfix ⟨c.settings, c.registry, scope⟩ es = .ok root ∧
        (c.settings.strict = true → root.validate = .ok ()) := by
  unfold build
  rw [Except.bind_eq_ok]
  refine exists_congr fun es => and_congr_right fun _ => ?_
  rw [Except.bind_eq_ok]
  cases hstrict : c.settings.strict with
  | false => simp [pure, Except.pure]
  | true =>
    simp only [if_pos, forall_const]
    constructor
    · rintro ⟨n, hn, h⟩
      obtain ⟨u, hu, h⟩ := Except.bind_eq_ok.1 h
      obtain rfl : n = root := Except.ok.inj h
      exact ⟨hn, hu⟩
    · rintro ⟨hn, hvalid⟩
      exact ⟨root, hn, Except.bind_eq_ok.2 ⟨(), hvalid, rfl⟩⟩

/-- The tree of a text is one that can be built from the elements of the text, and in strict
settings no kinds that are known clash in it. -/
theorem Compiler.build_built {c : Compiler} {source : String} {scope : Scope} {root : Node}
    (h : c.build source scope = .ok root) :
    ∃ es, Element.postfixOfText source = .ok es ∧
      Node.Built ⟨c.settings, c.registry, scope⟩ es root ∧
        (c.settings.strict = true → root.validate = .ok ()) := by
  obtain ⟨es, hes, hroot, hvalid⟩ := build_eq_ok.1 h
  exact ⟨es, hes, Node.built_ofPostfix hroot, hvalid⟩

end Formula

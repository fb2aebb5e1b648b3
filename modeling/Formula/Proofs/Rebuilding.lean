import Formula.Proofs.Building

/-!
# Trees of the same elements

The elements of a text make a tree under any settings. The tree under other settings has the
same form. Its literals can have other values, and other kinds of variables can be fixed, and
then the kinds that follow from these are others too (`Node.Rebuilt`).

Where the literals and the variables of the one settings allow for a tree, so do those of the
others, and the two trees are related in this way (`Node.ofPostfix_rebuilt`).
-/

namespace Formula

variable {L : Value → Value → Prop} {K : Bool → Option Kind → Option Kind → Prop}

namespace Node

/-- Trees that differ in what `L` says of literals and `K` of the kinds to which variables are
fixed, given whether they are constants, and otherwise only in the kinds that follow. -/
inductive Rebuilt (L : Value → Value → Prop) (K : Bool → Option Kind → Option Kind → Prop) :
    Node → Node → Prop
  | literal {v w : Value} (h : L v w) : Rebuilt L K (literal v) (literal w)
  | read {name : String} {c : Bool} {k k' : Option Kind} (h : K c k k') :
      Rebuilt L K (read name c (.ofKind k)) (read name c (.ofKind k'))
  | logic {op : Connective} {l l' r r' : Node} (hl : Rebuilt L K l l') (hr : Rebuilt L K r r') :
      Rebuilt L K (logic op l r (.ofKind (some .boolean)))
        (logic op l' r' (.ofKind (some .boolean)))
  | not {a a' : Node} (ha : Rebuilt L K a a') :
      Rebuilt L K (not a (.ofKind (some .boolean))) (not a' (.ofKind (some .boolean)))
  | sign {g : Sign} {a a' : Node} (ha : Rebuilt L K a a') :
      Rebuilt L K (sign g a (.ofKind (a.kind?.filter Kind.isNumeric)))
        (sign g a' (.ofKind (a'.kind?.filter Kind.isNumeric)))
  | arith {op : ArithOp} {l l' r r' : Node} (hl : Rebuilt L K l l') (hr : Rebuilt L K r r') :
      Rebuilt L K (arith op l r (.ofKind (Kind.static? l.kind? r.kind?)))
        (arith op l' r' (.ofKind (Kind.static? l'.kind? r'.kind?)))
  | compare {op : CompareOp} {l l' r r' : Node} (hl : Rebuilt L K l l')
      (hr : Rebuilt L K r r') :
      Rebuilt L K (compare op l r (.ofKind (some .boolean)))
        (compare op l' r' (.ofKind (some .boolean)))
  | assign {op : AssignOp} {name : String} {t t' : Option Kind} {v v' : Node}
      (ht : K false t t') (hv : Rebuilt L K v v') :
      Rebuilt L K (assign op name t v (.ofKind (op.static? t v.kind?)))
        (assign op name t' v' (.ofKind (op.static? t' v'.kind?)))
  | call {name : String} {f : Overload} {args args' : List Node}
      (hlen : args.length = args'.length)
      (hargs : ∀ a a', (a, a') ∈ args.zip args' → Rebuilt L K a a') :
      Rebuilt L K (call name f args .fresh (.ofKind none))
        (call name f args' .fresh (.ofKind none))
  | sequence {a a' b b' : Node} (ha : Rebuilt L K a a') (hb : Rebuilt L K b b') :
      Rebuilt L K (sequence a b (.ofKind b.kind?)) (sequence a' b' (.ofKind b'.kind?))

theorem Rebuilt.of_forall₂ {name : String} {f : Overload} {args args' : List Node}
    (h : List.Forall₂ (Rebuilt L K) args args') :
    Rebuilt L K (Node.call name f args .fresh (.ofKind none))
      (Node.call name f args' .fresh (.ofKind none)) :=
  .call (List.forall₂_iff_zip.1 h).1 fun _ _ => (List.forall₂_iff_zip.1 h).2

end Node

/-- What can be built in one context can be built in the other, with literals and kinds of
variables as `L` and `K` say. -/
structure BuildContext.Rebuilds (L : Value → Value → Prop)
    (K : Bool → Option Kind → Option Kind → Prop) (ctx ctx' : BuildContext) : Prop where
  isConstant : ∀ name, ctx'.settings.isConstant name = ctx.settings.isConstant name
  registry : ctx'.registry = ctx.registry
  scope : ctx'.scope = ctx.scope
  literal : ∀ (t : Token) (kind : LiteralKind) v, t.literalValue ctx.settings kind = .ok v →
    ∃ w, t.literalValue ctx'.settings kind = .ok w ∧ L v w
  pinned : ∀ name, K (ctx.settings.isConstant name) (ctx.pinned name) (ctx'.pinned name)

namespace Node

variable {ctx ctx' : BuildContext} {e : Element} {stack stack' next : List Node}

theorem ofName_eq (ctx : BuildContext) (name : String) :
    ofName ctx name =
      if ctx.settings.isConstant name && (ctx.scope.get? name).isNone then
        .error (.config (.unboundConstant name))
      else .ok (read name (ctx.settings.isConstant name) (.ofKind (ctx.pinned name))) := rfl

/-- The stacks after an element, where the second is built as the first is. -/
abbrev Builds (L : Value → Value → Prop) (K : Bool → Option Kind → Option Kind → Prop)
    (built : Except Fault (List Node)) (next : List Node) : Prop :=
  ∃ next', built = .ok next' ∧ List.Forall₂ (Rebuilt L K) next next'

theorem builds_pop {f f' : Node → Node} (hs : List.Forall₂ (Rebuilt L K) stack stack')
    (hf : ∀ a a', Rebuilt L K a a' → Rebuilt L K (f a) (f' a'))
    (h : (pop e stack).map (fun x => f x.1 :: x.2) = .ok next) :
    Builds L K ((pop e stack').map fun x => f' x.1 :: x.2) next := by
  obtain ⟨⟨a, rest⟩, hpop, rfl⟩ := Except.map_eq_ok.1 h
  obtain rfl := pop_eq_ok.1 hpop
  obtain ⟨a', rest', ha, hrest, rfl⟩ := List.forall₂_cons_left_iff.1 hs
  exact ⟨_, rfl, .cons (hf a a' ha) hrest⟩

theorem builds_popPair {f f' : Node → Node → Node}
    (hs : List.Forall₂ (Rebuilt L K) stack stack')
    (hf : ∀ a a' b b', Rebuilt L K a a' → Rebuilt L K b b' → Rebuilt L K (f a b) (f' a' b'))
    (h : (popPair e stack).map (fun x => f x.1 x.2.1 :: x.2.2) = .ok next) :
    Builds L K ((popPair e stack').map fun x => f' x.1 x.2.1 :: x.2.2) next := by
  obtain ⟨⟨a, b, rest⟩, hpop, rfl⟩ := Except.map_eq_ok.1 h
  obtain rfl := popPair_eq_ok.1 hpop
  obtain ⟨b', tail', hb, htail, rfl⟩ := List.forall₂_cons_left_iff.1 hs
  obtain ⟨a', rest', ha, hrest, rfl⟩ := List.forall₂_cons_left_iff.1 htail
  exact ⟨_, rfl, .cons (hf a a' b b' ha hb) hrest⟩

theorem ofAssign_rebuilt {op : AssignOp} {v v' target target' n : Node}
    (hv : Rebuilt L K v v') (ht : Rebuilt L K target target')
    (h : ofAssign e op v target = .ok n) :
    ∃ m, ofAssign e op v' target' = .ok m ∧ Rebuilt L K n m := by
  cases ht with
  | @read name c k k' hk =>
    cases c with
    | true => cases h
    | false =>
      obtain rfl := Except.ok.inj h
      exact ⟨_, rfl, .assign hk hv⟩
  | _ => cases h

theorem ofCall_rebuilt (hreg : ctx'.registry = ctx.registry)
    (hs : List.Forall₂ (Rebuilt L K) stack stack') (h : ofCall ctx e stack = .ok next) :
    Builds L K (ofCall ctx' e stack') next := by
  unfold ofCall at h ⊢
  rw [hreg, ← hs.length_eq]
  split at h
  · cases h
  · split at h
    · cases h
    · rename_i hlen
      obtain rfl := Except.ok.inj h
      refine ⟨_, if_neg hlen, .cons (.of_forall₂ ?_) (List.forall₂_drop e.argc hs)⟩
      exact List.rel_reverse (List.forall₂_take e.argc hs)

/-- What an element makes of a stack in one context, it makes of a related one in the other. -/
theorem build_rebuilt (hctx : ctx.Rebuilds L K ctx')
    (hs : List.Forall₂ (Rebuilt L K) stack stack') (h : build ctx stack e = .ok next) :
    Builds L K (build ctx' stack' e) next := by
  unfold build at h ⊢
  cases hrole : e.role with
  | literal kind =>
    rw [hrole] at h
    obtain ⟨n, hn, rfl⟩ := Except.map_eq_ok.1 h
    rw [ofLiteral_of_role hrole] at hn
    obtain ⟨v, hv, rfl⟩ := Except.map_eq_ok.1 hn
    obtain ⟨w, hw, hvw⟩ := hctx.literal e.token kind v hv
    refine ⟨_, Except.map_eq_ok.2 ⟨_, ?_, rfl⟩, .cons (.literal hvw) hs⟩
    rw [ofLiteral_of_role hrole]
    exact Except.map_eq_ok.2 ⟨w, hw, rfl⟩
  | name =>
    rw [hrole] at h
    obtain ⟨n, hn, rfl⟩ := Except.map_eq_ok.1 h
    rw [ofName_eq] at hn
    split at hn
    · cases hn
    · rename_i hbound
      obtain rfl := Except.ok.inj hn
      refine ⟨_, Except.map_eq_ok.2 ⟨_, ?_, rfl⟩, .cons (.read (hctx.pinned e.lexeme)) hs⟩
      rw [ofName_eq, hctx.isConstant, hctx.scope, if_neg hbound]
  | assign op =>
    rw [hrole] at h
    simp only at h ⊢
    split at h
    · cases h
    · rename_i target v rest hpop
      obtain rfl := popPair_eq_ok.1 hpop
      obtain ⟨n, hn, rfl⟩ := Except.map_eq_ok.1 h
      obtain ⟨v', tail', hv, htail, rfl⟩ := List.forall₂_cons_left_iff.1 hs
      obtain ⟨target', rest', ht, hrest, rfl⟩ := List.forall₂_cons_left_iff.1 htail
      obtain ⟨m, hm, hnm⟩ := ofAssign_rebuilt hv ht hn
      exact ⟨_, Except.map_eq_ok.2 ⟨m, hm, rfl⟩, .cons hnm hrest⟩
  | function =>
    rw [hrole] at h
    exact ofCall_rebuilt hctx.registry hs h
  | not => exact builds_pop hs (fun _ _ => .not) (by rwa [hrole] at h)
  | sign s => exact builds_pop hs (fun _ _ => .sign) (by rwa [hrole] at h)
  | logic op => exact builds_popPair hs (fun _ _ _ _ => .logic) (by rwa [hrole] at h)
  | arith op => exact builds_popPair hs (fun _ _ _ _ => .arith) (by rwa [hrole] at h)
  | compare op => exact builds_popPair hs (fun _ _ _ _ => .compare) (by rwa [hrole] at h)
  | semicolon => exact builds_popPair hs (fun _ _ _ _ => .sequence) (by rwa [hrole] at h)
  | comma | groupOpen | callOpen | close => rw [hrole] at h; cases h

theorem foldlM_rebuilt (hctx : ctx.Rebuilds L K ctx') {todo : List Element}
    (hs : List.Forall₂ (Rebuilt L K) stack stack')
    (h : todo.foldlM (build ctx) stack = .ok next) :
    Builds L K (todo.foldlM (build ctx') stack') next := by
  induction todo generalizing stack stack' with
  | nil =>
    obtain rfl : stack = next := Except.ok.inj h
    exact ⟨stack', rfl, hs⟩
  | cons e todo ih =>
    rw [List.foldlM_cons, Except.bind_eq_ok] at h
    obtain ⟨mid, hmid, h⟩ := h
    obtain ⟨mid', hmid', hs'⟩ := build_rebuilt hctx hs hmid
    obtain ⟨next', hnext', hsnext⟩ := ih hs' h
    rw [List.foldlM_cons]
    exact ⟨next', Except.bind_eq_ok.2 ⟨mid', hmid', hnext'⟩, hsnext⟩

/-- Elements that make a tree in one context make a related one in the other. -/
theorem ofPostfix_rebuilt (hctx : ctx.Rebuilds L K ctx') {es : List Element} {n : Node}
    (h : ofPostfix ctx es = .ok n) : ∃ m, ofPostfix ctx' es = .ok m ∧ Rebuilt L K n m := by
  obtain ⟨next', hnext, hs⟩ := foldlM_rebuilt hctx .nil (foldlM_of_ofPostfix h)
  obtain ⟨m, rest, hnm, hrest, rfl⟩ := List.forall₂_cons_left_iff.1 hs
  obtain rfl := List.forall₂_nil_left_iff.1 hrest
  exact ⟨m, by rw [ofPostfix, hnext]; rfl, hnm⟩

end Node

end Formula

import Formula.Proofs.LastValue
import Mathlib.Data.List.Forall2

/-!
# Kinds that a run fixes

A slot whose kind is open takes the kind of the first value that it keeps, and it does so in a
run that fails later on, too. That is all that a run leaves behind. In a store, the tree that a
run leaves comes to the same as the tree that was run, or it refuses a value at a place whose
kind the run has fixed and where the other tree keeps a value of another kind
(`Node.pins_execute`).

There is one way in which the other tree does not come to keep that value : an assignment of
strict settings looks at its own slot first, and then at the kind of its variable.
-/

namespace Formula

namespace Slot

variable {s s' : Slot}

/-- The kind of the slot was open, or is as it was. -/
def Refines (s s' : Slot) : Prop := s.kind = none ∨ s'.kind = s.kind

/-- The two slots say the same about a kind, or it is not the one that was fixed. -/
theorem Refines.check (h : s.Refines s') (produced : Kind) :
    s'.check produced = s.check produced ∨
      ∃ fixed, fixed ≠ produced ∧ s.kind = none ∧ s'.kind = some fixed ∧
        s'.check produced = .error (.kind (.changed fixed produced)) := by
  have hsame : s'.kind = s.kind → s'.check produced = s.check produced := by
    intro hkind
    rw [Slot.check, Slot.check, hkind]
  rcases h with hopen | hkept
  · cases hfixed : s'.kind with
    | none => exact .inl (hsame (hfixed.trans hopen.symm))
    | some fixed =>
      by_cases hne : fixed = produced
      · exact .inl ((check_eq_ok.2 (.inr (hne ▸ hfixed))).trans (check_eq_ok.2 (.inl hopen)).symm)
      · exact .inr ⟨fixed, hne, hopen, rfl, by simp [Slot.check, hfixed, hne]⟩
  · exact .inl (hsame hkept)

end Slot

namespace Node

/-- The operands of a node, from left to right. -/
def children : Node → List Node
  | literal _ | read .. => []
  | not a _ | sign _ a _ | assign _ _ _ a _ => [a]
  | logic _ l r _ | arith _ l r _ | compare _ l r _ | sequence l r _ => [l, r]
  | call _ _ args _ _ => args

/-- The kind to which the slot at a place of the tree is fixed, if it is. The place is given
by the way from the root, as the numbers of the operands. -/
def kindAt (n : Node) : List Nat → Option Kind
  | [] => n.slot.kind
  | i :: path => (n.children[i]?).bind fun a => a.kindAt path

/-- The kind to which the slot at a place in one of several trees is fixed, if it is. -/
def kindIn (ns : List Node) (place : Nat × List Nat) : Option Kind :=
  (ns[place.1]?).bind fun a => a.kindAt place.2

end Node

/-- The run of a used tree comes to `r'` and that of a fresh one to `r`, because at some place
the used tree refuses a value of a kind that the fresh one takes, or that an assignment of the
fresh one cannot bind to its variable. The kinds in the trees are those of the fresh one, of the
used one, and of what its run has left of the fresh one. -/
def Clash {ι α : Type} (fresh used after : ι → Option Kind) (r r' : Except Fault α) : Prop :=
  ∃ place fixed produced, fixed ≠ produced ∧ fresh place = none ∧ used place = some fixed ∧
    r' = .error (.kind (.changed fixed produced)) ∧
      (after place = some produced ∨
        ∃ name target, r = .error (.kind (.assigned name target produced)))

/-- A clash at a place of an operand is one at a place of the whole. -/
theorem Clash.under {ι κ α β : Type} {fresh used after : ι → Option Kind}
    {fresh' used' after' : κ → Option Kind} {r r' : Except Fault α} {u u' : Except Fault β}
    (h : Clash fresh used after r r') (f : ι → κ) (hfresh : ∀ i, fresh' (f i) = fresh i)
    (hused : ∀ i, used' (f i) = used i) (hafter : ∀ i, after' (f i) = after i)
    (hr : ∀ e, r = .error e → u = .error e) (hr' : ∀ e, r' = .error e → u' = .error e) :
    Clash fresh' used' after' u u' := by
  obtain ⟨place, k, k', hne, hopen, hfixed, hrefuse, htake⟩ := h
  refine ⟨f place, k, k', hne, (hfresh place).trans hopen, (hused place).trans hfixed,
    hr' _ hrefuse, htake.imp (fun h => (hafter place).trans h) ?_⟩
  rintro ⟨name, target, h⟩
  exact ⟨name, target, hr _ h⟩

/-! ## Running in a store -/

/-- The variables can be read and written. -/
def Env.InStore (env : Env) : Prop := ∃ vars, env.scope = .store vars

theorem Term.keeps_inStore (t : Term) : t.Keeps Env.InStore := by
  cases t with
  | assign op name v =>
    rintro env u scope ⟨vars, hvars⟩ hset
    rw [hvars] at hset
    exact ⟨_, (Except.ok.inj hset).symm⟩
  | call name f args => exact fun env vs henv => henv
  | _ => trivial

theorem Answer.result_fitting_error {a : Answer Value} {e : Fault} (h : a.result = .error e)
    (s : Slot) : (a.fitting s).result = .error e :=
  pass_eq_error.2 (.inl h)

namespace Node

variable {n m a a' l l' r r' : Node} {args args' : List Node} {env env₁ : Env} {s s' : Slot}
  {v : Value}

theorem answer_inStore (henv : env.InStore) : (n.answer env).env.InStore :=
  answer_keeps (fun t _ => t.keeps_inStore) henv

/-- The end of a run changes the slot of the root only, and fixes its kind at most. -/
theorem node_commit (node : Slot → Node) (s : Slot) (env : Env) (r : Except Fault Value) :
    ∃ s', s.Refines s' ∧ (commit node s env r).node = node s' := by
  cases r with
  | error e => exact ⟨s, .inr rfl, rfl⟩
  | ok v =>
    rw [commit]
    cases hs : s.store v with
    | error e => exact ⟨s, .inr rfl, rfl⟩
    | ok kept =>
      obtain ⟨hadmits, rfl⟩ := Slot.store_eq_ok.1 hs
      exact ⟨⟨v, some v.kind⟩, hadmits.imp_right fun h => h.symm, rfl⟩

theorem child_commit {node : Slot → Node} {i : Nat} (h : ∀ s, (node s).children[i]? = some a)
    (s : Slot) (r : Except Fault Value) :
    (commit node s env r).node.children[i]? = some a := by
  obtain ⟨s', -, hnode⟩ := node_commit node s env r
  rw [hnode, h]

/-- An assignment asks its own slot first, and then the kind of its variable. -/
theorem bindVariable_refines {scope : Scope} (hs : s.Refines s')
    (hscope : ∃ vars, scope = .store vars) (name : String) (target : Option Kind) (v : Value) :
    bindVariable scope name target s' v = bindVariable scope name target s v ∨
      ∃ fixed, fixed ≠ v.kind ∧ s.kind = none ∧ s'.kind = some fixed ∧
        bindVariable scope name target s' v = .error (.kind (.changed fixed v.kind)) ∧
          ((∃ scope', bindVariable scope name target s v = .ok scope') ∨
            ∃ wanted, bindVariable scope name target s v =
              .error (.kind (.assigned name wanted v.kind))) := by
  obtain ⟨vars, rfl⟩ := hscope
  rcases hs.check v.kind with hsame | ⟨fixed, hne, hopen, hfixed, hrefuse⟩
  · left
    rw [bindVariable, bindVariable, hsame]
  · refine .inr ⟨fixed, hne, hopen, hfixed, by rw [bindVariable, hrefuse]; rfl, ?_⟩
    rw [bindVariable, Slot.check_eq_ok.2 (.inl hopen)]
    cases target with
    | none => exact .inl ⟨_, rfl⟩
    | some wanted =>
      rw [Kind.checkTarget]
      split
      · exact .inl ⟨_, rfl⟩
      · exact .inr ⟨wanted, rfl⟩

/-! ## The same or a clash -/

/-- The second tree comes to the same as the first, or their kinds clash. -/
def SameOrClash (n m : Node) (env : Env) : Prop :=
  m.answer env = n.answer env ∨
    Clash n.kindAt m.kindAt (n.execute env).node.kindAt (n.answer env).result
      (m.answer env).result

/-- The trees come to the same in any store, or their kinds clash. -/
def Pins (n m : Node) : Prop := ∀ env, env.InStore → n.SameOrClash m env

theorem Pins.refl (n : Node) : n.Pins n := fun _ _ => .inl rfl

/-- An operand that comes to the same in both leaves the rest to show. One that clashes does so
in the whole, if its faults are faults of the whole. -/
theorem SameOrClash.of_operand {i : Nat} (h : a.SameOrClash a' env₁)
    (ha : n.children[i]? = some a) (ha' : m.children[i]? = some a')
    (hafter : (n.execute env).node.children[i]? = some (a.execute env₁).node)
    (hr : ∀ e, (a.answer env₁).result = .error e → (n.answer env).result = .error e)
    (hr' : ∀ e, (a'.answer env₁).result = .error e → (m.answer env).result = .error e)
    (hsame : a'.answer env₁ = a.answer env₁ → n.SameOrClash m env) : n.SameOrClash m env := by
  have hchild : ∀ {p q : Node}, p.children[i]? = some q →
      ∀ path, p.kindAt (i :: path) = q.kindAt path := by
    intro p q hq path
    rw [kindAt, hq]
    rfl
  rcases h with h | h
  · exact hsame h
  · exact .inr (h.under (i :: ·) (hchild ha) (hchild ha') (hchild hafter) hr hr')

/-- Where all operands come to the same, the slot of the root may still refuse a value. -/
theorem SameOrClash.of_core {core : Answer Value} (hn : n.answer env = core.fitting n.slot)
    (hm : m.answer env = core.fitting m.slot) (hs : n.slot.Refines m.slot) :
    n.SameOrClash m env := by
  rcases core with ⟨e | v, env₁⟩
  · exact .inl (hm.trans hn.symm)
  · rcases hs.check v.kind with hsame | ⟨fixed, hne, hopen, hfixed, hrefuse⟩
    · left
      rw [hm, hn, Answer.fitting, Answer.fitting]
      simp only [Answer.pass, Except.bind, hsame]
    · refine .inr ⟨[], fixed, v.kind, hne, hopen, hfixed, ?_, .inl ?_⟩
      · rw [hm, Answer.fitting]
        simp only [Answer.pass, Except.bind, hrefuse, Except.map]
      · have hrun : (n.execute env).result = .ok v := by
          have hfree := hn.trans (Answer.fitting_of_admits fun _ _ => .inl hopen)
          exact congrArg Answer.result hfree
        rw [kindAt, (slot_and_kind_of_execute hrun).1]
        rfl

theorem Pins.commit {node : Slot → Node} {r : Except Fault Value}
    (h : ∀ s', s.Refines s' → n.Pins (node s')) : n.Pins (commit node s env r).node := by
  obtain ⟨s', hs, hnode⟩ := node_commit node s env r
  rw [hnode]
  exact h s' hs

/-! ## Form by form -/

/-- Nodes that run one operand after the other and make a value of the two. -/
structure RunsBoth (node : Node → Node → Slot → Node) (f : Value → Answer Value → Answer Value) :
    Prop where
  children : ∀ l r s, (node l r s).children = [l, r]
  slot : ∀ l r s, (node l r s).slot = s
  answer : ∀ l r s env, (node l r s).answer env =
    ((l.answer env).andThen fun v env => f v (r.answer env)).fitting s
  fault : ∀ v a e, a.result = .error e → (f v a).result = .error e
  node_error : ∀ {l r s env e}, (l.execute env).result = .error e →
    ((node l r s).execute env).node = node (l.execute env).node r s
  node_ok : ∀ {l r s env v}, (l.execute env).result = .ok v → ∃ s', s.Refines s' ∧
    ((node l r s).execute env).node =
      node (l.execute env).node (r.execute (l.execute env).env).node s'

namespace Pins

theorem read {name : String} {c : Bool} (hs : s.Refines s') :
    (read name c s).Pins (.read name c s') :=
  fun env _ => .of_core (answer_read name c s env) (answer_read name c s' env) hs

theorem logic {op : Connective} (hl : l.Pins l') (hr : r.Pins r') (hs : s.Refines s') :
    (logic op l r s).Pins (.logic op l' r' s') := by
  intro env henv
  have hfault : ∀ (l r : Node) (s : Slot) (e : Fault), (l.answer env).result = .error e →
      ((Node.logic op l r s).answer env).result = .error e := by
    intro l r s e he
    rw [answer_logic]
    exact Answer.result_fitting_error
      (Answer.andThen_eq_error.2 (.inl (Answer.pass_eq_error.2 (.inl he)))) s
  refine (hl env henv).of_operand (i := 0) rfl rfl ?_ (hfault l r s) (hfault l' r' s')
    fun hl => ?_
  · rw [execute]
    cases (l.execute env).result.bind (Value.asBool op.symbol) with
    | error e => rfl
    | ok b =>
      simp only
      split
      · exact child_commit (fun _ => rfl) ..
      · exact child_commit (fun _ => rfl) ..
  -- the right operands are compared only if the left ones leave the result to them
  by_cases hb : ((l.answer env).pass (Value.asBool op.symbol)).result = .ok op.identity
  · have hb' : (l.execute env).result.bind (Value.asBool op.symbol) = .ok op.identity := hb
    have hne := op.identity_ne_absorbing
    refine (hr (l.answer env).env (answer_inStore henv)).of_operand (i := 1) rfl rfl ?_
      (fun e he => ?_) (fun e he => ?_) fun hr => ?_
    · rw [execute, hb']
      simp only [if_neg hne]
      exact child_commit (fun _ => rfl) ..
    · rw [answer_logic, Answer.andThen_ok hb, if_neg hne]
      exact Answer.result_fitting_error
        (Answer.map_eq_error.2 (Answer.pass_eq_error.2 (.inl he))) s
    · rw [answer_logic, hl, Answer.andThen_ok hb, if_neg hne]
      exact Answer.result_fitting_error
        (Answer.map_eq_error.2 (Answer.pass_eq_error.2 (.inl he))) s'
    · refine .of_core (answer_logic op l r s env) ?_ hs
      rw [answer_logic, hl, Answer.andThen_ok hb, Answer.andThen_ok hb, if_neg hne, if_neg hne]
      exact congrArg (fun a => Answer.fitting s' ((Answer.pass a _).map _)) hr
  · refine .of_core (answer_logic op l r s env) ?_ hs
    rw [answer_logic, hl]
    refine congrArg _ (Answer.andThen_congr fun b hb' => ?_)
    have hdecides : b = op.absorbing :=
      by_contra fun hne => hb (hb'.trans (congrArg _ (Bool.eq_not_of_ne hne)))
    rw [if_pos hdecides, if_pos hdecides]

theorem not (ha : a.Pins a') (hs : s.Refines s') : (not a s).Pins (.not a' s') := by
  intro env henv
  have hfault : ∀ (a : Node) (s : Slot) (e : Fault), (a.answer env).result = .error e →
      ((Node.not a s).answer env).result = .error e := by
    intro a s e he
    rw [answer_not]
    exact Answer.result_fitting_error
      (Answer.map_eq_error.2 (Answer.pass_eq_error.2 (.inl he))) s
  refine (ha env henv).of_operand (i := 0) rfl rfl ?_ (hfault a s) (hfault a' s') fun ha => ?_
  · rw [execute]
    exact child_commit (fun _ => rfl) ..
  · refine .of_core (answer_not a s env) ?_ hs
    rw [answer_not, ha]
    rfl

theorem sign {g : Sign} (ha : a.Pins a') (hs : s.Refines s') :
    (sign g a s).Pins (.sign g a' s') := by
  intro env henv
  have hfault : ∀ (a : Node) (s : Slot) (e : Fault), (a.answer env).result = .error e →
      ((Node.sign g a s).answer env).result = .error e := by
    intro a s e he
    rw [answer_sign]
    exact Answer.result_fitting_error (Answer.pass_eq_error.2 (.inl he)) s
  refine (ha env henv).of_operand (i := 0) rfl rfl ?_ (hfault a s) (hfault a' s') fun ha => ?_
  · rw [execute]
    exact child_commit (fun _ => rfl) ..
  · refine .of_core (answer_sign g a s env) ?_ hs
    rw [answer_sign, ha]
    rfl

theorem both {node : Node → Node → Slot → Node} {f : Value → Answer Value → Answer Value}
    (h : RunsBoth node f) (hl : l.Pins l') (hr : r.Pins r') (hs : s.Refines s') :
    (node l r s).Pins (node l' r' s') := by
  intro env henv
  have hcore : ∀ (a b : Node) (s : Slot) {core : Answer Value},
      ((a.answer env).andThen fun v env => f v (b.answer env)) = core →
        (node a b s).answer env = core.fitting (node a b s).slot := by
    rintro a b s _ rfl
    rw [h.slot]
    exact h.answer a b s env
  have hrefines : (node l r s).slot.Refines (node l' r' s').slot := by
    rwa [h.slot, h.slot]
  have hleft : ∀ l r s, (node l r s).children[0]? = some l := by
    intro l r s
    rw [h.children]
    rfl
  have hright : ∀ l r s, (node l r s).children[1]? = some r := by
    intro l r s
    rw [h.children]
    rfl
  refine (hl env henv).of_operand (hleft l r s) (hleft l' r' s') ?_ (fun e he => ?_)
    (fun e he => ?_) fun hl => ?_
  · cases hv : (l.execute env).result with
    | error e => rw [h.node_error hv, hleft]
    | ok v =>
      obtain ⟨t, -, hnode⟩ := h.node_ok (r := r) (s := s) hv
      rw [hnode, hleft]
  · rw [h.answer]
    exact Answer.result_fitting_error (Answer.andThen_eq_error.2 (.inl he)) s
  · rw [h.answer]
    exact Answer.result_fitting_error (Answer.andThen_eq_error.2 (.inl he)) s'
  cases hv : (l.answer env).result with
  | error e =>
    refine .of_core (hcore l r s rfl) (hcore l' r' s' ?_) hrefines
    rw [hl, Answer.andThen_error hv, Answer.andThen_error hv]
  | ok v =>
    refine (hr (l.answer env).env (answer_inStore henv)).of_operand (hright l r s)
      (hright l' r' s') ?_ (fun e he => ?_) (fun e he => ?_) fun hr => ?_
    · obtain ⟨t, -, hnode⟩ := h.node_ok (r := r) (s := s) hv
      rw [hnode]
      exact hright ..
    · rw [h.answer, Answer.andThen_ok hv]
      exact Answer.result_fitting_error (h.fault v _ e he) s
    · rw [h.answer, hl, Answer.andThen_ok hv]
      exact Answer.result_fitting_error (h.fault v _ e he) s'
    · refine .of_core (hcore l r s rfl) (hcore l' r' s' ?_) hrefines
      rw [hl, Answer.andThen_ok hv, Answer.andThen_ok hv, hr]

theorem assign {op : AssignOp} {name : String} {target : Option Kind} (ha : a.Pins a')
    (hs : s.Refines s') : (assign op name target a s).Pins (.assign op name target a' s') := by
  intro env henv
  have hfault : ∀ (a : Node) (s : Slot) (e : Fault), (a.answer env).result = .error e →
      ((Node.assign op name target a s).answer env).result = .error e := by
    intro a s e he
    rw [answer_assign]
    exact Answer.andThen_eq_error.2 (.inl he)
  refine (ha env henv).of_operand (i := 0) rfl rfl ?_ (hfault a s) (hfault a' s') fun ha => ?_
  · rw [execute]
    cases (a.execute env).result.bind (assigned op (a.execute env).env.scope name) with
    | error e => rfl
    | ok v =>
      simp only
      cases bindVariable (a.execute env).env.scope name target s v with
      | error e => rfl
      | ok scope => exact child_commit (fun _ => rfl) ..
  cases hw : (a.answer env).result with
  | error e =>
    left
    rw [answer_assign, answer_assign, ha, Answer.andThen_error hw, Answer.andThen_error hw]
  | ok w =>
    cases hu : assigned op (a.answer env).env.scope name w with
    | error e =>
      left
      rw [answer_assign, answer_assign, ha, Answer.andThen_ok hw, Answer.andThen_ok hw]
      simp only [hu]
    | ok u =>
      rcases bindVariable_refines hs (answer_inStore (n := a) henv) name target u with
        hsame | ⟨fixed, hne, hopen, hfixed, hrefuse, htake⟩
      · left
        rw [answer_assign, answer_assign, ha, Answer.andThen_ok hw, Answer.andThen_ok hw]
        simp only [hu, hsame]
      · refine .inr ⟨[], fixed, u.kind, hne, hopen, hfixed, ?_, htake.imp ?_ ?_⟩
        · rw [answer_assign, ha, Answer.andThen_ok hw]
          simp only [hu, hrefuse]
        · rintro ⟨scope, hscope⟩
          have hrun : ((Node.assign op name target a s).answer env).result = .ok u := by
            rw [answer_assign, Answer.andThen_ok hw]
            simp only [hu, hscope]
          rw [kindAt, (slot_and_kind_of_execute hrun).1]
          rfl
        · rintro ⟨wanted, hwanted⟩
          refine ⟨name, wanted, ?_⟩
          rw [answer_assign, Answer.andThen_ok hw]
          simp only [hu, hwanted]

/-- Arguments come to the same, or one of them clashes. -/
theorem answerAll (h : List.Forall₂ Pins args args') (henv : env.InStore) :
    answerAll args' env = Node.answerAll args env ∨
      Clash (kindIn args) (kindIn args') (kindIn (executeAll args env).nodes)
        (Node.answerAll args env).result (Node.answerAll args' env).result := by
  induction h generalizing env with
  | nil => exact .inl rfl
  | @cons n n' ns ns' hn _ ih =>
    have hfault : ∀ (n : Node) (ns : List Node) (e : Fault), (n.answer env).result = .error e →
        (Node.answerAll (n :: ns) env).result = .error e := by
      intro n ns e he
      rw [answerAll_cons]
      exact Answer.andThen_eq_error.2 (.inl he)
    rcases hn env henv with hsame | hclash
    · rw [answerAll_cons, answerAll_cons, hsame]
      cases hv : (n.answer env).result with
      | error e => exact .inl (by rw [Answer.andThen_error hv, Answer.andThen_error hv])
      | ok v =>
        rw [Answer.andThen_ok hv, Answer.andThen_ok hv]
        refine (ih (answer_inStore (n := n) henv)).imp (fun h => congrArg _ h) fun h => ?_
        refine h.under (fun place => (place.1 + 1, place.2)) (fun _ => rfl) (fun _ => rfl)
          (fun place => ?_) (fun e he => Answer.map_eq_error.2 he)
          (fun e he => Answer.map_eq_error.2 he)
        have hv' : (n.execute env).result = .ok v := hv
        rw [executeAll, hv']
        rfl
    · refine .inr (hclash.under (fun path => (0, path)) (fun _ => rfl) (fun _ => rfl)
        (fun path => ?_) (hfault n ns) (hfault n' ns'))
      rw [executeAll]
      cases (n.execute env).result with
      | error e => rfl
      | ok v => rfl

theorem call {name : String} {f : Overload} {b b' : Buffer}
    (hargs : List.Forall₂ Pins args args') (hs : s.Refines s') :
    (call name f args b s).Pins (.call name f args' b' s') := by
  intro env henv
  have hfault : ∀ (args : List Node) (b : Buffer) (s : Slot) (e : Fault),
      (Node.answerAll args env).result = .error e →
        ((Node.call name f args b s).answer env).result = .error e := by
    intro args b s e he
    rw [answer_call]
    exact Answer.result_fitting_error (Answer.andThen_eq_error.2 (.inl he)) s
  rcases answerAll hargs henv with hsame | hclash
  · refine .of_core (answer_call name f args b s env) ?_ hs
    rw [answer_call, hsame]
    rfl
  · refine .inr (hclash.under (fun place => place.1 :: place.2) (fun _ => rfl) (fun _ => rfl)
      (fun place => ?_) (hfault args b s) (hfault args' b' s'))
    have hnodes : ((Node.call name f args b s).execute env).node.children =
        (executeAll args env).nodes := by
      rw [execute_call]
      cases (executeAll args env).fault with
      | some e => rfl
      | none =>
        simp only
        obtain ⟨s', -, hnode⟩ := node_commit
          (Node.call name f (executeAll args env).nodes b.clear) s _ _
        rw [hnode]
        rfl
    rw [kindAt, hnodes]
    rfl

end Pins

end Node

/-! ## Expressions -/

end Formula

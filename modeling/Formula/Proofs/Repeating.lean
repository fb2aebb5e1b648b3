import Formula.Proofs.Matching
import Formula.Proofs.Purity

/-!
# Runs after a run

A run leaves its mark on the slots of a tree : from then on a node that came to a value has
values of that kind only. The mark makes no difference in surroundings in which the values of
each term are of one kind anyway (`Term.Stable`). There the tree that a run leaves comes to
the same as the tree that was run, whether the run came to a value or not
(`Node.matches_execute_node`).

This holds of terms without effects. An assignment that has bound its variable once may refuse
a value before the store does, and then the fault is another one.
-/

namespace Formula

variable {P : Env → Prop}

/-- In all surroundings with `P`, the values of the term are of one kind. -/
def Term.Stable (P : Env → Prop) (t : Term) : Prop :=
  ∀ env env' v v', P env → P env' → (t.eval env).result = .ok v →
    (t.eval env').result = .ok v' → v'.kind = v.kind

/-- The same surroundings, which have `P`. -/
def Env.Within (P : Env → Prop) (env env' : Env) : Prop := env' = env ∧ P env

theorem Answer.fitting_free (a : Answer Value) : a.fitting (.ofKind none) = a :=
  fitting_of_admits fun _ _ => .inl rfl

namespace Node

variable {n m : Node} {env env' : Env}

theorem Matches.within (hn : n.term.Forall (Term.Keeps P))
    (h : ∀ env, P env → m.answer env = n.answer env) : n.Matches (Env.Within P) m := by
  rintro _ env ⟨rfl, henv⟩
  rw [h env henv]
  exact ⟨rfl, rfl, answer_keeps hn henv⟩

theorem Matches.answer_eq (h : n.Matches (Env.Within P) m) (henv : P env) :
    m.answer env = n.answer env := by
  obtain ⟨hresult, henv, -⟩ := h env env ⟨rfl, henv⟩
  cases hm : m.answer env
  rw [hm] at hresult henv
  subst hresult henv
  rfl

theorem eval_result_of_answer_ok {v : Value} (h : (n.answer env).result = .ok v) :
    (n.term.eval env).result = .ok v := by
  have hanswer : n.answer env = ⟨.ok v, (n.answer env).env⟩ := by rw [← h]
  rw [eval_of_answer_ok hanswer]

/-- A slot that has kept a value of a term that is stable refuses nothing that the slot before
would not. -/
theorem answer_node_of_commit (orig : Slot → Node) {node : Slot → Node}
    {core : Env → Answer Value} {s : Slot} {env₁ : Env} {r : Except Fault Value}
    (horig : ∀ s env, (orig s).answer env = (core env).fitting s)
    (hstable : (orig (.ofKind none)).term.Stable P)
    (hsame : ∀ s env, P env → (node s).answer env = (orig s).answer env)
    (hrun : ∀ s, (orig s).execute env = commit node s env₁ r) (henv : P env) (henv' : P env') :
    ((orig s).execute env).node.answer env' = (orig s).answer env' := by
  have hfree : ∀ env, (orig (.ofKind none)).answer env = core env :=
    fun env => (horig _ env).trans (Answer.fitting_free _)
  have hcore : core env = ⟨r, env₁⟩ := by
    rw [← hfree, answer, hrun, answer_commit, Answer.fitting_free]
  rw [hrun]
  cases r with
  | error e => exact hsame s env' henv'
  | ok v =>
    rw [commit]
    cases hs : s.store v with
    | error e => exact hsame s env' henv'
    | ok kept =>
      obtain ⟨hadmits, rfl⟩ := Slot.store_eq_ok.1 hs
      have hkind : ∀ v', (core env').result = .ok v' → v'.kind = v.kind := by
        intro v' hv'
        refine hstable env env' v v' henv henv' (eval_result_of_answer_ok ?_)
          (eval_result_of_answer_ok ?_)
        · rw [hfree, hcore]
        · rw [hfree, hv']
      rw [hsame _ env' henv', horig, horig, Answer.fitting_of_admits, Answer.fitting_of_admits]
      · exact fun v' hv' => hkind v' hv' ▸ hadmits
      · exact fun v' hv' => .inr (congrArg some (hkind v' hv').symm)

/-! ## Form by form -/

/-- What runs of the tree leave of it matches it. -/
def Unmarked (P : Env → Prop) (n : Node) : Prop :=
  ∀ ⦃env⦄, P env → n.Matches (Env.Within P) (n.execute env).node

theorem Matches.self (hn : n.term.Forall (Term.Keeps P)) : n.Matches (Env.Within P) n :=
  .within hn fun _ _ => rfl

namespace Unmarked

variable {l r a : Node} {s : Slot}

theorem read {name : String} {c : Bool} (hkeeps : (read name c s).term.Forall (Term.Keeps P))
    (hstable : (read name c s).term.Stable P) : (read name c s).Unmarked P :=
  fun _ henv => .within hkeeps fun _ => answer_node_of_commit (Node.read name c)
    (answer_read name c) hstable (fun _ _ _ => rfl) (fun s => by rw [execute]) henv

theorem logic {op : Connective} (hkeeps : (logic op l r s).term.Forall (Term.Keeps P))
    (hstable : (logic op l r s).term.Stable P) (hl : l.Unmarked P) (hr : r.Unmarked P) :
    (logic op l r s).Unmarked P := by
  intro env henv
  refine .within hkeeps fun env' henv' => ?_
  rw [term, Term.forall_logic] at hkeeps
  have hself : r.Matches (Env.Within P) r := .self hkeeps.2.2
  have hl := hl henv
  have hr := hr (answer_keeps hkeeps.2.1 henv)
  cases hres : (l.execute env).result.bind (Value.asBool op.symbol) with
  | error e =>
    rw [execute, hres]
    exact (hl.logic hself).answer_eq henv'
  | ok b =>
    by_cases hb : b = op.absorbing
    · exact answer_node_of_commit (Node.logic op l r) (answer_logic op l r) hstable
        (fun _ _ h => (hl.logic hself).answer_eq h)
        (fun s => by simp only [execute, hres, if_pos hb]; rfl) henv henv'
    · exact answer_node_of_commit (Node.logic op l r) (answer_logic op l r) hstable
        (fun _ _ h => (hl.logic hr).answer_eq h)
        (fun s => by simp only [execute, hres, if_neg hb]; rfl) henv henv'

theorem not (hkeeps : (not a s).term.Forall (Term.Keeps P)) (hstable : (not a s).term.Stable P)
    (ha : a.Unmarked P) : (not a s).Unmarked P :=
  fun _ henv => .within hkeeps fun _ => answer_node_of_commit (Node.not a) (answer_not a)
    hstable (fun _ _ h => (ha henv).not.answer_eq h) (fun s => by rw [execute]) henv

theorem sign {g : Sign} (hkeeps : (sign g a s).term.Forall (Term.Keeps P))
    (hstable : (sign g a s).term.Stable P) (ha : a.Unmarked P) : (sign g a s).Unmarked P :=
  fun _ henv => .within hkeeps fun _ => answer_node_of_commit (Node.sign g a) (answer_sign g a)
    hstable (fun _ _ h => (ha henv).sign.answer_eq h) (fun s => by rw [execute]) henv

/-- A node that runs one operand after the other, and leaves the second one alone if the first
one fails. -/
theorem both {node : Node → Node → Slot → Node} {core : Env → Answer Value}
    (hanswer : ∀ s env, (node l r s).answer env = (core env).fitting s)
    (hmatches : ∀ {l' r' : Node} {s : Slot}, l.Matches (Env.Within P) l' →
      r.Matches (Env.Within P) r' → (node l r s).Matches (Env.Within P) (node l' r' s))
    (herror : ∀ {env e}, (l.execute env).result = .error e →
      ((node l r s).execute env).node = node (l.execute env).node r s)
    (hok : ∀ {env v}, (l.execute env).result = .ok v → ∃ res, ∀ s, (node l r s).execute env =
      commit (node (l.execute env).node (r.execute (l.execute env).env).node) s
        (r.execute (l.execute env).env).env res)
    (hkeeps : (node l r s).term.Forall (Term.Keeps P))
    (hstable : (node l r (.ofKind none)).term.Stable P) (hkeepsl : l.term.Forall (Term.Keeps P))
    (hkeepsr : r.term.Forall (Term.Keeps P)) (hl : l.Unmarked P) (hr : r.Unmarked P) :
    (node l r s).Unmarked P := by
  intro env henv
  refine .within hkeeps fun env' henv' => ?_
  have hl := hl henv
  have hr := hr (answer_keeps hkeepsl henv)
  cases hres : (l.execute env).result with
  | error e =>
    rw [herror hres]
    exact (hmatches hl (.self hkeepsr)).answer_eq henv'
  | ok v =>
    obtain ⟨res, hrun⟩ := hok hres
    exact answer_node_of_commit (node l r) hanswer hstable
      (fun _ _ h => (hmatches hl hr).answer_eq h) hrun henv henv'

theorem arith {op : ArithOp} (hkeeps : (arith op l r s).term.Forall (Term.Keeps P))
    (hstable : (arith op l r s).term.Stable P) (hl : l.Unmarked P) (hr : r.Unmarked P) :
    (arith op l r s).Unmarked P :=
  have hparts := Term.forall_arith.1 hkeeps
  both (answer_arith op l r) Matches.arith (fun h => by simp only [execute, h])
    (fun h => ⟨_, fun s => by simp only [execute, h]; rfl⟩) hkeeps hstable hparts.2.1 hparts.2.2
    hl hr

theorem compare {op : CompareOp} (hkeeps : (compare op l r s).term.Forall (Term.Keeps P))
    (hstable : (compare op l r s).term.Stable P) (hl : l.Unmarked P) (hr : r.Unmarked P) :
    (compare op l r s).Unmarked P :=
  have hparts := Term.forall_compare.1 hkeeps
  both (answer_compare op l r) Matches.compare (fun h => by simp only [execute, h])
    (fun h => ⟨_, fun s => by simp only [execute, h]; rfl⟩) hkeeps hstable hparts.2.1 hparts.2.2
    hl hr

theorem sequence (hkeeps : (sequence l r s).term.Forall (Term.Keeps P))
    (hstable : (sequence l r s).term.Stable P) (hl : l.Unmarked P) (hr : r.Unmarked P) :
    (sequence l r s).Unmarked P :=
  have hparts := Term.forall_sequence.1 hkeeps
  both (answer_sequence l r) Matches.sequence (fun h => by simp only [execute, h])
    (fun h => ⟨_, fun s => by simp only [execute, h]; rfl⟩) hkeeps hstable hparts.2.1 hparts.2.2
    hl hr

theorem executeAll {ns : List Node} (hkeeps : ∀ n ∈ ns, n.term.Forall (Term.Keeps P))
    (hns : ∀ n ∈ ns, n.Unmarked P) (henv : P env) :
    List.Forall₂ (Matches (Env.Within P)) ns (executeAll ns env).nodes := by
  induction ns generalizing env with
  | nil => exact .nil
  | cons n ns ih =>
    rw [List.forall_mem_cons] at hkeeps hns
    rw [Node.executeAll]
    cases (n.execute env).result with
    | error e =>
      exact .cons (hns.1 henv) (List.forall₂_same.2 fun m hm => .self (hkeeps.2 m hm))
    | ok v => exact .cons (hns.1 henv) (ih hkeeps.2 hns.2 (answer_keeps hkeeps.1 henv))

theorem call {name : String} {f : Overload} {args : List Node} {b : Buffer}
    (hkeeps : (call name f args b s).term.Forall (Term.Keeps P))
    (hstable : (call name f args b s).term.Stable P) (hargs : ∀ a ∈ args, a.Unmarked P) :
    (call name f args b s).Unmarked P := by
  intro env henv
  refine .within hkeeps fun env' henv' => ?_
  rw [term, terms_eq_map, Term.forall_call, List.forall_mem_map] at hkeeps
  have hargs := executeAll hkeeps.2 hargs henv
  have hcall : (Term.call name f (args.map term)).KeepsBoth (Env.Within P) := by
    rintro _ env vs ⟨rfl, henv⟩
    exact ⟨rfl, rfl, hkeeps.1 env vs henv⟩
  cases hfault : (Node.executeAll args env).fault with
  | some e =>
    rw [execute_call, hfault]
    exact (Matches.call hcall hargs).answer_eq henv'
  | none =>
    exact answer_node_of_commit (Node.call name f args b) (answer_call name f args b) hstable
      (fun _ _ h => (Matches.call hcall hargs).answer_eq h)
      (fun s => by simp only [execute_call, hfault]; rfl) henv henv'

end Unmarked

/-- Where the values of each term are of one kind, what a run leaves of a tree without effects
matches the tree. -/
theorem matches_execute_node {q : Term → Prop} (hq : ∀ t, q t → t.Quiet ∧ t.Keeps P)
    (hstable : ∀ t : Term, t.Forall q → t.Stable P) (hn : n.term.Forall q) : n.Unmarked P := by
  have hkeeps : ∀ {m : Node}, m.term.Forall q → m.term.Forall (Term.Keeps P) :=
    fun hm => hm.imp fun t ht => (hq t ht).2
  induction n with
  | literal v => exact fun _ _ => .self (hkeeps hn)
  | read name c s => exact .read (hkeeps hn) (hstable _ hn)
  | logic op l r s ihl ihr =>
    have hparts := Term.forall_logic.1 hn
    exact .logic (hkeeps hn) (hstable _ hn) (ihl hparts.2.1) (ihr hparts.2.2)
  | not a s ih => exact .not (hkeeps hn) (hstable _ hn) (ih (Term.forall_not.1 hn).2)
  | sign g a s ih => exact .sign (hkeeps hn) (hstable _ hn) (ih (Term.forall_sign.1 hn).2)
  | arith op l r s ihl ihr =>
    have hparts := Term.forall_arith.1 hn
    exact .arith (hkeeps hn) (hstable _ hn) (ihl hparts.2.1) (ihr hparts.2.2)
  | compare op l r s ihl ihr =>
    have hparts := Term.forall_compare.1 hn
    exact .compare (hkeeps hn) (hstable _ hn) (ihl hparts.2.1) (ihr hparts.2.2)
  | assign op name target a s ih => exact (hq _ (Term.forall_assign.1 hn).1).1.elim
  | call name f args b s ih =>
    have hparts := hn
    rw [term, terms_eq_map, Term.forall_call, List.forall_mem_map] at hparts
    exact .call (hkeeps hn) (hstable _ hn) fun a ha => ih a ha (hparts.2 a ha)
  | sequence a b s iha ihb =>
    have hparts := Term.forall_sequence.1 hn
    exact .sequence (hkeeps hn) (hstable _ hn) (iha hparts.2.1) (ihb hparts.2.2)

/-- Where no two surroundings with `P` can be told apart, a run of a tree without effects leaves
no mark. -/
theorem matches_execute_blind
    (hn : n.term.Forall fun t => t.Quiet ∧ t.KeepsBoth fun env env' => P env ∧ P env')
    (henv : P env) : n.Matches (Env.Within P) (n.execute env).node := by
  refine matches_execute_node (fun t ht => ⟨ht.1, ?_⟩)
    (fun t ht env₁ env₂ v w h₁ h₂ hv hw => ?_) hn henv
  · cases t with
    | assign op name v => exact ht.1.elim
    | call name f args => exact fun env vs h => (ht.2 env env vs ⟨h, h⟩).env.1
    | _ => trivial
  · have hsame := (Term.eval_matches (ht.imp fun _ h => h.2) ⟨h₁, h₂⟩).result
    rw [hv, hw] at hsame
    rw [Except.ok.inj hsame]

end Node

end Formula

import Formula.Proofs.Builtins
import Formula.Proofs.Recompiling
import Formula.Proofs.Repeating
import Formula.Proofs.Sessions

/-!
# One expression in many stores

In a formula without assignments that calls only functions that are always there, the kind of
every value follows from the kinds of the variables (`Term.stable_of_uniform`). Stores that bind
each variable to values of one kind only, or leave it unbound, therefore never bring a value
that a slot refuses because of an earlier run : an expression that has been run comes to the
same as one that has not (`Expression.results_runs`), and as one that is compiled again
(`Compiler.results_runs_eq_fresh`).
-/

namespace Formula

/-- The scope binds the names in `p` to values of their kinds, as far as it binds them. -/
def Scope.HasKinds (p : String → Prop) (kinds : String → Kind) (s : Scope) : Prop :=
  ∀ name v, p name → s.get? name = some v → v.kind = kinds name

theorem Scope.HasKinds.of_forall {p : String → Prop} {kinds : String → Kind}
    {bindings : List (String × Value)} (h : ∀ b ∈ bindings, b.2.kind = kinds b.1) :
    (Scope.store (.ofList bindings)).HasKinds p kinds := by
  have hfold : ∀ {bindings : List (String × Value)} {vars : Variables},
      (∀ b ∈ bindings, b.2.kind = kinds b.1) → (Scope.store vars).HasKinds p kinds →
        (Scope.store (bindings.foldl (fun vars b => vars.insert b.1 b.2) vars)).HasKinds p
          kinds := by
    intro bindings
    induction bindings with
    | nil => exact fun _ hvars => hvars
    | cons b bs ih =>
      intro vars hb hvars
      rw [List.forall_mem_cons] at hb
      refine ih hb.2 fun name v hp hv => ?_
      have hset : (Scope.store vars).set b.1 b.2 = .ok (.store (vars.insert b.1 b.2)) := rfl
      rw [get?_of_set hset name] at hv
      split_ifs at hv with hname
      · obtain rfl := Option.some.inj hv
        rw [hname, hb.1]
      · exact hvars name v hp hv
  exact hfold h fun name v _ hv => by simp [get?, Scope.vars, Variables.empty, Variables.get?,
    Names.empty, Names.lookup?] at hv

namespace Term

/-- What can stand at one place of a term without assignments : a variable in `p`, and a
function whose arguments' kinds decide the kind of its answer. -/
def Uniform (p : String → Prop) : Term → Prop
  | read name _ => p name
  | assign .. => False
  | call _ f _ => f.function.Uniform
  | _ => True

variable {p : String → Prop} {kinds : String → Kind} {t : Term}

/-- Nothing in such a term notices the calls that were made before. -/
theorem blind_uniform : Blind (fun env env' => env'.scope = env.scope) (Uniform p) where
  assign _ _ _ _ h := h
  call _ _ _ _ h := h
  keepsBoth t ht := by
    cases t with
    | read name c =>
      intro env env' h
      rw [h]
    | assign op name v => exact ht.elim
    | call name f args => exact fun env env' vs h => ⟨ht.answer _ _ vs, h⟩
    | _ => trivial

theorem Uniform.quiet (ht : t.Uniform p) : t.Quiet := by
  cases t with
  | assign op name v => exact ht
  | call name f args => exact ht.isPure
  | _ => trivial

theorem Uniform.keeps (ht : t.Uniform p) : t.Keeps fun env => env.scope.HasKinds p kinds := by
  cases t with
  | assign op name v => exact ht.elim
  | call name f args => exact fun env vs henv => henv
  | _ => trivial

theorem eval_hasKinds {env : Env} (ht : t.Forall (Uniform p)) (henv : env.scope.HasKinds p kinds) :
    (t.eval env).env.scope.HasKinds p kinds :=
  eval_keeps (P := fun env => env.scope.HasKinds p kinds) (ht.imp fun _ h => h.keeps) henv

theorem evalAll_kinds {ts : List Term} {env env' : Env} {vs vs' : List Value}
    (ih : ∀ t ∈ ts, t.Stable fun env => env.scope.HasKinds p kinds)
    (ht : ∀ t ∈ ts, t.Forall (Uniform p)) (henv : env.scope.HasKinds p kinds)
    (henv' : env'.scope.HasKinds p kinds) (hv : (evalAll ts env).result = .ok vs)
    (hv' : (evalAll ts env').result = .ok vs') :
    vs'.map Value.kind = vs.map Value.kind := by
  induction ts generalizing env env' vs vs' with
  | nil =>
    rw [← Except.ok.inj hv, ← Except.ok.inj hv']
  | cons t ts ihs =>
    rw [List.forall_mem_cons] at ih ht
    obtain ⟨v, hhead, hv⟩ := Answer.result_andThen_eq_ok.1 hv
    obtain ⟨v', hhead', hv'⟩ := Answer.result_andThen_eq_ok.1 hv'
    obtain ⟨us, htail, rfl⟩ := Answer.result_map_eq_ok.1 hv
    obtain ⟨us', htail', rfl⟩ := Answer.result_map_eq_ok.1 hv'
    rw [List.map_cons, List.map_cons, ih.1 _ _ v v' henv henv' hhead hhead',
      ihs ih.2 ht.2 (eval_hasKinds ht.1 henv) (eval_hasKinds ht.1 henv') htail htail']

/-- The kind of every value follows from the kinds of the variables. -/
theorem stable_of_uniform (ht : t.Forall (Uniform p)) :
    t.Stable fun env => env.scope.HasKinds p kinds := by
  induction t with
  | literal v =>
    intro env env' u u' _ _ hu hu'
    rw [← Except.ok.inj hu, ← Except.ok.inj hu']
  | read name c =>
    intro env env' v v' henv henv' hv hv'
    have hp : p name := forall_read.1 ht
    rw [henv name v hp (Node.readVariable_eq_ok.1 hv),
      henv' name v' hp (Node.readVariable_eq_ok.1 hv')]
  | logic op l r ihl ihr =>
    have hkind : ∀ {env v}, ((logic op l r).eval env).result = .ok v → v.kind = .boolean := by
      intro env v hv
      obtain ⟨b, -, hv⟩ := Answer.result_andThen_eq_ok.1 hv
      split at hv
      · exact Except.ok.inj hv ▸ rfl
      · obtain ⟨c, -, rfl⟩ := Answer.result_map_eq_ok.1 hv
        rfl
    exact fun env env' v v' _ _ hv hv' => (hkind hv').trans (hkind hv).symm
  | not a ih =>
    intro env env' v v' _ _ hv hv'
    obtain ⟨b, -, rfl⟩ := Answer.result_map_eq_ok.1 hv
    obtain ⟨c, -, rfl⟩ := Answer.result_map_eq_ok.1 hv'
    rfl
  | sign s a ih =>
    intro env env' v v' henv henv' hv hv'
    obtain ⟨u, hu, hv⟩ := Answer.result_pass_eq_ok.1 hv
    obtain ⟨u', hu', hv'⟩ := Answer.result_pass_eq_ok.1 hv'
    rw [(Node.applySign_kind hv).2, (Node.applySign_kind hv').2,
      ih (forall_sign.1 ht).2 _ _ u u' henv henv' hu hu']
  | arith op l r ihl ihr =>
    intro env env' v v' henv henv' hv hv'
    rw [forall_arith] at ht
    obtain ⟨x, hx, hv⟩ := Answer.result_andThen_eq_ok.1 hv
    obtain ⟨x', hx', hv'⟩ := Answer.result_andThen_eq_ok.1 hv'
    obtain ⟨y, hy, hv⟩ := Answer.result_pass_eq_ok.1 hv
    obtain ⟨y', hy', hv'⟩ := Answer.result_pass_eq_ok.1 hv'
    have hxkind := ihl ht.2.1 _ _ x x' henv henv' hx hx'
    have hykind := ihr ht.2.2 _ _ y y' (eval_hasKinds ht.2.1 henv) (eval_hasKinds ht.2.1 henv')
      hy hy'
    have hmeet := Value.arith_kind hv'
    rw [hxkind, hykind, Value.arith_kind hv] at hmeet
    exact (Except.ok.inj hmeet).symm
  | compare op l r ihl ihr =>
    intro env env' v v' _ _ hv hv'
    obtain ⟨x, -, hv⟩ := Answer.result_andThen_eq_ok.1 hv
    obtain ⟨x', -, hv'⟩ := Answer.result_andThen_eq_ok.1 hv'
    obtain ⟨b, -, rfl⟩ := Answer.result_map_eq_ok.1 hv
    obtain ⟨c, -, rfl⟩ := Answer.result_map_eq_ok.1 hv'
    rfl
  | assign op name v ih => exact (forall_assign.1 ht).1.elim
  | call name f args ih =>
    intro env env' v v' henv henv' hv hv'
    rw [forall_call] at ht
    obtain ⟨vs, hvs, hv⟩ := Answer.result_andThen_eq_ok.1 hv
    obtain ⟨vs', hvs', hv'⟩ := Answer.result_andThen_eq_ok.1 hv'
    have hargs := evalAll_kinds (fun a ha => ih a ha (ht.2 a ha)) ht.2 henv henv' hvs hvs'
    -- the calls made before make no difference, and so the two runs may share a history
    refine ht.1.kinds [] vs vs' v v' hargs ?_ ?_
    · exact (ht.1.answer _ _ vs).trans hv
    · exact (ht.1.answer _ _ vs').trans hv'
  | sequence a b iha ihb =>
    intro env env' v v' henv henv' hv hv'
    rw [forall_sequence] at ht
    obtain ⟨x, -, hv⟩ := Answer.result_andThen_eq_ok.1 hv
    obtain ⟨x', -, hv'⟩ := Answer.result_andThen_eq_ok.1 hv'
    exact ihb ht.2.2 _ _ v v' (eval_hasKinds ht.2.1 henv) (eval_hasKinds ht.2.1 henv') hv hv'

end Term

namespace Expression

variable {e : Expression} {p : String → Prop} {kinds : String → Kind} {history h : History}

theorem result_execute_congr (he : e.root.term.Forall (Term.Uniform p)) (s : Scope) :
    (e.execute ⟨s, h⟩).result = (e.execute ⟨s, history⟩).result := by
  have hrun : (e.root.execute ⟨s, history⟩).Matches _ (e.root.execute ⟨s, h⟩) :=
    Node.execute_matches (he.imp Term.blind_uniform.keepsBoth) rfl
  exact hrun.result

/-- An expression that has been run comes to the same as one that has not. -/
theorem result_execute_again (he : e.root.term.Forall (Term.Uniform p)) {s s' : Scope}
    (hs : s.HasKinds p kinds) (hs' : s'.HasKinds p kinds) :
    ((e.execute ⟨s, history⟩).expression.execute ⟨s', h⟩).result =
      (e.execute ⟨s', h⟩).result := by
  have hmatches : e.root.Matches (Env.Within fun env => env.scope.HasKinds p kinds)
      (e.root.execute ⟨s, history⟩).node :=
    Node.matches_execute_node (fun t ht => ⟨Term.Uniform.quiet ht, Term.Uniform.keeps ht⟩)
      (fun t ht => Term.stable_of_uniform ht) he hs
  have hanswer : (e.root.execute ⟨s, history⟩).node.answer ⟨s', h⟩ = e.root.answer ⟨s', h⟩ :=
    hmatches.answer_eq hs'
  exact congrArg Answer.result hanswer

/-- In stores that bind each variable to values of one kind, every run comes to what a first
run comes to. -/
theorem results_runs {scopes : List Scope} (he : e.root.term.Forall (Term.Uniform p))
    (hscopes : ∀ s ∈ scopes, s.HasKinds p kinds) (h : History) :
    (e.runs history scopes).map Run.result =
      scopes.map fun s => (e.execute ⟨s, h⟩).result := by
  induction scopes generalizing e history with
  | nil => rfl
  | cons s ss ih =>
    rw [List.forall_mem_cons] at hscopes
    -- the next run starts from another tree, of the same term, that comes to the same everywhere
    have hterm : (e.execute ⟨s, history⟩).expression.root.term = e.root.term :=
      Node.term_execute
    have hnext : (e.execute ⟨s, history⟩).expression.root.term.Forall (Term.Uniform p) := by
      rwa [hterm]
    rw [runs, List.map_cons, List.map_cons, ih hnext hscopes.2, result_execute_congr he]
    refine congrArg _ (List.map_congr_left fun s' hs' => ?_)
    exact result_execute_again he hscopes.1 (hscopes.2 s' hs')

end Expression

/-- Without assignments and with functions that are uniform, the tree of a text is. -/
theorem Node.Built.uniform {ctx : BuildContext} {es : List Element} {n : Node}
    (hb : Node.Built ctx es n) (hassign : ∀ x ∈ es, ∀ op, x.role ≠ .assign op)
    (hcalls : ∀ x ∈ es, x.role = .function → ∀ f,
      ctx.registry.resolve x.lexeme x.argc = .ok f → f.function.Uniform) :
    n.term.Forall (Term.Uniform (Element.UseVariable es)) := by
  induction hb with
  | literal v => exact Term.forall_literal.2 trivial
  | read he hrole _ => exact Term.forall_read.2 ⟨_, he, hrole, rfl⟩
  | logic _ _ ihl ihr => exact Term.forall_logic.2 ⟨trivial, ihl, ihr⟩
  | not _ ih => exact Term.forall_not.2 ⟨trivial, ih⟩
  | sign _ ih => exact Term.forall_sign.2 ⟨trivial, ih⟩
  | arith _ _ ihl ihr => exact Term.forall_arith.2 ⟨trivial, ihl, ihr⟩
  | compare _ _ ihl ihr => exact Term.forall_compare.2 ⟨trivial, ihl, ihr⟩
  | @assign op _ _ _ _ _ hop _ _ =>
    obtain ⟨a, ha, hrole⟩ := hop
    exact absurd hrole (hassign a ha op)
  | call he hrole hlen hf _ ih =>
    rw [Node.term, Node.terms_eq_map, Term.forall_call, List.forall_mem_map]
    exact ⟨hcalls _ he hrole _ (hlen ▸ hf), ih⟩
  | sequence _ _ iha ihb => exact Term.forall_sequence.2 ⟨trivial, iha, ihb⟩

namespace Compiler

/-- Every call in the elements means one of the functions that are always there. -/
def CallsBuiltins (c : Compiler) (es : List Element) : Prop :=
  ∀ x ∈ es, x.role = .function → ∀ f, c.registry.resolve x.lexeme x.argc = .ok f →
    ∃ name, (name, f.function) ∈ Registry.builtins.entries

/-- Without functions of the host, every call means a function that is always there. -/
theorem callsBuiltins_of_registry {c : Compiler} (h : c.registry = .builtins) (es : List Element) :
    c.CallsBuiltins es := by
  intro x _ _ f hf
  rw [h] at hf
  exact ⟨x.lexeme, List.mem_of_getElem? (Registry.getElem?_of_resolve hf)⟩

/-- Running an expression again equals compiling it afresh. In a formula without assignments
whose calls mean functions that are always there, let each variable have a kind. Through any
stores that bind the variables to values of their kinds, or leave them unbound, each run of one
expression comes to what the first run of a fresh copy comes to in the same store, whether that
is a value or a fault, and whatever was called before. -/
theorem results_runs_eq_fresh {c : Compiler} {source : String} {scope : Scope}
    {es : List Element} {kinds : String → Kind} {scopes : List Scope}
    (hes : Element.postfixOfText source = .ok es)
    (hassign : ∀ x ∈ es, ∀ op, x.role ≠ .assign op) (hcalls : c.CallsBuiltins es)
    (hscopes : ∀ s ∈ scopes, s.HasKinds (Element.UseVariable es) kinds) :
    (∀ e, c.compilePlain source scope = .ok e → ∀ history history',
      (e.runs history scopes).map Run.result =
        scopes.map fun s => (e.execute ⟨s, history'⟩).result) ∧
    ∀ e before, (c.compile source scope before).result = .ok e → ∀ before',
      ∃ fresh, (c.compile source scope before').result = .ok fresh ∧ ∀ history history',
        (e.runs history scopes).map Run.result =
          scopes.map fun s => (fresh.execute ⟨s, history'⟩).result := by
  have huniform : ∀ {root}, c.build source scope = .ok root →
      root.term.Forall (Term.Uniform (Element.UseVariable es)) := by
    intro root hroot
    obtain ⟨es', hes', hbuilt, -⟩ := build_built hroot
    obtain rfl := Except.ok.inj (hes.symm.trans hes')
    refine hbuilt.uniform hassign fun x hx hrole f hf => ?_
    obtain ⟨name, hf⟩ := hcalls x hx hrole f hf
    exact Registry.uniform_builtins _ hf
  constructor
  · intro e he history history'
    obtain ⟨root, hroot, rfl⟩ := Except.map_eq_ok.1 he
    exact Expression.results_runs (huniform hroot) hscopes history'
  · intro e before he before'
    unfold compile at he ⊢
    cases hroot : c.build source scope with
    | error fault => simp [hroot] at he
    | ok root =>
      rw [hroot] at he
      obtain ⟨m, hm, rfl⟩ := Except.map_eq_ok.1 he
      have hmatches : (root.optimize ⟨scope.toSealed, before⟩).Matches _ _
          (root.optimize ⟨scope.toSealed, before'⟩) :=
        Node.optimize_matches Term.blind_uniform (huniform hroot) rfl
      refine ⟨.ofNode m, ?_, fun history history' => ?_⟩
      · simp only [hmatches.result, hm]
        rfl
      · exact Expression.results_runs (hmatches.node m hm) hscopes history'

/-- A run that decides early, one that fails and one that does neither, in a row. -/
theorem results_runs_eq_fresh_max :
    ∃ es plain optimized fresh,
      Element.postfixOfText "y > 0 && max(x, 1 + 1) / y > 1" = .ok es ∧
      compilePlain standard "y > 0 && max(x, 1 + 1) / y > 1" .empty = .ok plain ∧
      (compile standard "y > 0 && max(x, 1 + 1) / y > 1" .empty []).result = .ok optimized ∧
      (compile standard "y > 0 && max(x, 1 + 1) / y > 1" .empty [⟨4, true, []⟩]).result =
        .ok fresh ∧
      (plain.runs [] [.store (.ofList [("y", .integer 0)]), .empty,
          .store (.ofList [("x", .integer 4), ("y", .integer 1)])]).map Run.result =
        [.store (.ofList [("y", .integer 0)]), .empty,
          .store (.ofList [("x", .integer 4), ("y", .integer 1)])].map
            (fun s => (plain.execute ⟨s, []⟩).result) ∧
      (optimized.runs [] [.store (.ofList [("y", .integer 0)]), .empty,
          .store (.ofList [("x", .integer 4), ("y", .integer 1)])]).map Run.result =
        [.store (.ofList [("y", .integer 0)]), .empty,
          .store (.ofList [("x", .integer 4), ("y", .integer 1)])].map
            (fun s => (fresh.execute ⟨s, []⟩).result) ∧
      (optimized.runs [] [.store (.ofList [("y", .integer 0)]), .empty,
          .store (.ofList [("x", .integer 4), ("y", .integer 1)])]).map Run.result =
        [.ok (.boolean false), .error (.runtime (.unbound "y")), .ok (.boolean true)] := by
  have hes : (Element.postfixOfText "y > 0 && max(x, 1 + 1) / y > 1").map (fun es =>
      es.all fun x => match x.role with | .assign _ => false | _ => true) = .ok true := by cbv
  have hplain : (compilePlain standard "y > 0 && max(x, 1 + 1) / y > 1" .empty).isOk =
      true := by cbv
  have hopt : (compile standard "y > 0 && max(x, 1 + 1) / y > 1" .empty []).result.map (fun e =>
      (e.runs [] [.store (.ofList [("y", .integer 0)]), .empty,
        .store (.ofList [("x", .integer 4), ("y", .integer 1)])]).map Run.result) =
      .ok [.ok (.boolean false), .error (.runtime (.unbound "y")), .ok (.boolean true)] := by cbv
  obtain ⟨es, hes, hall⟩ := Except.map_eq_ok.1 hes
  obtain ⟨plain, hplain⟩ := Except.isOk_iff.1 hplain
  obtain ⟨optimized, hopt, hresults⟩ := Except.map_eq_ok.1 hopt
  have hassign : ∀ x ∈ es, ∀ op, x.role ≠ .assign op := by
    intro x hx op hrole
    have hx := List.all_eq_true.1 hall x hx
    simp [hrole] at hx
  have hscopes : ∀ s ∈ [.store (.ofList [("y", .integer 0)]), .empty,
      .store (.ofList [("x", .integer 4), ("y", .integer 1)])],
        Scope.HasKinds (Element.UseVariable es) (fun _ => .integer) s := by
    simp only [List.forall_mem_cons]
    refine ⟨.of_forall ?_, fun _ _ _ h => ?_, .of_forall ?_, by simp⟩
    · decide
    · cases h
    · decide
  have hcalls : standard.CallsBuiltins es := callsBuiltins_of_registry rfl es
  have hagain := (results_runs_eq_fresh hes hassign hcalls hscopes).1 plain hplain [] []
  obtain ⟨fresh, hfresh, hruns⟩ :=
    (results_runs_eq_fresh hes hassign hcalls hscopes).2 optimized [] hopt [⟨4, true, []⟩]
  exact ⟨es, plain, optimized, fresh, hes, hplain, hopt, hfresh, hagain, hruns [] [], hresults⟩

end Compiler

end Formula

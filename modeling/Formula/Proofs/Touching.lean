import Formula.Proofs.Builtins
import Formula.Proofs.Recompiling
import Formula.Proofs.Sessions

/-!
# What a formula touches

A run of a formula binds the variables that stand on the left side of an assignment in the
text, and no others. It never takes a binding away, and it never binds a constant. If the
functions that are called look at their arguments alone, two stores that agree on the variables
in the text make the same run : it comes to the same result, and binds the same values to the
same names in the same order (`Compiler.execute_touches_targets`).

The names are those of the text because each element makes its node of the nodes of its operands
(`Node.Makes`). So the tree of elements shows which names a node can bind (`Node.InText`), and
optimizing and running ask for no others.
-/

namespace Formula

/-! ## The targets of a text -/

namespace Tree

/-- The name on the left side, if the element is an assignment. -/
def target? (e : Element) : List Tree → Option String
  | node t _ :: _ =>
    match e.role, t.role with
    | .assign _, .name => some t.lexeme
    | _, _ => none
  | [] => none

mutual

/-- The names to which a tree assigns. -/
def targets : Tree → List String
  | node e Ts => (target? e Ts).toList ++ allTargets Ts

/-- The names to which several trees assign. -/
def allTargets : List Tree → List String
  | [] => []
  | T :: Ts => targets T ++ allTargets Ts

end

variable {e t : Element} {T : Tree} {Ts Us : List Tree} {name : String}

theorem mem_allTargets (hT : T ∈ Ts) (h : name ∈ T.targets) : name ∈ allTargets Ts := by
  induction Ts with
  | nil => simp at hT
  | cons U Ts ih =>
    rw [allTargets, List.mem_append]
    rcases List.mem_cons.1 hT with rfl | hT
    · exact .inl h
    · exact .inr (ih hT)

theorem mem_targets_of_mem (hT : T ∈ Ts) (h : name ∈ T.targets) :
    name ∈ (node e Ts).targets := by
  rw [targets, List.mem_append]
  exact .inr (mem_allTargets hT h)

theorem mem_targets_of_assign {op : AssignOp} (he : e.role = .assign op) (ht : t.role = .name) :
    t.lexeme ∈ (node e (node t Us :: Ts)).targets := by
  simp [targets, target?, he, ht]

end Tree

/-- The names to which elements assign. -/
def Element.targets (es : List Element) : List String :=
  match Element.reduce es with
  | some [T] => T.targets
  | _ => []

/-- What can stand at one place of a term that is built from elements with a tree. -/
def Term.InText (ctx : BuildContext) (es : List Element) (T : Tree) : Term → Prop
  | read name _ => Element.UseVariable es name
  | assign _ name _ =>
    name ∈ T.targets ∧ ctx.settings.isConstant name = false ∧ Element.UseVariable es name
  | call _ f _ => ∃ e ∈ es, e.role = .function ∧ ctx.registry.resolve e.lexeme e.argc = .ok f
  | _ => True

namespace Node

variable {ctx : BuildContext} {es : List Element} {e : Element} {T : Tree} {n : Node}

/-- The tree of elements shows what the node touches, and where the node is a variable the tree
is its name. -/
structure InText (ctx : BuildContext) (es : List Element) (T : Tree) (n : Node) : Prop where
  places : n.term.Forall (Term.InText ctx es T)
  name : ∀ name c s, n = .read name c s → c = ctx.settings.isConstant name ∧
    ∃ t ∈ es, T = .node t [] ∧ t.role = .name ∧ t.lexeme = name

theorem InText.inside {Ts : List Tree} (h : InText ctx es T n) (hT : T ∈ Ts) :
    n.term.Forall (Term.InText ctx es (.node e Ts)) := by
  refine h.places.imp fun t ht => ?_
  cases t with
  | assign op name v => exact ⟨Tree.mem_targets_of_mem hT ht.1, ht.2⟩
  | _ => exact ht

/-- What an element makes of operands touches what they touch, and the element says what
else. -/
theorem InText.of_makes {Ts : List Tree} {ns : List Node} (he : e ∈ es)
    (hs : List.Forall₂ (InText ctx es) Ts ns) (h : Makes ctx e ns n) :
    InText ctx es (.node e Ts) n := by
  have hall : ∀ a ∈ ns, a.term.Forall (Term.InText ctx es (.node e Ts)) := by
    intro a ha
    obtain ⟨i, hi, rfl⟩ := List.getElem_of_mem ha
    have hi' : i < Ts.length := by rw [hs.length_eq]; exact hi
    exact (hs.get hi' hi).inside (List.getElem_mem hi')
  cases h with
  | literal hrole v => exact ⟨by simp [term, Term.InText], by simp⟩
  | read hrole hbound =>
    obtain rfl := List.forall₂_nil_right_iff.1 hs
    refine ⟨Term.forall_read.2 ⟨e, he, hrole, rfl⟩, ?_⟩
    rintro name c s ⟨⟩
    exact ⟨rfl, e, he, rfl, hrole, rfl⟩
  | logic hrole l r =>
    exact ⟨Term.forall_logic.2 ⟨trivial, hall l (by simp), hall r (by simp)⟩, by simp⟩
  | not hrole a => exact ⟨Term.forall_not.2 ⟨trivial, hall a (by simp)⟩, by simp⟩
  | sign hrole a => exact ⟨Term.forall_sign.2 ⟨trivial, hall a (by simp)⟩, by simp⟩
  | arith hrole l r =>
    exact ⟨Term.forall_arith.2 ⟨trivial, hall l (by simp), hall r (by simp)⟩, by simp⟩
  | compare hrole l r =>
    exact ⟨Term.forall_compare.2 ⟨trivial, hall l (by simp), hall r (by simp)⟩, by simp⟩
  | assign hrole name s v =>
    obtain ⟨T, Us, hT, -, rfl⟩ := List.forall₂_cons_right_iff.1 hs
    obtain ⟨hconst, t, ht, rfl, htrole, rfl⟩ := hT.name name false s rfl
    refine ⟨Term.forall_assign.2 ⟨⟨?_, hconst.symm, t, ht, htrole, rfl⟩, ?_⟩, by simp⟩
    · exact Tree.mem_targets_of_assign hrole htrole
    · exact hall v (by simp)
  | call hrole hlen hf =>
    refine ⟨?_, by simp⟩
    rw [term, terms_eq_map, Term.forall_call, List.forall_mem_map]
    exact ⟨⟨e, he, hrole, hlen ▸ hf⟩, hall⟩
  | sequence hrole a b =>
    exact ⟨Term.forall_sequence.2 ⟨trivial, hall a (by simp), hall b (by simp)⟩, by simp⟩

end Node

/-- The tree of elements shows what the tree of a text touches. -/
theorem Compiler.inText_of_build {c : Compiler} {source : String} {scope : Scope} {root : Node}
    {es : List Element} (hes : Element.postfixOfText source = .ok es)
    (h : c.build source scope = .ok root) : ∃ T, Element.reduce es = some [T] ∧
      root.term.Forall (Term.InText ⟨c.settings, c.registry, scope⟩ es T) := by
  obtain ⟨es', hes', hroot, -⟩ := build_eq_ok.1 h
  obtain rfl := Except.ok.inj (hes.symm.trans hes')
  obtain ⟨T, hT, hin⟩ := Node.reduces_of_ofPostfix
    (fun e he Ts ns n hs hn => Node.InText.of_makes he hs hn) hroot
  exact ⟨T, hT, hin.places⟩

/-! ## Bindings in order -/

namespace Variables

/-- Binds values to names, one after the other. -/
def insertAll (vars : Variables) (bindings : List (String × Value)) : Variables :=
  bindings.foldl (fun vars b => vars.insert b.1 b.2) vars

variable {vars vars' : Variables} {bindings : List (String × Value)} {name : String}

theorem insertAll_concat (b : String × Value) :
    vars.insertAll (bindings ++ [b]) = (vars.insertAll bindings).insert b.1 b.2 := by
  simp [insertAll]

/-- A name is bound to the last value that was bound to it, if there is one. -/
theorem get?_insertAll (vars : Variables) (bindings : List (String × Value)) (name : String) :
    (vars.insertAll bindings).get? name = (bindings.reverse.lookup name).or (vars.get? name) := by
  induction bindings generalizing vars with
  | nil => rfl
  | cons b bs ih =>
    have htail : ((vars.insert b.1 b.2).insertAll bs).get? name = _ := ih _
    rw [insertAll, List.foldl_cons, ← insertAll, htail, get?_insert, List.reverse_cons,
      List.lookup_append, Option.or_assoc, List.lookup_cons]
    by_cases h : name = b.1
    · rw [if_pos h, beq_iff_eq.2 h]
      rfl
    · rw [if_neg h, beq_false_of_ne h]
      rfl

/-- A name that is not bound keeps what it was bound to. -/
theorem get?_insertAll_of_forall_ne (h : ∀ b ∈ bindings, b.1 ≠ name) :
    (vars.insertAll bindings).get? name = vars.get? name := by
  have hnone : bindings.reverse.lookup name = none :=
    List.lookup_eq_none_iff.2 fun b hb => by
      simpa using (h b (List.mem_reverse.1 hb)).symm
  rw [get?_insertAll, hnone, Option.none_or]

/-- A name that is bound stays bound. -/
theorem isSome_get?_insertAll (h : (vars.get? name).isSome) :
    ((vars.insertAll bindings).get? name).isSome := by
  rw [get?_insertAll, Option.isSome_or, h, Bool.or_true]

/-- Stores that agree on a name agree on it after the same bindings. -/
theorem get?_insertAll_congr (h : vars'.get? name = vars.get? name) :
    (vars'.insertAll bindings).get? name = (vars.insertAll bindings).get? name := by
  rw [get?_insertAll, get?_insertAll, h]

end Variables

/-- The store of the surroundings has got bindings of names in `q`. -/
def Env.Bound (q : String → Prop) (s : Variables) (env : Env) : Prop :=
  ∃ bindings : List (String × Value), (∀ b ∈ bindings, q b.1) ∧
    env.scope = .store (s.insertAll bindings)

/-- Both stores have got the same bindings of names in `q`, in the same order. -/
def Env.BoundBoth (q : String → Prop) (s t : Variables) (env env' : Env) : Prop :=
  ∃ bindings : List (String × Value), (∀ b ∈ bindings, q b.1) ∧
    env.scope = .store (s.insertAll bindings) ∧ env'.scope = .store (t.insertAll bindings)

/-- Such bindings with one more. -/
theorem forall_mem_concat {q : String → Prop} {bindings : List (String × Value)} {name : String}
    {v : Value} (h : ∀ b ∈ bindings, q b.1) (hname : q name) :
    ∀ b ∈ bindings ++ [(name, v)], q b.1 := by
  intro b hb
  rcases List.mem_append.1 hb with hb | hb
  · exact h b hb
  · obtain rfl := List.mem_singleton.1 hb
    exact hname

/-! ## What runs touch -/

namespace Term

variable {ctx : BuildContext} {es : List Element} {T : Tree} {t : Term} {s s' : Variables}

theorem InText.isLocal : Local (InText ctx es T) where
  assign _ _ _ _ h := h
  call _ _ _ _ h := h

/-- A name that is assigned to, and no constant. -/
def Target (ctx : BuildContext) (T : Tree) (name : String) : Prop :=
  name ∈ T.targets ∧ ctx.settings.isConstant name = false

theorem InText.keeps (h : t.InText ctx es T) : t.Keeps (Env.Bound (Target ctx T) s) := by
  cases t with
  | assign op name v =>
    rintro env w scope ⟨bindings, hnames, hscope⟩ hset
    rw [hscope] at hset
    obtain rfl := Except.ok.inj hset
    refine ⟨bindings ++ [(name, w)], forall_mem_concat hnames ⟨h.1, h.2.1⟩, ?_⟩
    exact congrArg Scope.store (Variables.insertAll_concat (name, w)).symm
  | call name f args => exact fun env vs henv => henv
  | _ => trivial

/-- Stores that agree on the variables of a text cannot be told apart by what stands in it, if
the functions that it calls look at their arguments alone. -/
theorem InText.keepsBoth
    (hcalls : ∀ e ∈ es, e.role = .function → ∀ f, ctx.registry.resolve e.lexeme e.argc = .ok f →
      ∀ h h' args, f.function.answer h args = f.function.answer h' args)
    (hs : ∀ name, Element.UseVariable es name → s'.get? name = s.get? name)
    (h : t.InText ctx es T) : t.KeepsBoth (Env.BoundBoth (Target ctx T) s s') := by
  have hget : ∀ {env env' : Env} {name : String}, Element.UseVariable es name →
      Env.BoundBoth (Target ctx T) s s' env env' →
        env'.scope.get? name = env.scope.get? name := by
    rintro env env' name hname ⟨bindings, -, hscope, hscope'⟩
    rw [hscope, hscope']
    exact Variables.get?_insertAll_congr (hs name hname)
  cases t with
  | read name c => exact fun env env' henv => hget h henv
  | assign op name v =>
    refine fun env env' henv => ⟨hget h.2.2 henv, fun w => .inr ?_⟩
    obtain ⟨bindings, hnames, hscope, hscope'⟩ := henv
    rw [hscope, hscope']
    refine ⟨_, _, rfl, rfl, bindings ++ [(name, w)], forall_mem_concat hnames ⟨h.1, h.2.1⟩, ?_⟩
    rw [Variables.insertAll_concat, Variables.insertAll_concat]
    exact ⟨rfl, rfl⟩
  | call name f args =>
    obtain ⟨e, he, hrole, hf⟩ := h
    exact fun env env' vs henv => ⟨hcalls e he hrole f hf _ _ vs, henv⟩
  | _ => trivial

end Term

/-- Runs leave the term as it is. -/
theorem Expression.term_after (e : Expression) (history : History) (past : List Scope) :
    (e.after history past).1.root.term = e.root.term := by
  induction past generalizing e history with
  | nil => rfl
  | cons s ss ih => exact (ih _ _).trans Node.term_execute

namespace Compiler

/-- The tree of elements shows what an expression touches, optimized or not. -/
theorem Yields.inText {c : Compiler} {source : String} {scope : Scope} {e : Expression}
    {es : List Element} (h : c.Yields source scope e)
    (hes : Element.postfixOfText source = .ok es) : ∃ T, Element.reduce es = some [T] ∧
      e.root.term.Forall (Term.InText ⟨c.settings, c.registry, scope⟩ es T) := by
  refine (h.root_of (Q := fun n => ∃ T, Element.reduce es = some [T] ∧
    n.term.Forall (Term.InText ⟨c.settings, c.registry, scope⟩ es T)) fun root hroot => ?_).2
  obtain ⟨T, hT, hin⟩ := inText_of_build hes hroot
  exact ⟨⟨T, hT, hin⟩, fun env m hm =>
    ⟨T, hT, Node.forall_optimize Term.InText.isLocal hin hm⟩⟩

/-- Runs touch only what the text names. Let an expression be compiled, optimized or not, and be
run in some scopes. Whatever a further run in a store comes to, the names to which the text does
not assign and the constants are bound as before, and what was bound still is. If the functions
that the text calls look at their arguments alone, runs in two stores that agree on the variables
in the text come to the same result, after the same bindings of names to which it assigns. -/
theorem execute_touches_targets {c : Compiler} {source : String} {scope : Scope}
    {e : Expression} {es : List Element} (hes : Element.postfixOfText source = .ok es)
    (h : c.Yields source scope e) (before : History) (past : List Scope) :
    let now := (e.after before past).1
    (∀ (s : Variables) (history : History), ∃ t : Variables,
      (now.execute ⟨.store s, history⟩).env.scope = .store t ∧
      (∀ name, name ∉ Element.targets es → t.get? name = s.get? name) ∧
      (∀ name, (s.get? name).isSome → (t.get? name).isSome) ∧
      ∀ name, c.settings.isConstant name = true → t.get? name = s.get? name) ∧
    ((∀ x ∈ es, x.role = .function → ∀ f, c.registry.resolve x.lexeme x.argc = .ok f →
        ∀ h h' args, f.function.answer h args = f.function.answer h' args) →
      ∀ (s s' : Variables) (history history' : History),
        (∀ name, Element.UseVariable es name → s'.get? name = s.get? name) →
        let run := now.execute ⟨.store s, history⟩
        let run' := now.execute ⟨.store s', history'⟩
        run'.result = run.result ∧ ∃ bindings : List (String × Value),
          (∀ b ∈ bindings, b.1 ∈ Element.targets es) ∧
          run.env.scope = .store (s.insertAll bindings) ∧
          run'.env.scope = .store (s'.insertAll bindings)) := by
  obtain ⟨T, hT, hin⟩ := h.inText hes
  have htargets : Element.targets es = T.targets := by simp only [Element.targets, hT]
  rw [← e.term_after before past] at hin
  refine ⟨fun s history => ?_, fun hcalls s s' history history' hs => ?_⟩
  · have hbound : ((e.after before past).1.root.answer ⟨.store s, history⟩).env.Bound
        (Term.Target ⟨c.settings, c.registry, scope⟩ T) s :=
      Node.answer_keeps (hin.imp fun _ ht => ht.keeps) ⟨[], by simp, rfl⟩
    obtain ⟨bindings, hnames, hscope⟩ := hbound
    refine ⟨s.insertAll bindings, hscope, fun name hname => ?_, fun name hbound => ?_,
      fun name hconst => ?_⟩
    · refine Variables.get?_insertAll_of_forall_ne fun b hb => ?_
      rintro rfl
      exact hname (htargets ▸ (hnames b hb).1)
    · exact Variables.isSome_get?_insertAll hbound
    · refine Variables.get?_insertAll_of_forall_ne fun b hb => ?_
      rintro rfl
      exact Bool.noConfusion (hconst.symm.trans (hnames b hb).2)
  · have hstart : Env.BoundBoth (Term.Target ⟨c.settings, c.registry, scope⟩ T) s s'
        ⟨.store s, history⟩ ⟨.store s', history'⟩ := ⟨[], by simp, rfl, rfl⟩
    have hruns := Node.execute_matches (hin.imp fun _ ht => ht.keepsBoth hcalls hs) hstart
    obtain ⟨bindings, hnames, hscope, hscope'⟩ := hruns.env
    exact ⟨hruns.result, bindings, fun b hb => htargets ▸ (hnames b hb).1, hscope, hscope'⟩

/-- The run binds `n` and fails then. The second store does not bind `k`, for which the text does
not ask. -/
theorem execute_touches_targets_max :
    ∃ es e t, Element.postfixOfText "n += max(a, 2); b" = .ok es ∧
      (compile standard "n += max(a, 2); b" .empty []).result = .ok e ∧
      ((e.after [] [.empty]).1.execute ⟨.store (.ofList
        [("a", .integer 1), ("n", .integer 5), ("k", .integer 7)]), []⟩).env.scope = .store t ∧
      t.get? "k" = some (.integer 7) ∧ (t.get? "n").isSome ∧
      ((e.after [] [.empty]).1.execute ⟨.store (.ofList
          [("a", .integer 1), ("n", .integer 5)]), []⟩).result =
        ((e.after [] [.empty]).1.execute ⟨.store (.ofList
          [("a", .integer 1), ("n", .integer 5), ("k", .integer 7)]), []⟩).result := by
  have hes : (Element.postfixOfText "n += max(a, 2); b").map (fun es =>
      (Element.targets es, es.map fun x => (x.role, x.lexeme))) =
      .ok (["n"], [(.name, "n"), (.name, "a"), (.literal .integer, "2"), (.function, "max"),
        (.assign .add, "+="), (.name, "b"), (.semicolon, ";")]) := by cbv
  have hopt : (compile standard "n += max(a, 2); b" .empty []).result.isOk = true := by cbv
  obtain ⟨es, hes, hshape⟩ := Except.map_eq_ok.1 hes
  obtain ⟨e, he⟩ := Except.isOk_iff.1 hopt
  obtain ⟨htargets, hroles⟩ := Prod.mk.inj hshape
  have hcalls : ∀ x ∈ es, x.role = .function → ∀ f,
      standard.registry.resolve x.lexeme x.argc = .ok f →
        ∀ h h' args, f.function.answer h args = f.function.answer h' args := by
    intro x _ _ f hf h h' args
    have hbuiltin := List.mem_of_getElem? (Registry.getElem?_of_resolve hf)
    exact (Registry.uniform_builtins _ hbuiltin).answer h' h args
  have hagree : ∀ name, Element.UseVariable es name →
      (Variables.ofList [("a", .integer 1), ("n", .integer 5)]).get? name =
        (Variables.ofList [("a", .integer 1), ("n", .integer 5), ("k", .integer 7)]).get? name := by
    rintro name ⟨x, hx, hrole, rfl⟩
    have hmem : (x.role, x.lexeme) ∈ es.map fun x => (x.role, x.lexeme) :=
      List.mem_map_of_mem hx
    rw [hroles, hrole] at hmem
    simp only [List.mem_cons, Prod.mk.injEq, reduceCtorEq, true_and, false_and, false_or,
      List.not_mem_nil, or_false] at hmem
    rcases hmem with h | h | h <;> rw [h] <;> rfl
  obtain ⟨hframe, hagrees⟩ := execute_touches_targets hes (.inr ⟨[], he⟩) [] [.empty]
  obtain ⟨t, ht, hsame, hbound, -⟩ := hframe
    (.ofList [("a", .integer 1), ("n", .integer 5), ("k", .integer 7)]) []
  refine ⟨es, e, t, hes, he, ht, ?_, hbound "n" rfl, (hagrees hcalls _ _ [] [] hagree).1⟩
  exact (hsame "k" (by simp [htargets])).trans rfl

end Compiler

end Formula

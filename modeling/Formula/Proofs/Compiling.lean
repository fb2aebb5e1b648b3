import Formula.Proofs.Faults
import Formula.Proofs.Recompiling

/-!
# What compiling leaves alone

Compiling a formula runs those parts of it whose values are fixed. None of them binds a
variable, and none calls a function that is not pure, so compiling is without effects
(`Compiler.compile_without_effects`) : only pure functions are called, the read-only view of
the scope has never to refuse a variable, and in place of that view any scope with the same
variables would do, and be left as it is.

Nothing is asked of the functions here. One that is registered as pure and breaks that promise
may answer as it likes, and it is still called while compiling.
-/

namespace Formula

/-! ## Faults of optimizing -/

theorem FaultsIn.reduce {p : Fault → Prop} {r : Reduction} {f : Node → Env → Reduction}
    (h : FaultsIn p r.result)
    (hf : ∀ n, r.result = .ok n → ∀ env, FaultsIn p (f n env).result) :
    FaultsIn p (r.andThen f).result := by
  unfold Reduction.andThen
  split
  · exact .error (h.fault _ ‹_›)
  · exact hf _ ‹_› _

/-- No function that the term itself calls answers with this fault, if it may be called while
compiling. -/
def Term.NeverAnswersFixed (e : Fault) (t : Term) : Prop := t.Fixed → t.NeverAnswers e

theorem Term.NeverAnswersFixed.isLocal {e : Fault} : Local (NeverAnswersFixed e) where
  literal _ _ := trivial
  logic _ _ _ _ := trivial
  not _ _ := trivial
  sign _ _ _ := trivial
  arith _ _ _ _ := trivial
  compare _ _ _ _ := trivial
  assign _ _ _ _ _ := False.elim
  call _ _ _ _ h := h
  sequence _ _ _ := trivial

namespace Node

variable {n : Node} {env : Env} {e : Fault}

theorem term_probe : (n.probe env).node.term = n.term := by
  unfold probe
  split
  · simp only
    split
    · exact term_execute
    · exact term_execute
  · rfl

theorem faultsIn_fold (he : IsSealed e) (hn : n.term.Forall (Term.NeverAnswersFixed e)) :
    FaultsIn (· ≠ e) (n.fold env).result := by
  unfold fold
  split
  · rename_i hcase
    have hpre : n.isPrecomputable = true := ((Bool.and_eq_true _ _).mp hcase).1
    have hfixed := isPrecomputable_iff.1 hpre
    exact (faultsIn_answer he (fun t ht => hn t ht (hfixed t ht)) hpre).map _
  · exact .ok n

theorem faultsIn_optimizeAll {ns : List Node}
    (ih : ∀ n ∈ ns, ∀ env, FaultsIn (· ≠ e) (n.optimize env).result) :
    FaultsIn (· ≠ e) (optimizeAll ns env).result := by
  induction ns generalizing env with
  | nil => exact .ok _
  | cons n ns ihs =>
    rw [List.forall_mem_cons] at ih
    rw [optimizeAll]
    split
    · exact .error ((ih.1 env).fault _ ‹_›)
    · exact (ihs ih.2).map _

theorem forall_optimizeAll {p : Term → Prop} (hp : Term.Local p) {ns ms : List Node}
    (hns : ∀ n ∈ ns, n.term.Forall p) (h : (optimizeAll ns env).result = .ok ms) :
    ∀ m ∈ ms, m.term.Forall p :=
  (meets_optimizeAll (P := fun _ => True) (fun n hn _ _ =>
    ⟨trivial, fun _ hm => forall_optimize hp (hns n hn) hm⟩) trivial).2 ms h

/-- Optimizing fails since a variable cannot be bound only if a function that may be called says
so. -/
theorem faultsIn_optimize (he : IsSealed e) (hn : n.term.Forall (Term.NeverAnswersFixed e)) :
    FaultsIn (· ≠ e) (n.optimize env).result := by
  have hp : Term.Local (Term.NeverAnswersFixed e) := Term.NeverAnswersFixed.isLocal
  induction n generalizing env with
  | literal v =>
    rw [optimize]
    exact .ok _
  | read name c s =>
    rw [optimize]
    exact faultsIn_fold he hn
  | logic op l r s ihl ihr =>
    rw [term, Term.forall_logic] at hn
    rw [optimize]
    split
    · exact .ok _
    split
    · exact .ok _
    split
    · refine faultsIn_fold he ?_
      rw [term, Term.forall_logic, term_probe, term_probe]
      exact ⟨hp.logic _ _ _, hn.2⟩
    split
    · exact (ihr hn.2.2).reduce fun _ _ _ => .ok _
    split
    · exact (ihl hn.2.1).reduce fun _ _ _ => .ok _
    refine FaultsIn.reduce ?_ fun _ _ _ => FaultsIn.reduce ?_ fun _ _ _ => .ok _
    · split
      · exact .ok _
      · exact ihl hn.2.1
    · split
      · exact .ok _
      · exact ihr hn.2.2
  | not a s ih =>
    rw [term, Term.forall_not] at hn
    rw [optimize]
    refine (ih hn.2).reduce fun m hm _ => faultsIn_fold he ?_
    exact Term.forall_not.2 ⟨hp.not _, forall_optimize hp hn.2 hm⟩
  | sign g a s ih =>
    rw [term, Term.forall_sign] at hn
    rw [optimize]
    refine (ih hn.2).reduce fun m hm _ => ?_
    split
    · exact faultsIn_fold he (Term.forall_sign.2 ⟨hp.sign _ _, forall_optimize hp hn.2 hm⟩)
    split
    · exact .ok _
    · exact .ok _
  | arith op l r s ihl ihr =>
    rw [term, Term.forall_arith] at hn
    rw [optimize]
    refine (ihl hn.2.1).reduce fun a ha _ => (ihr hn.2.2).reduce fun b hb _ => faultsIn_fold he ?_
    exact Term.forall_arith.2
      ⟨hp.arith _ _ _, forall_optimize hp hn.2.1 ha, forall_optimize hp hn.2.2 hb⟩
  | compare op l r s ihl ihr =>
    rw [term, Term.forall_compare] at hn
    rw [optimize]
    refine (ihl hn.2.1).reduce fun a ha _ => (ihr hn.2.2).reduce fun b hb _ => faultsIn_fold he ?_
    exact Term.forall_compare.2
      ⟨hp.compare _ _ _, forall_optimize hp hn.2.1 ha, forall_optimize hp hn.2.2 hb⟩
  | assign op name target v s ih =>
    rw [term, Term.forall_assign] at hn
    rw [optimize]
    exact (ih hn.2).reduce fun _ _ _ => .ok _
  | call name f args b s ih =>
    rw [term, terms_eq_map, Term.forall_call, List.forall_mem_map] at hn
    rw [optimize]
    split
    · exact .error ((faultsIn_optimizeAll fun a ha env => ih a ha (hn.2 a ha)).fault _ ‹_›)
    · refine faultsIn_fold he ?_
      rw [term, terms_eq_map, Term.forall_call, List.forall_mem_map]
      exact ⟨hp.call _ _ _ _ hn.1, forall_optimizeAll hp hn.2 ‹_›⟩
  | sequence a b s iha ihb =>
    rw [term, Term.forall_sequence] at hn
    rw [optimize]
    exact (iha hn.2.1).reduce fun _ _ _ => (ihb hn.2.2).reduce fun _ _ _ => .ok _

end Node

/-! ## Calls while compiling -/

/-- The second history goes on from the first one with calls of functions that are registered as
pure. -/
def Registry.PureSince (r : Registry) (before after : History) : Prop :=
  ∃ calls, after = calls ++ before ∧ ∀ call ∈ calls, r.isPureNumber call.number = true

theorem Registry.PureSince.refl {r : Registry} {h : History} : r.PureSince h h :=
  ⟨[], rfl, by simp⟩

theorem Registry.PureSince.cons {r : Registry} {before after : History} {call : Call}
    (h : r.PureSince before after) (hcall : r.isPureNumber call.number = true) :
    r.PureSince before (call :: after) := by
  obtain ⟨calls, rfl, hcalls⟩ := h
  exact ⟨call :: calls, rfl, List.forall_mem_cons.2 ⟨hcall, hcalls⟩⟩

/-- Surroundings with these two scopes, after the same calls of pure functions. -/
structure Env.Beside (r : Registry) (before : History) (s s' : Scope) (env env' : Env) : Prop where
  scope : env.scope = s
  scope' : env'.scope = s'
  history : env'.history = env.history
  pure : r.PureSince before env.history

/-- What is fixed does not tell scopes with the same variables apart, and it binds none. -/
theorem Term.fixedBlind_beside (ctx : BuildContext) {before : History} {s s' : Scope}
    (hsame : ∀ name, s'.get? name = s.get? name) :
    Term.FixedBlind (Env.Beside ctx.registry before s s') (Term.Clean ctx) := by
  refine ⟨Term.Clean.isLocal, fun t hclean hfixed => ?_⟩
  cases t with
  | read name c =>
    intro env env' h
    rw [h.scope, h.scope', hsame]
  | assign op name v => exact hfixed.elim
  | call name f args =>
    intro env env' vs h
    have hpure : ctx.registry.isPureNumber f.number = true :=
      (Overload.RegisteredIn.isPureNumber hclean).trans hfixed
    refine ⟨?_, h.scope, h.scope', ?_, h.pure.cons hpure⟩
    · rw [callFunction, callFunction, h.history]
    · rw [callFunction, callFunction, h.history]
  | _ => trivial

namespace Compiler

/-- Compiling has no effects, whatever it comes to. It calls only functions that are registered
as pure, and it is never refused a variable, unless such a function answers with that refusal
itself. And where the tree is optimized in another scope with the same variables, be it one that
can be written, the calls and what it comes to are the same and that scope is left as it is. -/
theorem compile_without_effects (c : Compiler) (source : String) (scope : Scope)
    (before : History) :
    c.registry.PureSince before (c.compile source scope before).history ∧
    (∀ name, (c.compile source scope before).result = .error (.runtime (.sealed name)) →
      ∃ f ∈ c.registry.entries.map Prod.snd, f.isPure = true ∧
        ∃ history args, f.answer history args = .error (.runtime (.sealed name))) ∧
    ∀ root, c.build source scope = .ok root →
      ∀ other : Scope, (∀ name, other.get? name = scope.get? name) →
        (root.optimize ⟨other, before⟩).env =
          ⟨other, (c.compile source scope before).history⟩ ∧
        (root.optimize ⟨other, before⟩).result.map .ofNode =
          (c.compile source scope before).result := by
  unfold compile
  cases hbuild : c.build source scope with
  | error e =>
    refine ⟨.refl, fun name he => ?_, by simp⟩
    have hruntime := isRuntime_of_build_error hbuild
    obtain rfl := Except.error.inj he
    exact Bool.noConfusion hruntime
  | ok root =>
    obtain ⟨es, -, hbuilt, -⟩ := build_built hbuild
    have hbeside : ∀ other : Scope, (∀ name, other.get? name = scope.get? name) →
        (root.optimize ⟨scope.toSealed, before⟩).Matches
          (Env.Beside c.registry before scope.toSealed other)
          (Term.Clean ⟨c.settings, c.registry, scope⟩) (root.optimize ⟨other, before⟩) :=
      fun other hsame => Node.optimize_matches_of_fixed
        (Term.fixedBlind_beside ⟨c.settings, c.registry, scope⟩ hsame) hbuilt.clean
        ⟨rfl, rfl, rfl, .refl⟩
    refine ⟨(hbeside scope fun _ => rfl).env.pure, fun name he => ?_, fun root' hroot' => ?_⟩
    · by_contra hnone
      refine (Node.faultsIn_optimize (e := .runtime (.sealed name)) ⟨name, rfl⟩ ?_).fault _
        (Except.map_eq_error.1 he) rfl
      refine hbuilt.clean.imp fun t hclean hfixed => ?_
      cases t with
      | call other f args =>
        obtain ⟨registered, hentry⟩ := hclean
        refine fun history vs hanswer => hnone ⟨f.function, ?_, hfixed, history, vs, hanswer⟩
        exact List.mem_map.2 ⟨_, List.mem_of_getElem? hentry, rfl⟩
      | _ => trivial
    · obtain rfl := Except.ok.inj hroot'
      intro other hsame
      have h := hbeside other hsame
      refine ⟨?_, congrArg (Except.map Expression.ofNode) h.result⟩
      have henv : (root.optimize ⟨other, before⟩).env =
        ⟨(root.optimize ⟨other, before⟩).env.scope, (root.optimize ⟨other, before⟩).env.history⟩ :=
        rfl
      rw [henv, h.env.scope', h.env.history]

/-- A function that is registered as pure answers as if it had bound a variable. -/
theorem compile_without_effects_refusing :
    ∃ root, build ⟨Settings.standard, Registry.empty.register "f"
        ⟨.exactly 1, true, fun _ _ => .error (.runtime (.sealed "x"))⟩⟩ "x = f(1)"
          (.store (.ofList [("x", .integer 5)])) = .ok root ∧
      (root.optimize ⟨.store (.ofList [("x", .integer 5)]), []⟩).env =
        ⟨.store (.ofList [("x", .integer 5)]), [⟨0, true, [.integer 1]⟩]⟩ ∧
      ∃ f ∈ (Registry.empty.register "f" ⟨.exactly 1, true,
          fun _ _ => .error (.runtime (.sealed "x"))⟩).entries.map Prod.snd,
        f.isPure = true ∧
          ∃ history args, f.answer history args = .error (.runtime (.sealed "x")) := by
  have hok : (build ⟨Settings.standard, Registry.empty.register "f"
      ⟨.exactly 1, true, fun _ _ => .error (.runtime (.sealed "x"))⟩⟩ "x = f(1)"
        (.store (.ofList [("x", .integer 5)]))).isOk = true := by cbv
  have hcompile : compile ⟨Settings.standard, Registry.empty.register "f"
      ⟨.exactly 1, true, fun _ _ => .error (.runtime (.sealed "x"))⟩⟩ "x = f(1)"
        (.store (.ofList [("x", .integer 5)])) [] =
      ⟨.error (.runtime (.sealed "x")), [⟨0, true, [.integer 1]⟩]⟩ := by cbv
  obtain ⟨root, hroot⟩ := Except.isOk_iff.1 hok
  obtain ⟨-, hrefused, hother⟩ := compile_without_effects ⟨Settings.standard,
    Registry.empty.register "f" ⟨.exactly 1, true, fun _ _ => .error (.runtime (.sealed "x"))⟩⟩
    "x = f(1)" (.store (.ofList [("x", .integer 5)])) []
  refine ⟨root, hroot, ?_, hrefused "x" (by rw [hcompile])⟩
  rw [(hother root hroot _ fun _ => rfl).1, hcompile]

end Compiler

end Formula

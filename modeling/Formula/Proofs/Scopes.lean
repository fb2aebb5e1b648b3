import Formula.Proofs.Recompiling
import Formula.Proofs.Sessions

/-!
# What compiling takes from the scope

Compiling asks the scope for the values of the constants, and in strict settings for the kinds of
the variables that a text uses. Two scopes that agree on these make the same expression of the
text, or the same fault (`Compiler.result_compile_congr`), whatever else they bind.

The scope is asked in two places. An element that is a variable becomes a node with the kind to
which it is fixed (`Node.ofName_congr`), and no other element looks at the scope. What is fixed is
run while optimizing, and there it is the constants alone that are read
(`Node.Built.result_optimize_congr`).
-/

namespace Formula

/-- The text uses the name as a variable. -/
def UsesVariable (source name : String) : Prop :=
  ∃ es, Element.postfixOfText source = .ok es ∧ Element.UseVariable es name

/-- Scopes that are alike for compiling a text. They bind the constants to the same values, and in
strict settings the other variables of the text to values of the same kinds. What one leaves
unbound of these, the other does, too. -/
structure Compiler.ScopesAgree (c : Compiler) (source : String) (scope scope' : Scope) : Prop where
  constants : ∀ name, c.settings.isConstant name = true → scope'.get? name = scope.get? name
  kinds : c.settings.strict = true → ∀ name, UsesVariable source name →
    c.settings.isConstant name = false →
      (scope'.get? name).map Value.kind = (scope.get? name).map Value.kind

namespace Node

variable {settings : Settings} {registry : Registry} {scope scope' : Scope}

/-! ## Building -/

theorem ofName_congr {name : String}
    (hconst : settings.isConstant name = true → scope'.get? name = scope.get? name)
    (hkind : settings.strict = true → settings.isConstant name = false →
      (scope'.get? name).map Value.kind = (scope.get? name).map Value.kind) :
    ofName ⟨settings, registry, scope'⟩ name = ofName ⟨settings, registry, scope⟩ name := by
  unfold ofName
  cases hc : settings.isConstant name with
  | true => simp only [hconst hc]
  | false =>
    cases hs : settings.strict with
    | true => simp only [hkind hs hc, Bool.false_and]
    | false => rfl

theorem build_congr {e : Element} (hname : e.role = .name →
      ofName ⟨settings, registry, scope'⟩ e.lexeme = ofName ⟨settings, registry, scope⟩ e.lexeme)
    (stack : List Node) :
    build ⟨settings, registry, scope'⟩ stack e = build ⟨settings, registry, scope⟩ stack e := by
  unfold build
  cases hrole : e.role with
  | name => simp only [hname hrole]
  | _ => rfl

theorem foldlM_build_congr {es : List Element} (hnames : ∀ name, Element.UseVariable es name →
      ofName ⟨settings, registry, scope'⟩ name = ofName ⟨settings, registry, scope⟩ name)
    (stack : List Node) :
    es.foldlM (build ⟨settings, registry, scope'⟩) stack =
      es.foldlM (build ⟨settings, registry, scope⟩) stack := by
  induction es generalizing stack with
  | nil => rfl
  | cons e es ih =>
    have he : build ⟨settings, registry, scope'⟩ stack e =
        build ⟨settings, registry, scope⟩ stack e :=
      build_congr (fun hrole => hnames e.lexeme ⟨e, by simp, hrole, rfl⟩) stack
    have hes : ∀ name, Element.UseVariable es name → Element.UseVariable (e :: es) name :=
      fun _ ⟨x, hx, hname⟩ => ⟨x, List.mem_cons_of_mem e hx, hname⟩
    rw [List.foldlM_cons, List.foldlM_cons, he]
    exact congrArg _ (funext (ih fun name hname => hnames name (hes name hname)))

theorem ofPostfix_congr {es : List Element} (hnames : ∀ name, Element.UseVariable es name →
      ofName ⟨settings, registry, scope'⟩ name = ofName ⟨settings, registry, scope⟩ name) :
    ofPostfix ⟨settings, registry, scope'⟩ es = ofPostfix ⟨settings, registry, scope⟩ es := by
  rw [ofPostfix, ofPostfix, foldlM_build_congr hnames]

/-! ## Optimizing -/

/-- Nothing fixed in a tree tells surroundings apart that bind the constants alike. -/
theorem fixedBlind_clean {ctx : BuildContext} (hpure : ctx.registry.PureAnswers) :
    Term.FixedBlind (fun env env' => ctx.ConstantValues env.scope ∧ ctx.ConstantValues env'.scope)
      (Term.Clean ctx) :=
  ⟨Term.Clean.isLocal, fun _ ht hfixed => hfixed.keepsBoth hpure ht⟩

/-- Optimizing a tree comes to the same wherever the constants have their values. -/
theorem Built.result_optimize_congr {ctx : BuildContext} {es : List Element} {n : Node}
    {env env' : Env} (hb : Built ctx es n) (hpure : ctx.registry.PureAnswers)
    (henv : ctx.ConstantValues env.scope) (henv' : ctx.ConstantValues env'.scope) :
    (n.optimize env').result = (n.optimize env).result :=
  (optimize_matches_of_fixed (fixedBlind_clean hpure) hb.clean ⟨henv, henv'⟩).result

end Node

namespace Compiler

variable {c : Compiler} {source : String} {scope scope' : Scope}

theorem build_congr (h : c.ScopesAgree source scope scope') :
    c.build source scope' = c.build source scope := by
  unfold build
  cases hes : Element.postfixOfText source with
  | error e => rfl
  | ok es =>
    have htree : Node.ofPostfix ⟨c.settings, c.registry, scope'⟩ es =
        Node.ofPostfix ⟨c.settings, c.registry, scope⟩ es :=
      Node.ofPostfix_congr fun name hname => Node.ofName_congr (h.constants name) fun hstrict =>
        h.kinds hstrict name ⟨es, hes, hname⟩
    exact congrArg (fun tree => do
      let root ← tree
      if c.settings.strict then root.validate
      return root) htree

/-- Compiling depends on the scope only where it says so. Where pure functions look at their
arguments alone, two scopes that agree on the constants, and in strict settings on the kinds of the
variables that the text uses, make the same expression of it or the same fault, whatever was called
before. -/
theorem result_compile_congr (hpure : c.registry.PureAnswers)
    (h : c.ScopesAgree source scope scope') (before before' : History) :
    (c.compile source scope' before').result = (c.compile source scope before).result := by
  unfold compile
  rw [build_congr h]
  cases hroot : c.build source scope with
  | error e => rfl
  | ok root =>
    obtain ⟨es, -, hbuilt, -⟩ := build_built hroot
    have hoptimize : (root.optimize ⟨scope'.toSealed, before'⟩).result =
        (root.optimize ⟨scope.toSealed, before⟩).result :=
      hbuilt.result_optimize_congr hpure (fun _ _ _ hv => hv)
        fun name _ hconst hv => (h.constants name hconst).trans hv
    exact congrArg (Except.map Expression.ofNode) hoptimize

/-- The scopes differ in the value of a variable, and one binds a name that the text does not use.
The operand of constants is folded in both. -/
theorem result_compile_congr_strict :
    (compile ⟨{ Settings.standard.withConstant "k" with strict := true }, .builtins⟩
        "max(k, 3) * x > 6 && !(k > 2)"
        (.store (.ofList [("k", .integer 2), ("y", .null), ("x", .integer 0)])) []).result =
      (compile ⟨{ Settings.standard.withConstant "k" with strict := true }, .builtins⟩
        "max(k, 3) * x > 6 && !(k > 2)"
        (.store (.ofList [("x", .integer 5), ("k", .integer 2)])) []).result ∧
    (compile ⟨{ Settings.standard.withConstant "k" with strict := true }, .builtins⟩
        "max(k, 3) * x > 6 && !(k > 2)"
        (.store (.ofList [("x", .integer 5), ("k", .integer 2)])) []).result.map Expression.text =
      .ok "(> (* 3 x) 6)" := by
  have hes : (Element.postfixOfText "max(k, 3) * x > 6 && !(k > 2)").map (fun es =>
      es.all fun e => e.role != .name || e.lexeme == "k" || e.lexeme == "x") = .ok true := by cbv
  obtain ⟨es, hes, hall⟩ := Except.map_eq_ok.1 hes
  have hpure : Registry.builtins.PureAnswers := Registry.lawful_builtins.pure_answer
  refine ⟨result_compile_congr hpure ⟨fun name hname => ?_, fun _ name hname hvar => ?_⟩ [] [],
    by cbv⟩
  · obtain rfl : name = "k" := by
      simpa [Settings.isConstant, Settings.withConstant, Settings.standard,
        Settings.insertName] using hname
    rfl
  · obtain ⟨es', hes', e, he, hrole, rfl⟩ := hname
    obtain rfl := Except.ok.inj (hes.symm.trans hes')
    have hlexeme := List.all_eq_true.1 hall e he
    rcases (by simpa [hrole] using hlexeme : e.lexeme = "k" ∨ e.lexeme = "x") with hk | hx
    · rw [hk] at hvar
      exact absurd hvar (by decide)
    · rw [hx]
      rfl

end Compiler

end Formula

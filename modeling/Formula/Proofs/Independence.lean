import Formula.Proofs.Effects
import Formula.Proofs.Recompiling
import Formula.Proofs.Touching

/-!
# What is fixed does not depend on runs

A tree whose value is fixed (`Node.isPrecomputable`) may be run wherever the optimizer comes upon
it. This is sound since the flag, which is told from the operators and operands alone, says all
that matters of a run : on stores that bind the constants to the same values the tree comes to the
same, it leaves the store as it was and calls no impure function
(`Node.Obtained.execute_independent`).

The slots make no difference. Runs and looks leave marks there, but nothing in the tree tells apart
stores that agree on the constants (`Settings.Agree`), so each place has one value on all of them,
and the kind that its slot was fixed to by an earlier run on one of them is that of the value. So
neither does it matter which runs, on stores that agree, came before.
-/

namespace Formula

/-! ## Stores that agree -/

/-- Both bind the constants to the same values, and leave the same ones unbound. -/
def Settings.Agree (cfg : Settings) (s s' : Scope) : Prop :=
  ∀ name, cfg.isConstant name = true → s'.get? name = s.get? name

theorem Settings.agree_refl (cfg : Settings) (s : Scope) : cfg.Agree s s := fun _ _ => rfl

variable {ctx : BuildContext}

/-- What a fixed term reads and calls does not tell apart surroundings that agree. -/
theorem Term.Fixed.keepsBoth_agree (hpure : ctx.registry.PureAnswers) (s : Scope) {t : Term}
    (hclean : t.Clean ctx) (h : t.Fixed) : t.KeepsBoth fun env env' =>
      ctx.settings.Agree s env.scope ∧ ctx.settings.Agree s env'.scope :=
  h.keepsBoth_of hpure
    (fun henv hconst _ => (henv.2 _ hconst).trans (henv.1 _ hconst).symm) (fun henv => henv) hclean

namespace Node

variable {n m : Node} {s : Scope}

/-! ## Trees that were built or optimized -/

/-- The trees that building and optimizing come to. -/
inductive Obtained (ctx : BuildContext) : Node → Prop
  | built {es : List Element} {n : Node} (h : ofPostfix ctx es = .ok n) : Obtained ctx n
  | optimized {n m : Node} {env : Env} (hn : Obtained ctx n)
      (hm : (n.optimize env).result = .ok m) : Obtained ctx m

theorem Obtained.clean (h : Obtained ctx n) : n.term.Forall (Term.Clean ctx) := by
  induction h with
  | built h => exact (built_ofPostfix h).clean
  | optimized hn hm ih => exact forall_optimize Term.Clean.isLocal ih hm

/-! ## Runs of fixed trees -/

/-- Nothing in a fixed tree tells apart surroundings that agree. -/
theorem forall_keepsBoth_agree (hpure : ctx.registry.PureAnswers) (s : Scope)
    (hclean : n.term.Forall (Term.Clean ctx)) (hpre : n.isPrecomputable = true) :
    n.term.Forall fun t => t.Quiet ∧ t.KeepsBoth fun env env' =>
      ctx.settings.Agree s env.scope ∧ ctx.settings.Agree s env'.scope := by
  have hfixed := isPrecomputable_iff.1 hpre
  exact fun t ht => ⟨(hfixed t ht).quiet, (hfixed t ht).keepsBoth_agree hpure s (hclean t ht)⟩

/-- After runs on stores that agree, a fixed tree comes to the same as before. -/
theorem answer_after_of_agree (hpure : ctx.registry.PureAnswers)
    (hclean : n.term.Forall (Term.Clean ctx)) (hpre : n.isPrecomputable = true)
    {past : List Scope} (hpast : ∀ p ∈ past, ctx.settings.Agree s p) {env : Env}
    (henv : ctx.settings.Agree s env.scope) {e : Expression} (he : e.root = n) (before : History) :
    (e.after before past).1.root.answer env = n.answer env := by
  induction past generalizing e n before with
  | nil => rw [Expression.after, he]
  | cons p past ih =>
    rw [List.forall_mem_cons] at hpast
    subst he
    have hterm : (e.execute ⟨p, before⟩).expression.root.term = e.root.term := term_execute
    have hstep : e.root.Matches _ (e.execute ⟨p, before⟩).expression.root :=
      matches_execute_blind (P := fun env => ctx.settings.Agree s env.scope)
        (forall_keepsBoth_agree hpure s hclean hpre) hpast.1
    rw [Expression.after,
      ih (hterm ▸ hclean) ((isPrecomputable_congr hterm).trans hpre) hpast.2 rfl]
    exact hstep.answer_eq henv

/-- A run of a fixed tree leaves the variables as they are, and what it calls is pure. -/
theorem effects_of_isPrecomputable (hclean : n.term.Forall (Term.Clean ctx))
    (hpre : n.isPrecomputable = true) (s : Scope) (history : History) :
    (n.execute ⟨s, history⟩).env.scope = s ∧
      ∃ calls, (n.execute ⟨s, history⟩).env.history = calls ++ history ∧ calls.impure = [] := by
  have halike : Env.Alike ctx.registry ⟨s, history⟩ (n.answer ⟨s, history⟩).env :=
    alike_answer hclean hpre
  refine ⟨halike.scope, ?_⟩
  obtain ⟨calls, calls', hcalls, hcalls', himpure⟩ :=
    halike.impure_eq rfl ⟨[], rfl, by simp⟩ (extends_answer hclean)
  obtain rfl : calls = [] := List.self_eq_append_left.1 hcalls
  exact ⟨calls', hcalls', himpure⟩

/-- A fixed value does not depend on bindings at run time. Let a tree that was built, and perhaps
optimized any number of times, be fixed, and be run any number of times. On stores that agree with
those of the runs before on the constants, it comes to the same value or fault, whichever of them
it is run on and whichever of them it was run on before. A run leaves the store as it was and calls
no impure function. -/
theorem Obtained.execute_independent (hpure : ctx.registry.PureAnswers) (hn : Obtained ctx n)
    (hpre : n.isPrecomputable = true) {s s' : Scope} (hs : ctx.settings.Agree s s')
    {past past' : List Scope} (hpast : ∀ p ∈ past, ctx.settings.Agree s p)
    (hpast' : ∀ p ∈ past', ctx.settings.Agree s p) (before before' history history' : History) :
    let now := ((Expression.ofNode n).after before past).1
    let now' := ((Expression.ofNode n).after before' past').1
    (now'.execute ⟨s', history'⟩).result = (now.execute ⟨s, history⟩).result ∧
      (now.execute ⟨s, history⟩).env.scope = s ∧
      ∃ calls, (now.execute ⟨s, history⟩).env.history = calls ++ history ∧ calls.impure = [] := by
  intro now now'
  have hterm : now.root.term = n.term := (Expression.ofNode n).term_after before past
  have hclean : now.root.term.Forall (Term.Clean ctx) := hterm ▸ hn.clean
  have hsame : (now.execute ⟨s, history⟩).result = (n.answer ⟨s, history⟩).result :=
    congrArg Answer.result
      (answer_after_of_agree hpure hn.clean hpre hpast (ctx.settings.agree_refl s) rfl before)
  have hsame' : (now'.execute ⟨s', history'⟩).result = (n.answer ⟨s', history'⟩).result :=
    congrArg Answer.result (answer_after_of_agree hpure hn.clean hpre hpast' hs rfl before')
  refine ⟨?_,
    effects_of_isPrecomputable hclean ((isPrecomputable_congr hterm).trans hpre) s history⟩
  rw [hsame, hsame']
  have hblind := forall_keepsBoth_agree hpure s hn.clean hpre
  exact (Matches.of_keepsBoth (hblind.imp fun _ h => h.2) _ _
    ⟨ctx.settings.agree_refl s, hs⟩).result

/-- The stores agree on `k`, and are told apart by `x` and `y`, which are no constants. The tree
was built with another value of `k`. -/
theorem Obtained.execute_independent_max :
    ∃ n, Obtained ⟨Settings.standard.withConstant "k", .builtins,
        .store (.ofList [("k", .integer 1)])⟩ n ∧ n.isPrecomputable = true ∧
      let now := ((Expression.ofNode n).after []
        [.store (.ofList [("k", .integer 7)]),
          .store (.ofList [("x", .null), ("k", .integer 7)])]).1
      let now' := ((Expression.ofNode n).after [] []).1
      (now'.execute ⟨.store (.ofList [("k", .integer 7), ("y", .integer 1)]), []⟩).result =
          (now.execute ⟨.store (.ofList [("k", .integer 7)]), []⟩).result ∧
        (now.execute ⟨.store (.ofList [("k", .integer 7)]), []⟩).env.scope =
          .store (.ofList [("k", .integer 7)]) ∧
        ∃ calls : History, (now.execute ⟨.store (.ofList [("k", .integer 7)]), []⟩).env.history =
          calls ++ [] ∧ calls.impure = [] := by
  have hn : ((Element.postfixOfText "max(k, 3) / (k - 6)").bind (ofPostfix
      ⟨Settings.standard.withConstant "k", .builtins,
        .store (.ofList [("k", .integer 1)])⟩)).map isPrecomputable = .ok true := by cbv
  obtain ⟨n, hn, hpre⟩ := Except.map_eq_ok.1 hn
  obtain ⟨es, -, hn⟩ := Except.bind_eq_ok.1 hn
  have hagree : ∀ scope : Scope, scope.get? "k" = some (.integer 7) →
      (Settings.standard.withConstant "k").Agree (.store (.ofList [("k", .integer 7)])) scope := by
    intro scope hk name hname
    obtain rfl : name = "k" := by
      simpa [Settings.withConstant, Settings.isConstant, Settings.standard,
        Settings.insertName] using hname
    exact hk
  have hpure : Registry.builtins.PureAnswers := Registry.lawful_builtins.pure_answer
  refine ⟨n, .built hn, hpre, execute_independent hpure (.built hn) hpre (hagree _ rfl) ?_
    (by simp) [] [] [] []⟩
  simpa using ⟨hagree _ rfl, hagree _ rfl⟩

end Node

end Formula

import Formula.Proofs.Optimizing

/-!
# Effects of optimized trees

A run of an optimized tree binds the same variables as one of the tree that it was made from,
and calls the same impure functions with the same arguments in the same order, if the latter
comes to a value (`Compiler.effects_compile_eq`). What the two runs add to the history differs
in calls of pure functions only, and these are not noticed.

An operand of `&&` and `||` that goes away since the one on its right decides takes its effects
with it (`Compiler.effects_compile_ne_of_decided`), and so it must not have any.
-/

namespace Formula

variable {ctx : BuildContext}

/-- The history of the surroundings is an earlier one, with calls of registered functions
added. -/
def Env.Extends (r : Registry) (h : History) (env : Env) : Prop :=
  ∃ calls, env.history = calls ++ h ∧ ∀ c ∈ calls, r.isPureNumber c.number = c.isPure

theorem Term.Clean.keeps_extends {t : Term} (h : t.Clean ctx) (before : History) :
    t.Keeps (Env.Extends ctx.registry before) := by
  cases t with
  | assign op name v => exact fun env w scope henv _ => henv
  | call name f args =>
    rintro env vs ⟨calls, hcalls, hpure⟩
    refine ⟨⟨f.number, f.function.isPure, vs⟩ :: calls, ?_, ?_⟩
    · simp [callFunction, Overload.call, hcalls]
    · exact List.forall_mem_cons.2 ⟨Overload.RegisteredIn.isPureNumber h, hpure⟩
  | _ => trivial

theorem Node.extends_answer {n : Node} {env : Env} (hclean : n.term.Forall (Term.Clean ctx)) :
    (n.answer env).env.Extends ctx.registry env.history :=
  answer_keeps (P := Env.Extends ctx.registry env.history)
    (hclean.imp fun _ ht => ht.keeps_extends _) ⟨[], rfl, by simp⟩

/-- Of calls of registered functions, those of impure ones are noticed. -/
theorem Registry.noticed_eq_impure {r : Registry} {calls : History}
    (h : ∀ c ∈ calls, r.isPureNumber c.number = c.isPure) : r.noticed calls = calls.impure :=
  List.filter_congr fun c hc => by rw [h c hc]

/-- Histories that are alike, and were so before calls of registered functions, differ in calls
of pure ones only. -/
theorem Env.Alike.impure_eq {r : Registry} {env env' : Env} {h h' : History}
    (halike : Alike r env env') (hbefore : r.noticed h' = r.noticed h) (henv : env.Extends r h)
    (henv' : env'.Extends r h') : ∃ calls calls', env.history = calls ++ h ∧
      env'.history = calls' ++ h' ∧ calls'.impure = calls.impure := by
  obtain ⟨calls, hcalls, hpure⟩ := henv
  obtain ⟨calls', hcalls', hpure'⟩ := henv'
  refine ⟨calls, calls', hcalls, hcalls', ?_⟩
  have hnoticed := halike.calls
  rw [hcalls, hcalls', Registry.noticed, List.filter_append, Registry.noticed,
    List.filter_append] at hnoticed
  rw [← Registry.noticed_eq_impure hpure, ← Registry.noticed_eq_impure hpure']
  exact List.append_cancel_right (hnoticed.trans (congrArg (_ ++ ·) hbefore.symm))

namespace Compiler

/-- If the first run of an expression that was not optimized comes to a value, the first run of
the optimized one binds the same variables to the same values and calls the same impure
functions in the same order. The functions keep their promise, the constants have the values
that they had while compiling, and what stands in front of an operand of `&&` and `||` that
decides has no effects. -/
theorem effects_compile_eq {c : Compiler} {source : String} {scope s : Scope}
    {plain optimized : Expression} {history : History} {v : Value}
    (hlawful : c.registry.Lawful) (hplain : c.compilePlain source scope = .ok plain)
    (hopt : (c.compile source scope history).result = .ok optimized)
    (hquiet : plain.root.term.Forall (Term.QuietBeside ⟨c.settings, c.registry, scope⟩))
    (hs : BuildContext.ConstantValues ⟨c.settings, c.registry, scope⟩ s)
    (hok : (plain.execute ⟨s, history⟩).result = .ok v) :
    (optimized.execute ⟨s, (c.compile source scope history).history⟩).observed =
        (plain.execute ⟨s, history⟩).observed ∧
      ∃ calls calls', (plain.execute ⟨s, history⟩).env.history = calls ++ history ∧
        (optimized.execute ⟨s, (c.compile source scope history).history⟩).env.history =
          calls' ++ (c.compile source scope history).history ∧
        calls'.impure = calls.impure := by
  obtain ⟨root, hroot, rfl⟩ := Except.map_eq_ok.1 hplain
  obtain ⟨es, -, hbuilt, -⟩ := build_built hroot
  have hstart : Env.Alike c.registry ⟨scope.toSealed, history⟩ ⟨scope.toSealed, history⟩ := .refl
  have hreduces := hbuilt.reduces_of_quietBeside hlawful hquiet (fun name v _ hv => hv) hstart
  unfold compile at hopt ⊢
  rw [hroot] at hopt ⊢
  obtain ⟨m, hm, rfl⟩ := Except.map_eq_ok.1 hopt
  obtain ⟨hfollows, hclean⟩ := hreduces.node m hm
  have hrun : root.execute ⟨s, history⟩ = ⟨(root.execute ⟨s, history⟩).node,
    (root.execute ⟨s, history⟩).env, .ok v⟩ := Node.execute_eq_iff.2 ⟨hok, rfl, rfl⟩
  have hsame : Env.Alike c.registry ⟨s, history⟩
    ⟨s, (root.optimize ⟨scope.toSealed, history⟩).env.history⟩ := ⟨rfl, hreduces.env.calls⟩
  obtain ⟨m', env', hm', ⟨-, halike⟩, -⟩ := hfollows.run hlawful hbuilt.clean ⟨hs, hsame⟩ hrun
  have hmrun := Node.execute_eq_iff.1 hm'
  refine ⟨Prod.ext (hmrun.1.trans hok.symm) ?_, ?_⟩
  · exact (congrArg Env.scope hmrun.2.2).trans halike.scope
  · rw [← hmrun.2.2] at halike
    exact halike.impure_eq hreduces.env.calls (Node.extends_answer hbuilt.clean)
      (Node.extends_answer hclean)

/-- A comparison is gone, since the one of constants on its right decides, and so is the whole
statement. Both calls of `tick` are still made. -/
theorem effects_compile_eq_tick :
    ∃ plain optimized,
      compilePlain ⟨Settings.standard.withConstant "k", Registry.empty.register "tick" tick⟩
        "x = tick() + 1; x > 0 && k == 1; tick()" (.store (.ofList [("k", .integer 2)])) =
          .ok plain ∧
      (compile ⟨Settings.standard.withConstant "k", Registry.empty.register "tick" tick⟩
        "x = tick() + 1; x > 0 && k == 1; tick()" (.store (.ofList [("k", .integer 2)]))
          []).result = .ok optimized ∧
      (optimized.execute ⟨.store (.ofList [("k", .integer 2)]), (compile
          ⟨Settings.standard.withConstant "k", Registry.empty.register "tick" tick⟩
          "x = tick() + 1; x > 0 && k == 1; tick()" (.store (.ofList [("k", .integer 2)]))
            []).history⟩).observed =
        (plain.execute ⟨.store (.ofList [("k", .integer 2)]), []⟩).observed ∧
      ∃ calls calls' : History,
        (plain.execute ⟨.store (.ofList [("k", .integer 2)]), []⟩).env.history = calls ++ [] ∧
        (optimized.execute ⟨.store (.ofList [("k", .integer 2)]), (compile
            ⟨Settings.standard.withConstant "k", Registry.empty.register "tick" tick⟩
            "x = tick() + 1; x > 0 && k == 1; tick()" (.store (.ofList [("k", .integer 2)]))
              []).history⟩).env.history = calls' ++ (compile
            ⟨Settings.standard.withConstant "k", Registry.empty.register "tick" tick⟩
            "x = tick() + 1; x > 0 && k == 1; tick()" (.store (.ofList [("k", .integer 2)]))
              []).history ∧
        calls'.impure = calls.impure := by
  have hplain : (compilePlain
      ⟨Settings.standard.withConstant "k", Registry.empty.register "tick" tick⟩
      "x = tick() + 1; x > 0 && k == 1; tick()" (.store (.ofList [("k", .integer 2)]))).map
        (fun e => (e.root.term,
          (e.execute ⟨.store (.ofList [("k", .integer 2)]), []⟩).result)) =
      .ok (.sequence (.sequence
            (.assign .set "x" (.arith .add (.call "tick" ⟨0, tick⟩ []) (.literal (.integer 1))))
            (.logic .and (.compare .gt (.read "x" false) (.literal (.integer 0)))
              (.compare .eq (.read "k" true) (.literal (.integer 1)))))
          (.call "tick" ⟨0, tick⟩ []), .ok (.integer 1)) := by cbv
  have hopt : (compile ⟨Settings.standard.withConstant "k", Registry.empty.register "tick" tick⟩
      "x = tick() + 1; x > 0 && k == 1; tick()" (.store (.ofList [("k", .integer 2)]))
        []).result.isOk = true := by cbv
  obtain ⟨plain, hplain, hrun⟩ := Except.map_eq_ok.1 hplain
  obtain ⟨optimized, hopt⟩ := Except.isOk_iff.1 hopt
  obtain ⟨hterm, hok⟩ := Prod.mk.inj hrun
  refine ⟨plain, optimized, hplain, hopt,
    effects_compile_eq ?_ hplain hopt ?_ (fun name v _ hv => hv) hok⟩
  · refine (Registry.Lawful.of_answers (by simp [Registry.empty])).register "tick" rfl ?_
    intro h h' args hcount
    exact congrArg (fun n => Except.ok (Value.integer (.ofNat n))) hcount
  · rw [hterm]
    simp [Term.QuietBeside, Term.Quiet]

/-- The operand on the right decides, and the assignment on the left of it is gone. -/
theorem effects_compile_ne_of_decided :
    ∃ plain optimized,
      compilePlain standard "(x = 2) == 2 && false; x" (.store (.ofList [])) = .ok plain ∧
      (compile standard "(x = 2) == 2 && false; x" (.store (.ofList [])) []).result =
        .ok optimized ∧
      (plain.execute ⟨.store (.ofList [("x", .integer 1)]), []⟩).result = .ok (.integer 2) ∧
      (plain.execute ⟨.store (.ofList [("x", .integer 1)]), []⟩).env.scope.get? "x" =
        some (.integer 2) ∧
      (optimized.execute ⟨.store (.ofList [("x", .integer 1)]), []⟩).env.scope.get? "x" =
        some (.integer 1) := by
  have hplain : (compilePlain standard "(x = 2) == 2 && false; x" (.store (.ofList []))).map
      (fun e => ((e.execute ⟨.store (.ofList [("x", .integer 1)]), []⟩).result,
        (e.execute ⟨.store (.ofList [("x", .integer 1)]), []⟩).env.scope.get? "x")) =
      .ok (.ok (.integer 2), some (.integer 2)) := by cbv
  have hopt : (compile standard "(x = 2) == 2 && false; x" (.store (.ofList [])) []).result.map
      (fun e => (e.execute ⟨.store (.ofList [("x", .integer 1)]), []⟩).env.scope.get? "x") =
      .ok (some (.integer 1)) := by cbv
  obtain ⟨plain, hplain, hrun⟩ := Except.map_eq_ok.1 hplain
  obtain ⟨optimized, hopt, hscope⟩ := Except.map_eq_ok.1 hopt
  obtain ⟨hresult, hbound⟩ := Prod.mk.inj hrun
  exact ⟨plain, optimized, hplain, hopt, hresult, hbound, hscope⟩

end Compiler

end Formula

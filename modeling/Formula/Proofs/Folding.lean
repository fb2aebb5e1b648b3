import Formula.Proofs.Recompiling
import Formula.Proofs.Rejection
import Formula.Proofs.Sessions

/-!
# Formulas without variables

A formula whose value is fixed while compiling is folded into one literal, or does not compile
(`Compiler.compile_of_isPrecomputable`). Each node finds literals where its operands were, and so
it is fixed and is folded in turn. `&&` and `||` do not optimize their operands first. They look
at them, and what a look leaves of a fixed operand is fixed.

The literal is the value that the formula comes to where the constants have the values that they
have while compiling, and then compiling does not fail.
-/

namespace Formula

namespace Node

variable {ctx : BuildContext} {n m : Node} {env : Env}

/-- Every tree inside one whose value is fixed has a fixed value. -/
theorem Inside.isPrecomputable (h : Inside m n) (hn : n.isPrecomputable = true) :
    m.isPrecomputable = true := by
  induction h with
  | self => exact hn
  | logicLeft _ ih | arithLeft _ ih | compareLeft _ ih | first _ ih =>
    rw [Node.isPrecomputable, Bool.and_eq_true] at hn
    exact ih hn.1
  | logicRight _ ih | arithRight _ ih | compareRight _ ih | second _ ih =>
    rw [Node.isPrecomputable, Bool.and_eq_true] at hn
    exact ih hn.2
  | not _ ih | sign _ ih => exact ih (by rwa [Node.isPrecomputable] at hn)
  | assign _ _ => simp [Node.isPrecomputable] at hn
  | call ha _ ih =>
    rw [Node.isPrecomputable, Bool.and_eq_true, allPrecomputable_iff] at hn
    exact ih (hn.2 _ ha)

/-- In a tree whose value is fixed, no operand of `&&` and `||` may keep another one from being
optimized. -/
theorem viable_of_isPrecomputable (hn : n.isPrecomputable = true) : n.Viable ctx := by
  intro op l r s h hl
  have hlogic := h.isPrecomputable hn
  rw [isPrecomputable, hl] at hlogic
  simp at hlogic

/-! ## Folding down to a literal -/

/-- The tree is a literal. -/
def IsLiteral (n : Node) : Prop := ∃ v, n = .literal v

theorem IsLiteral.isPrecomputable (h : n.IsLiteral) : n.isPrecomputable = true := by
  obtain ⟨v, rfl⟩ := h
  rfl

/-- What is left of a fixed tree, if anything is, is a literal. -/
def FoldsDown (r : Reduction) : Prop := r.Meets (fun _ => True) IsLiteral

theorem foldsDown_fold (hn : n.isPrecomputable = true) : FoldsDown (n.fold env) := by
  unfold fold
  split
  · refine ⟨trivial, fun m hm => ?_⟩
    obtain ⟨v, -, rfl⟩ := Except.map_eq_ok.1 hm
    exact ⟨v, rfl⟩
  · rename_i hcase
    cases n with
    | literal v => exact .ok trivial ⟨v, rfl⟩
    | _ => simp [hn, isLiteral] at hcase

theorem foldsDown_logic {op : Connective} {l r : Node} {s : Slot}
    (hl : l.isPrecomputable = true) (hr : r.isPrecomputable = true) :
    FoldsDown ((logic op l r s).optimize env) := by
  -- a look runs the operand, and the run leaves its term
  have hprobe : ∀ {a : Node} {env : Env}, a.isPrecomputable = true →
      (a.probe env).node.isPrecomputable = true := by
    intro a env ha
    have hnode : (a.probe env).node = (a.execute env).node := by
      rw [probe, if_pos ha]
      simp only
      split <;> rfl
    rw [hnode, isPrecomputable_iff, term_execute, ← isPrecomputable_iff]
    exact ha
  rw [optimize]
  split
  · exact .ok trivial ⟨_, rfl⟩
  split
  · exact .ok trivial ⟨_, rfl⟩
  rw [if_pos (by rw [hl, hr]; rfl)]
  exact foldsDown_fold (by rw [isPrecomputable, hprobe hl, hprobe hr]; rfl)

/-- Optimizing leaves a literal of a tree whose value is fixed, or fails. -/
theorem foldsDown_optimize (hn : n.isPrecomputable = true) : FoldsDown (n.optimize env) := by
  induction n generalizing env with
  | literal v => exact .ok trivial ⟨v, rfl⟩
  | read name c s =>
    rw [optimize]
    exact foldsDown_fold hn
  | logic op l r s _ _ =>
    rw [isPrecomputable, Bool.and_eq_true] at hn
    exact foldsDown_logic hn.1 hn.2
  | not a s ih =>
    rw [optimize]
    exact (ih hn).andThen fun a' env _ ha => foldsDown_fold ha.isPrecomputable
  | sign g a s ih =>
    rw [optimize]
    refine (ih hn).andThen fun a' env _ ha => ?_
    rw [if_pos ha.isPrecomputable]
    exact foldsDown_fold ha.isPrecomputable
  | arith op l r s ihl ihr =>
    rw [isPrecomputable, Bool.and_eq_true] at hn
    rw [optimize]
    exact (ihl hn.1).andThen fun l' env _ hl => (ihr hn.2).andThen fun r' env _ hr =>
      foldsDown_fold (by rw [isPrecomputable, hl.isPrecomputable, hr.isPrecomputable]; rfl)
  | compare op l r s ihl ihr =>
    rw [isPrecomputable, Bool.and_eq_true] at hn
    rw [optimize]
    exact (ihl hn.1).andThen fun l' env _ hl => (ihr hn.2).andThen fun r' env _ hr =>
      foldsDown_fold (by rw [isPrecomputable, hl.isPrecomputable, hr.isPrecomputable]; rfl)
  | assign op name target a s ih => simp [isPrecomputable] at hn
  | call name f args b s ih =>
    rw [isPrecomputable, Bool.and_eq_true, allPrecomputable_iff] at hn
    have hall : ∀ ms, (optimizeAll args env).result = .ok ms → ∀ m ∈ ms, m.IsLiteral :=
      (meets_optimizeAll (P := fun _ => True) (fun a ha _ _ => ih a ha (hn.2 a ha)) trivial).2
    rw [optimize]
    cases hres : (optimizeAll args env).result with
    | error e => exact ⟨trivial, by simp⟩
    | ok ms =>
      refine foldsDown_fold ?_
      rw [isPrecomputable, Bool.and_eq_true, allPrecomputable_iff]
      exact ⟨hn.1, fun a ha => (hall ms hres a ha).isPrecomputable⟩
  | sequence a b s iha ihb =>
    rw [isPrecomputable, Bool.and_eq_true] at hn
    rw [optimize]
    refine (iha hn.1).andThen fun a' env _ ha => (ihb hn.2).andThen fun b' env _ hb => ?_
    rw [if_pos ha.isPrecomputable]
    exact .ok trivial hb

end Node

namespace Compiler

/-- A formula whose value is fixed while compiling becomes that value. Compiling it comes to one
literal, which is fixed, or fails. If a run of the expression that is not optimized comes to a
value where the constants have the values that they have while compiling, as in the scope itself,
then compiling does not fail and the literal is that value. What a pure function answers depends
on its arguments only. -/
theorem compile_of_isPrecomputable {c : Compiler} {source : String} {scope : Scope}
    {plain : Expression} (hpure : c.registry.PureAnswers)
    (hplain : c.compilePlain source scope = .ok plain) (hfixed : plain.isPrecomputable = true)
    (before : History) :
    (∀ e, (c.compile source scope before).result = .ok e →
      e.isPrecomputable = true ∧ ∃ v, e = .ofNode (.literal v)) ∧
    ∀ (s : Scope) (history : History) (v : Value),
      BuildContext.ConstantValues ⟨c.settings, c.registry, scope⟩ s →
      (plain.execute ⟨s, history⟩).result = .ok v →
        (c.compile source scope before).result = .ok (.ofNode (.literal v)) := by
  obtain ⟨root, hroot, rfl⟩ := Except.map_eq_ok.1 hplain
  obtain ⟨es, -, hbuilt, -⟩ := build_built hroot
  have hpre : root.isPrecomputable = true := hfixed
  have hliteral : ∀ m, (root.optimize ⟨scope.toSealed, before⟩).result = .ok m → m.IsLiteral :=
    (Node.foldsDown_optimize hpre).node
  have hstart : BuildContext.ConstantValues ⟨c.settings, c.registry, scope⟩ scope.toSealed :=
    fun name v _ hv => hv
  have hends : (root.optimize ⟨scope.toSealed, before⟩).Ends _ _ _ :=
    hbuilt.optimize_ends hpure BuildContext.compiling_values hstart
  constructor
  · intro e he
    obtain ⟨root', m, hroot', hm, rfl⟩ := compile_eq_ok.1 he
    obtain rfl := Except.ok.inj (hroot.symm.trans hroot')
    obtain ⟨v, rfl⟩ := hliteral m hm
    exact ⟨rfl, v, rfl⟩
  · intro s history v hs hv
    refine compile_eq_ok.2 ⟨root, .literal v, hroot, ?_, rfl⟩
    have hrun : root.execute ⟨s, history⟩ = ⟨(root.execute ⟨s, history⟩).node,
      (root.execute ⟨s, history⟩).env, .ok v⟩ := Node.execute_eq_iff.2 ⟨hv, rfl, rfl⟩
    cases hres : (root.optimize ⟨scope.toSealed, before⟩).result with
    | error fault =>
      have hviable : root.Viable ⟨c.settings, c.registry, scope⟩ :=
        Node.viable_of_isPrecomputable hpre
      exact ((hends.fault fault hres).ne_execute hpure hbuilt.clean hviable hs hrun).elim
    | ok m =>
      obtain ⟨w, rfl⟩ := hliteral m hres
      obtain ⟨n', env', hw, -⟩ :=
        (hends.node _ hres).leadsTo hpure hbuilt.clean rfl hs hrun ⟨s, history⟩ hs
      rw [Node.execute, Outcome.mk.injEq] at hw
      rw [Except.ok.inj hw.2.2]

/-- A statement of constants goes away, and what comes after it is fixed in each of its nodes. -/
theorem compile_of_isPrecomputable_max :
    ∃ plain, compilePlain ⟨Settings.standard.withConstant "k", .builtins⟩
        "k == 1; max(-k, 2) > 1 && !(k % 2 == 0)" (.store (.ofList [("k", .integer 3)])) =
          .ok plain ∧ plain.isPrecomputable = true ∧
      (plain.execute ⟨.store (.ofList [("k", .integer 3)]), []⟩).result = .ok (.boolean true) ∧
      (compile ⟨Settings.standard.withConstant "k", .builtins⟩
        "k == 1; max(-k, 2) > 1 && !(k % 2 == 0)" (.store (.ofList [("k", .integer 3)]))
          []).result = .ok (.ofNode (.literal (.boolean true))) := by
  have hplain : (compilePlain ⟨Settings.standard.withConstant "k", .builtins⟩
      "k == 1; max(-k, 2) > 1 && !(k % 2 == 0)" (.store (.ofList [("k", .integer 3)]))).map
        (fun e => (e.isPrecomputable,
          (e.execute ⟨.store (.ofList [("k", .integer 3)]), []⟩).result)) =
      .ok (true, .ok (.boolean true)) := by cbv
  obtain ⟨plain, hplain, hshape⟩ := Except.map_eq_ok.1 hplain
  obtain ⟨hfixed, hresult⟩ := Prod.mk.inj hshape
  have hpure : Registry.builtins.PureAnswers := Registry.lawful_builtins.pure_answer
  refine ⟨plain, hplain, hfixed, hresult, ?_⟩
  exact (compile_of_isPrecomputable hpure hplain hfixed []).2 _ [] _
    (fun name v _ hv => hv) hresult

end Compiler

end Formula

import Formula.Proofs.Leniency
import Formula.Proofs.Rewriting

/-!
# Known kinds are kept

Where the kind of a formula is known before it is optimized, the same kind is known of it
afterwards (`Compiler.compile_keeps_kind`). The kind may become known only by optimizing, as where
a call is folded, but it does not get lost and it does not change.

Each step of optimizing keeps what is known (`Node.Rewrites.atMost`). A tree that stays has its
slot, and with it the kind that was fixed when it was built. A literal that takes the place of a
fixed tree is a value that a run of the tree came to, and the slots of the tree let no value of
another kind pass. An operand that takes the place of its operator is of a kind that the operator
was known to have.
-/

namespace Formula

namespace Node

variable {ctx : BuildContext} {n m : Node}

/-- The kind of a fixed tree, if it is known, is that of the value that it is fixed to. -/
theorem FixedTo.kind? {v : Value} (h : n.FixedTo ctx (.ok v)) :
    Kind.AtMost n.kind? (some v.kind) := by
  obtain ⟨env, -, hv⟩ := h.ran
  exact kind?_of_execute_ok (execute_eq_iff.2 ⟨hv, rfl, rfl⟩)

/-- A sign is known to be of the kind of a number that it stands in front of. -/
theorem atMost_filter_isNumeric {k : Option Kind} (h : Kind.AtMost k m.kind?)
    (hnum : m.isNumeric = true) : Kind.AtMost (k.filter Kind.isNumeric) m.kind? := by
  obtain ⟨j, hj, hnumeric⟩ := isNumeric_iff.1 hnum
  have hfilter := h.filter Kind.isNumeric
  rwa [hj, Option.filter_some_pos hnumeric, ← hj] at hfilter

/-- What optimizing makes of a tree is known to be of the kind that was known before. -/
theorem Rewrites.atMost (h : Rewrites ctx n m) : Kind.AtMost n.kind? m.kind? := by
  induction h with
  -- the same form with the same slot
  | refl | logic | not | sign | arith | compare | assign | call | sequence => exact .refl
  | stuckLeft | stuckRight => exact .refl
  | folded _ hv ih => exact Kind.AtMost.trans ih hv.kind?
  | unsigned _ hnum ih => exact atMost_filter_isNumeric ih hnum
  | decided => exact .refl
  | onlyRight _ _ hm => exact .inr hm.symm
  | onlyLeft _ hm => exact .inr hm.symm
  | onlySecond _ _ _ _ _ ihb => exact ihb

end Node

namespace Compiler

variable {c : Compiler} {source : String} {scope : Scope}

/-- Optimizing never loses or changes a kind that is known. Where a formula compiles with and
without being optimized, and its kind is known without, the optimized one has this kind. -/
theorem compile_keeps_kind {before : History} {plain optimized : Expression} {k : Kind}
    (hpure : c.registry.PureAnswers) (hplain : c.compilePlain source scope = .ok plain)
    (hopt : (c.compile source scope before).result = .ok optimized)
    (hk : plain.kind? = some k) : optimized.kind? = some k := by
  obtain ⟨root, hroot, rfl⟩ := Except.map_eq_ok.1 hplain
  obtain ⟨root', m, hroot', hm, rfl⟩ := compile_eq_ok.1 hopt
  obtain rfl := Except.ok.inj (hroot.symm.trans hroot')
  obtain ⟨es, -, hbuilt, -⟩ := build_built hroot
  have hstart : BuildContext.ConstantValues ⟨c.settings, c.registry, scope⟩ scope.toSealed :=
    fun _ _ _ hv => hv
  have hends : (root.optimize ⟨scope.toSealed, before⟩).Ends _ _ _ :=
    hbuilt.optimize_ends hpure BuildContext.compiling_values hstart
  have hkept : Kind.AtMost (some k) m.kind? := hk ▸ (hends.node m hm).atMost
  exact (hkept.resolve_left (Option.some_ne_none k)).symm

/-- A statement and a sign go away, and the kind is that of the product that is left. -/
theorem compile_keeps_kind_sign :
    ∃ plain optimized,
      compilePlain ⟨{ Settings.standard.withConstant "k" with strict := true }, .builtins⟩
        "k == 1; +(x * (k + 1))" (.store (.ofList [("k", .integer 1), ("x", .long 5)])) =
          .ok plain ∧
      (compile ⟨{ Settings.standard.withConstant "k" with strict := true }, .builtins⟩
        "k == 1; +(x * (k + 1))" (.store (.ofList [("k", .integer 1), ("x", .long 5)]))
          []).result = .ok optimized ∧
      plain.kind? = some .long ∧ optimized.kind? = some .long ∧ optimized.text = "(* x 2)" := by
  have hplain : (compilePlain ⟨{ Settings.standard.withConstant "k" with strict := true },
      .builtins⟩ "k == 1; +(x * (k + 1))"
        (.store (.ofList [("k", .integer 1), ("x", .long 5)]))).map Expression.kind? =
      .ok (some .long) := by cbv
  have hopt : (compile ⟨{ Settings.standard.withConstant "k" with strict := true },
      .builtins⟩ "k == 1; +(x * (k + 1))"
        (.store (.ofList [("k", .integer 1), ("x", .long 5)])) []).result.map Expression.text =
      .ok "(* x 2)" := by cbv
  obtain ⟨plain, hplain, hkind⟩ := Except.map_eq_ok.1 hplain
  obtain ⟨optimized, hopt, htext⟩ := Except.map_eq_ok.1 hopt
  have hpure : Registry.builtins.PureAnswers := Registry.lawful_builtins.pure_answer
  exact ⟨plain, optimized, hplain, hopt, hkind, compile_keeps_kind hpure hplain hopt hkind, htext⟩

end Compiler

end Formula

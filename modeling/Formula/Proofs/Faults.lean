import Formula.Expression
import Formula.Proofs.FirstRun
import Formula.Proofs.Subjects

/-!
# What can go wrong

A text that cannot be built into a tree fails with a fault of its text, its kinds or its
settings, and never with one that depends on values (`Compiler.isRuntime_of_build_error`). Those
come up in runs only : from operations on values, from variables that are not bound or cannot
be, and from functions of the host. A tree that binds no variable is never told that it cannot
(`Node.faultsIn_answer`).
-/

namespace Formula

/-! ## Faults of the text -/

/-- The fault was found in the text. -/
abbrev Fault.OfText (e : Fault) : Prop := e.isSyntax = true

/-- Scanning fails over the text alone. -/
theorem faultsIn_scanFrom (skip offset : Nat) (line : UInt32) (cs : List Char) :
    FaultsIn Fault.OfText (scanFrom skip offset line cs) := by
  induction cs generalizing skip offset line with
  | nil => rw [scanFrom]; exact .ok _
  | cons c cs ih =>
    cases skip with
    | succ skip => exact ih skip _ _
    | zero =>
      rw [scanFrom]
      split
      · exact ih ..
      split
      · exact ih ..
      split
      · exact .error (by rfl)
      · exact (ih ..).map _

namespace Element

/-- So does the choice of a role for a token. -/
theorem faultsIn_ofToken (prior : Option Role) (t : Token) (next : Option Token) :
    FaultsIn Fault.OfText (Role.ofToken prior t next) := by
  unfold Role.ofToken Role.ofOperator
  simp only
  repeat' split
  all_goals first
    | exact .ok _
    | exact .error (by rfl)

theorem faultsIn_classifyFrom (prior : Option Role) (ts : List Token) :
    FaultsIn Fault.OfText (classifyFrom prior ts) := by
  induction ts generalizing prior with
  | nil => exact .ok _
  | cons t ts ih =>
    rw [classifyFrom]
    split
    · rename_i e he
      exact .error ((faultsIn_ofToken ..).fault e he)
    · exact (ih _).map _

/-- A step of sorting fails over the text alone. -/
theorem faultsIn_step (s : Sorting) (e : Element) : FaultsIn Fault.OfText (s.step e) := by
  unfold Sorting.step Sorting.comma Sorting.close Sorting.closeCall
  simp only
  repeat' split
  all_goals first
    | exact .ok _
    | exact .error (by rfl)

theorem faultsIn_finish (s : Sorting) : FaultsIn Fault.OfText s.finish := by
  unfold Sorting.finish
  simp only
  split
  · exact .ok _
  · exact .error (by rfl)

/-- A text that cannot be put into postfix order has a fault in it. -/
theorem faultsIn_postfixOfText (source : String) :
    FaultsIn Fault.OfText (postfixOfText source) := by
  refine ((faultsIn_scanFrom ..).map _).bind fun ts =>
    (faultsIn_classifyFrom _ ts).bind fun es => ?_
  unfold toPostfix
  split
  · rename_i e he
    exact .error ((FaultsIn.foldlM faultsIn_step ..).fault e he)
  · exact faultsIn_finish _

end Element

/-! ## Faults of building -/

/-- The fault does not depend on values. -/
abbrev Fault.BeforeRuns (e : Fault) : Prop := e.isRuntime = false

/-- No fault of the text is a fault of a run. -/
theorem Fault.OfText.beforeRuns {e : Fault} (h : e.OfText) : e.BeforeRuns := by
  cases e <;> first
    | rfl
    | exact Bool.noConfusion h

theorem Fault.About.beforeRuns {ss : List Subject} {e : Fault} (h : e.About ss) :
    e.BeforeRuns := by
  obtain ⟨s, -, h⟩ := h
  cases e with
  | runtime cause => simp [Fault.subject?] at h
  | _ => rfl

namespace Node

/-- Building a node tells nothing that only a run can tell. -/
theorem faultsIn_build (ctx : BuildContext) (stack : List Node) (e : Element) :
    FaultsIn Fault.BeforeRuns (build ctx stack e) := by
  cases hkept : e.role.isKept with
  | true => exact (about_build ctx stack hkept).imp fun _ h => h.beforeRuns
  | false =>
    rw [build_of_not_isKept ctx stack hkept]
    exact .error (by rfl)

theorem faultsIn_ofPostfix (ctx : BuildContext) (es : List Element) :
    FaultsIn Fault.BeforeRuns (ofPostfix ctx es) := by
  unfold ofPostfix
  split
  · rename_i e he
    exact .error ((FaultsIn.foldlM (faultsIn_build ctx) ..).fault e he)
  · unfold single
    split
    · exact .ok _
    · exact .error (by rfl)
    · exact .error (by rfl)

end Node

/-! ## Faults of checking -/

namespace Kind

theorem faultsIn_promote (a b : Kind) : FaultsIn Fault.BeforeRuns (promote a b) := by
  unfold promote
  repeat' split
  all_goals first
    | exact .ok _
    | exact .error (by rfl)

/-- Two kinds that do not meet are told before any run. -/
theorem faultsIn_checkMeeting (a b : Option Kind) :
    FaultsIn Fault.BeforeRuns (checkMeeting a b) := by
  unfold checkMeeting
  split
  · exact (faultsIn_promote ..).map _
  · exact .ok _

theorem faultsIn_checkComparison (op : CompareOp) (a b : Kind) :
    FaultsIn Fault.BeforeRuns (checkComparison op a b) := by
  unfold checkComparison
  split
  · exact (faultsIn_promote ..).map _
  · exact .check _ _ rfl

end Kind

namespace Node

theorem faultsIn_checkAssign (op : AssignOp) (name : String) (target value : Option Kind) :
    FaultsIn Fault.BeforeRuns (checkAssign op name target value) := by
  have htarget : ∀ k, FaultsIn Fault.BeforeRuns (Kind.checkTarget name target k) := by
    intro k
    cases target with
    | none => exact .ok _
    | some fixed => exact .check _ _ rfl
  unfold checkAssign
  cases op.arith? with
  | none =>
    cases value with
    | none => exact .ok _
    | some k => exact htarget k
  | some a =>
    refine ((Kind.faultsIn_checkMeeting target value).map _).bind fun produced => ?_
    cases produced with
    | none => exact .ok _
    | some k => exact htarget k

theorem faultsIn_validateAll {ns : List Node}
    (ih : ∀ n ∈ ns, FaultsIn Fault.BeforeRuns n.validate) :
    FaultsIn Fault.BeforeRuns (validateAll ns) := by
  induction ns with
  | nil => exact .ok _
  | cons n ns ihs =>
    rw [List.forall_mem_cons] at ih
    rw [validateAll]
    exact ih.1.bind fun _ => ihs ih.2

/-- Validating tells nothing that only a run can tell. -/
theorem faultsIn_validate (n : Node) : FaultsIn Fault.BeforeRuns n.validate := by
  have hboolean : ∀ symbol k, FaultsIn Fault.BeforeRuns (Kind.checkBoolean symbol k) := by
    rintro symbol (_ | k)
    · exact .ok _
    · exact .check _ _ rfl
  have hsign : ∀ g k, FaultsIn Fault.BeforeRuns (Kind.checkSign g k) := by
    rintro g (_ | k)
    · exact .ok _
    · exact .check _ _ rfl
  induction n with
  | literal v => exact .ok _
  | read name c s => exact .ok _
  | logic op l r s ihl ihr =>
    rw [validate]
    exact ihl.bind fun _ => ihr.bind fun _ => (hboolean ..).bind fun _ => hboolean ..
  | not a s ih =>
    rw [validate]
    exact ih.bind fun _ => hboolean ..
  | sign g a s ih =>
    rw [validate]
    exact ih.bind fun _ => hsign ..
  | arith op l r s ihl ihr =>
    rw [validate]
    exact ihl.bind fun _ => ihr.bind fun _ => Kind.faultsIn_checkMeeting ..
  | compare op l r s ihl ihr =>
    rw [validate]
    refine ihl.bind fun _ => ihr.bind fun _ => ?_
    split
    · exact Kind.faultsIn_checkComparison ..
    · exact .ok _
  | assign op name target v s ih =>
    rw [validate]
    exact ih.bind fun _ => faultsIn_checkAssign ..
  | call name f args b s ih =>
    rw [validate]
    exact faultsIn_validateAll ih
  | sequence a b s iha ihb =>
    rw [validate]
    exact iha.bind fun _ => ihb

end Node

/-- No fault of building depends on values. -/
theorem Compiler.isRuntime_of_build_error {c : Compiler} {source : String} {scope : Scope}
    {e : Fault} (h : c.build source scope = .error e) : e.isRuntime = false := by
  have hbuild : FaultsIn Fault.BeforeRuns (c.build source scope) := by
    unfold build
    refine ((Element.faultsIn_postfixOfText source).imp fun _ h => h.beforeRuns).bind fun es =>
      (Node.faultsIn_ofPostfix _ es).bind fun root => ?_
    split
    · exact root.faultsIn_validate.bind fun _ => .ok _
    · exact .ok _
  exact hbuild.fault e h

/-! ## Faults of runs -/

namespace FaultsIn

variable {α β : Type} {p : Fault → Prop}

/-- Two steps fail as one of them does. -/
theorem andThen {a : Answer α} {f : α → Env → Answer β} (h : FaultsIn p a.result)
    (hf : ∀ v env, FaultsIn p (f v env).result) : FaultsIn p (a.andThen f).result := by
  refine ⟨fun e he => ?_⟩
  rcases Answer.andThen_eq_error.1 he with he | ⟨v, -, he⟩
  · exact h.fault e he
  · exact (hf v a.env).fault e he

theorem pass {a : Answer α} {f : α → Except Fault β} (h : FaultsIn p a.result)
    (hf : ∀ v, FaultsIn p (f v)) : FaultsIn p (a.pass f).result :=
  h.bind hf

end FaultsIn

namespace Node

/-- Arguments do not come to a fault that none of them comes to. -/
theorem faultsIn_answerAll {e : Fault} {ns : List Node} {env : Env}
    (ih : ∀ n ∈ ns, ∀ env, FaultsIn (· ≠ e) (n.answer env).result) :
    FaultsIn (· ≠ e) (answerAll ns env).result := by
  induction ns generalizing env with
  | nil => exact .ok _
  | cons n ns ihs =>
    rw [List.forall_mem_cons] at ih
    rw [answerAll_cons]
    exact (ih.1 env).andThen fun v env => (ihs ih.2).map _

/-- A run of a tree that binds no variable is told that it cannot bind one only if a function
that it calls says so. -/
theorem faultsIn_answer {e : Fault} (he : IsSealed e) {n : Node} {env : Env}
    (hn : n.term.Forall (Term.NeverAnswers e)) (hpre : n.isPrecomputable = true) :
    FaultsIn (· ≠ e) (n.answer env).result := by
  have other : ∀ {α : Type} {r : Except Fault α}, FaultsIn Fault.OfValues r → FaultsIn (· ≠ e) r :=
    fun h => h.imp fun f hf hfe => hf.not_isSealed (hfe ▸ he)
  have fits : ∀ {a : Answer Value} (s : Slot), FaultsIn (· ≠ e) a.result →
      FaultsIn (· ≠ e) (a.fitting s).result := by
    intro a s h
    refine h.pass fun v => FaultsIn.map ?_ _
    obtain ⟨name, rfl⟩ := he
    unfold Slot.check
    cases s.kind with
    | none => exact .ok _
    | some k => exact .check _ _ (by simp)
  induction n generalizing env with
  | literal v =>
    rw [answer_literal]
    exact .ok v
  | read name c s =>
    rw [answer_read]
    refine fits s (other ?_)
    unfold readVariable
    split
    · exact .ok _
    · exact .error (Fault.ofValues_runtime (by simp))
  | logic op l r s ihl ihr =>
    rw [term, Term.forall_logic] at hn
    simp only [isPrecomputable, Bool.and_eq_true] at hpre
    rw [answer_logic]
    refine fits s (((ihl hn.2.1 hpre.1).pass fun v => other (v.faultsIn_asBool _)).andThen
      fun b env => ?_)
    split
    · exact .ok _
    · exact ((ihr hn.2.2 hpre.2).pass fun v => other (v.faultsIn_asBool _)).map _
  | not a s ih =>
    rw [term, Term.forall_not] at hn
    rw [answer_not]
    exact fits s (((ih hn.2 hpre).pass fun v => other (v.faultsIn_asBool _)).map _)
  | sign g a s ih =>
    rw [term, Term.forall_sign] at hn
    rw [answer_sign]
    exact fits s ((ih hn.2 hpre).pass fun v => other (faultsIn_applySign g v))
  | arith op l r s ihl ihr =>
    rw [term, Term.forall_arith] at hn
    simp only [isPrecomputable, Bool.and_eq_true] at hpre
    rw [answer_arith]
    exact fits s ((ihl hn.2.1 hpre.1).andThen fun v env =>
      (ihr hn.2.2 hpre.2).pass fun w => other (v.faultsIn_arith op w))
  | compare op l r s ihl ihr =>
    rw [term, Term.forall_compare] at hn
    simp only [isPrecomputable, Bool.and_eq_true] at hpre
    rw [answer_compare]
    exact fits s ((ihl hn.2.1 hpre.1).andThen fun v env =>
      ((ihr hn.2.2 hpre.2).pass fun w => other (v.faultsIn_compare op w)).map _)
  | assign op name target v s ih => simp [isPrecomputable] at hpre
  | call name f args b s ih =>
    rw [term, terms_eq_map, Term.forall_call, List.forall_mem_map] at hn
    simp only [isPrecomputable, Bool.and_eq_true, allPrecomputable_iff] at hpre
    rw [answer_call]
    refine fits s ((faultsIn_answerAll fun a ha env => ih a ha (hn.2 a ha) (hpre.2 a ha)).andThen
      fun vs env => ⟨fun f hf hfe => hn.1 env.history vs ?_⟩)
    rw [← hfe]
    exact hf
  | sequence a b s iha ihb =>
    rw [term, Term.forall_sequence] at hn
    simp only [isPrecomputable, Bool.and_eq_true] at hpre
    rw [answer_sequence]
    exact fits s ((iha hn.2.1 hpre.1).andThen fun v env => ihb hn.2.2 hpre.2)

end Node

end Formula

import Formula.Function.Builtin
import Formula.Proofs.Building
import Formula.Proofs.Evaluation
import Formula.Proofs.Store

/-!
# Terms without effects

A term that neither binds a variable nor calls an impure function leaves the surroundings as
they were, apart from the calls of pure functions in the history, and those are not noticed
(`Term.eval_quiet`). So functions answer the same afterwards (`Term.callFunction_alike`).

This rests on the promise that hosts make when they register a function as pure
(`Registry.Lawful`).
-/

namespace Formula

/-! ## What functions notice -/

namespace Registry

/-- Whether the function with a number is registered as pure. -/
def isPureNumber (r : Registry) (number : Nat) : Bool :=
  r.entries[number]?.any fun e => e.2.isPure

/-- The calls that functions may take notice of : those of functions that are not pure. -/
def noticed (r : Registry) (h : History) : History := h.filter fun c => !r.isPureNumber c.number

/-- What a pure function answers depends on its arguments only. -/
def PureAnswers (r : Registry) : Prop := ∀ e ∈ r.entries, e.2.isPure = true → ∀ h h' args,
  e.2.answer h args = e.2.answer h' args

/-- The promise of the host about its functions. A pure function looks at its arguments
alone, and it leaves nothing behind at which another function could look. -/
structure Lawful (r : Registry) : Prop where
  /-- What a pure function answers depends on its arguments only. -/
  pure_answer : ∀ e ∈ r.entries, e.2.isPure = true → ∀ h h' args,
    e.2.answer h args = e.2.answer h' args
  /-- What any function answers does not depend on the calls of pure ones. -/
  answer_noticed : ∀ e ∈ r.entries, ∀ h h' args, r.noticed h = r.noticed h' →
    e.2.answer h args = e.2.answer h' args

variable {r : Registry}

theorem noticed_cons (c : Call) (h : History) :
    r.noticed (c :: h) = if r.isPureNumber c.number then r.noticed h else c :: r.noticed h := by
  rw [noticed, List.filter_cons]
  cases r.isPureNumber c.number <;> rfl

/-- Calls of a function that is not pure are all noticed. -/
theorem count_noticed {number : Nat} (hn : r.isPureNumber number = false) (h : History) :
    (r.noticed h).count number = h.count number := by
  rw [History.count, History.count, noticed, List.filter_filter]
  congr 1
  refine List.filter_congr fun c _ => ?_
  by_cases hc : c.number = number
  · simp [hc, hn]
  · simp [hc]

/-- Functions that look at their arguments alone keep the promise. -/
theorem Lawful.of_answers
    (h : ∀ e ∈ r.entries, ∀ h h' args, e.2.answer h args = e.2.answer h' args) : r.Lawful :=
  ⟨fun e he _ => h e he, fun e he h₁ h₂ args _ => h e he h₁ h₂ args⟩

theorem lawful_builtins : builtins.Lawful := by
  refine .of_answers fun e he h h' args => ?_
  simp only [builtins, List.mem_cons, List.not_mem_nil, or_false] at he
  rcases he with rfl | rfl | rfl | rfl | rfl | rfl | rfl | rfl | rfl <;> rfl

theorem isPureNumber_register (name : String) {f : Function} (hf : f.isPure = false)
    (number : Nat) : (r.register name f).isPureNumber number = r.isPureNumber number := by
  unfold isPureNumber register
  rcases Nat.lt_trichotomy number r.entries.length with h | rfl | h
  · rw [List.getElem?_append_left h]
  · simp [hf]
  · rw [List.getElem?_eq_none (by rw [List.length_append]; exact h),
      List.getElem?_eq_none (Nat.le_of_lt h)]

/-- An impure function may look at how often it was called. -/
theorem Lawful.register (hr : r.Lawful) (name : String) {f : Function} (hf : f.isPure = false)
    (hcount : ∀ h h' args, h.count r.size = h'.count r.size → f.answer h args = f.answer h' args) :
    (r.register name f).Lawful := by
  have hnoticed : ∀ h, (r.register name f).noticed h = r.noticed h := fun h => by
    simp only [noticed, isPureNumber_register name hf]
  have hnumber : r.isPureNumber r.size = false := by simp [isPureNumber, size]
  constructor
  · intro e he hpure h h' args
    rcases List.mem_append.1 he with he | he
    · exact hr.pure_answer e he hpure h h' args
    · obtain rfl := List.mem_singleton.1 he
      simp [hf] at hpure
  · intro e he h h' args hsame
    rw [hnoticed, hnoticed] at hsame
    rcases List.mem_append.1 he with he | he
    · exact hr.answer_noticed e he h h' args hsame
    · obtain rfl := List.mem_singleton.1 he
      refine hcount h h' args ?_
      rw [← count_noticed hnumber, hsame, count_noticed hnumber]

end Registry

/-- The function that a call means is the one that is registered under its number. -/
def Overload.RegisteredIn (f : Overload) (r : Registry) : Prop :=
  ∃ name, r.entries[f.number]? = some (name, f.function)

theorem Overload.RegisteredIn.isPureNumber {f : Overload} {r : Registry}
    (h : f.RegisteredIn r) : r.isPureNumber f.number = f.function.isPure := by
  obtain ⟨name, h⟩ := h
  rw [Registry.isPureNumber, h]
  rfl

/-- Surroundings that no formula can tell apart. -/
structure Env.Alike (r : Registry) (env env' : Env) : Prop where
  scope : env'.scope = env.scope
  calls : r.noticed env'.history = r.noticed env.history

namespace Env.Alike

variable {r : Registry} {env env₁ env₂ : Env}

theorem refl : Alike r env env := ⟨rfl, rfl⟩

theorem symm (h : Alike r env env₁) : Alike r env₁ env := ⟨h.scope.symm, h.calls.symm⟩

theorem trans (h : Alike r env env₁) (h' : Alike r env₁ env₂) : Alike r env env₂ :=
  ⟨h'.scope.trans h.scope, h'.calls.trans h.calls⟩

end Env.Alike

/-- A scope that binds the constants to the values that they have while compiling. -/
def BuildContext.ConstantValues (ctx : BuildContext) (scope : Scope) : Prop :=
  ∀ name v, ctx.settings.isConstant name = true → ctx.scope.get? name = some v →
    scope.get? name = some v

namespace Term

/-! ## Properties of places -/

/-- What can stand at one place of a term that was built and perhaps optimized : a constant
that is read is bound while compiling, no constant is assigned to, and a function that is
called is registered. -/
def Clean (ctx : BuildContext) : Term → Prop
  | read name constant =>
    constant = true → ctx.settings.isConstant name = true ∧ (ctx.scope.get? name).isSome
  | assign _ name _ => ctx.settings.isConstant name = false
  | call _ f _ => f.RegisteredIn ctx.registry
  | _ => True

/-- The term itself neither binds a variable nor calls an impure function. -/
def Quiet : Term → Prop
  | assign .. => False
  | call _ f _ => f.function.isPure = true
  | _ => True

/-- The value of the term is fixed while compiling, if those of its operands are. -/
def Fixed : Term → Prop
  | read _ constant => constant = true
  | assign .. => False
  | call _ f _ => f.function.isPure = true
  | _ => True

theorem Fixed.quiet {t : Term} (h : t.Fixed) : t.Quiet := by
  cases t with
  | assign op name v => exact h
  | call name f args => exact h
  | _ => trivial

variable {ctx : BuildContext} {t : Term} {env env' : Env}

theorem Clean.keeps (h : t.Clean ctx) :
    t.Keeps fun env => ctx.ConstantValues env.scope := by
  cases t with
  | assign op name v =>
    intro env w scope henv hset other u hconst hu
    rw [Scope.get?_of_set hset other, if_neg ?_]
    · exact henv other u hconst hu
    · rintro rfl
      exact Bool.noConfusion (hconst.symm.trans h)
  | call name f args => exact fun env vs henv => henv
  | _ => trivial

/-- Evaluating a clean term leaves the constants as they were. -/
theorem eval_constantValues (ht : t.Forall (Clean ctx)) (henv : ctx.ConstantValues env.scope) :
    ctx.ConstantValues (t.eval env).env.scope :=
  eval_keeps (P := fun env => ctx.ConstantValues env.scope) (ht.imp fun _ h => h.keeps) henv

theorem Quiet.keeps (hclean : t.Clean ctx) (h : t.Quiet) :
    t.Keeps (Env.Alike ctx.registry env) := by
  cases t with
  | assign op name v => exact h.elim
  | call name f args =>
    intro env₁ vs henv
    refine ⟨henv.scope, ?_⟩
    have hpure : ctx.registry.isPureNumber f.number = true :=
      (Overload.RegisteredIn.isPureNumber hclean).trans h
    simp only [callFunction, Overload.call, Registry.noticed_cons, hpure, if_pos]
    exact henv.calls
  | _ => trivial

/-- Evaluating a term without effects leaves surroundings that no formula can tell from
those before. -/
theorem eval_quiet (hclean : t.Forall (Clean ctx)) (hquiet : t.Forall Quiet) :
    Env.Alike ctx.registry env (t.eval env).env :=
  eval_keeps (P := Env.Alike ctx.registry env)
    (fun u hu => Quiet.keeps (hclean u hu) (hquiet u hu)) .refl

/-- Functions answer the same in surroundings that no formula can tell apart. -/
theorem callFunction_alike {f : Overload} {r : Registry} (hlawful : r.Lawful)
    (hf : f.RegisteredIn r) (h : Env.Alike r env env') (args : List Value) :
    (callFunction f args env').result = (callFunction f args env).result ∧
      Env.Alike r (callFunction f args env).env (callFunction f args env').env := by
  obtain ⟨name, hentry⟩ := hf
  refine ⟨?_, h.scope, ?_⟩
  · exact hlawful.answer_noticed (name, f.function) (List.mem_of_getElem? hentry) _ _ args h.calls
  · simp only [callFunction, Overload.call, Registry.noticed_cons, h.calls]

theorem constantValues_of_alike (h : Env.Alike ctx.registry env env')
    (henv : ctx.ConstantValues env.scope) : ctx.ConstantValues env'.scope := by
  rw [h.scope]
  exact henv

end Term

end Formula

import Formula.Expression
import Formula.Proofs.Results

/-!
# Sessions

An expression can be run again and again. A run leaves its mark on the slots of the tree and
on the history of calls, and the next run starts from there. The scope is the host's : each
run gets one, which may be what an earlier run has left or not.

A session starts with an expression that was compiled, optimized or not (`Compiler.Yields`).
-/

namespace Formula

/-- What a host sees of a run : the result and the variables. -/
def Run.observed (r : Run) : Except Fault Value × Scope := (r.result, r.env.scope)

namespace Expression

/-- The runs of an expression in some scopes, one after the other. -/
def runs (e : Expression) (history : History) : List Scope → List Run
  | [] => []
  | s :: ss => e.execute ⟨s, history⟩ ::
    runs (e.execute ⟨s, history⟩).expression (e.execute ⟨s, history⟩).env.history ss

/-- The expression and the history of calls after runs in some scopes. -/
def after (e : Expression) (history : History) : List Scope → Expression × History
  | [] => (e, history)
  | s :: ss =>
    after (e.execute ⟨s, history⟩).expression (e.execute ⟨s, history⟩).env.history ss

/-- Later runs start from what earlier ones leave. -/
theorem after_append (e : Expression) (history : History) (past future : List Scope) :
    e.after history (past ++ future) =
      (e.after history past).1.after (e.after history past).2 future := by
  induction past generalizing e history with
  | nil => rfl
  | cons s ss ih => rw [List.cons_append, after, after, ih]

/-- What every run keeps of a tree holds before every run. Every run then has the property
that a run has because of it. -/
theorem forall_runs {I : Node → Prop} {P : Scope → Prop} {Q : Run → Prop}
    (step : ∀ (e : Expression) (env : Env), I e.root → P env.scope →
      I (e.execute env).expression.root ∧ Q (e.execute env))
    {e : Expression} {history : History} {scopes : List Scope} (he : I e.root)
    (hscopes : ∀ s ∈ scopes, P s) : ∀ r ∈ e.runs history scopes, Q r := by
  induction scopes generalizing e history with
  | nil => simp [runs]
  | cons s ss ih =>
    rw [List.forall_mem_cons] at hscopes
    obtain ⟨hroot, hrun⟩ := step e ⟨s, history⟩ he hscopes.1
    rw [runs, List.forall_mem_cons]
    exact ⟨hrun, ih hroot hscopes.2⟩

end Expression

namespace Compiler

variable {c : Compiler} {source : String} {scope : Scope} {e : Expression}

/-- An optimized expression has the tree that optimizing makes of the one that was built. -/
theorem compile_eq_ok {before : History} : (c.compile source scope before).result = .ok e ↔
    ∃ root m, c.build source scope = .ok root ∧
      (root.optimize ⟨scope.toSealed, before⟩).result = .ok m ∧ .ofNode m = e := by
  unfold compile
  cases c.build source scope with
  | error fault => simp
  | ok root => simp [Except.map_eq_ok]

/-- The expression is what compiling the text comes to, optimized or not. -/
def Yields (c : Compiler) (source : String) (scope : Scope) (e : Expression) : Prop :=
  c.compilePlain source scope = .ok e ∨ ∃ before, (c.compile source scope before).result = .ok e

/-- A property of the tree that is built, and of what optimizing makes of it, is one of the
expression. The expression has not been run, and makes its buffers anew. -/
theorem Yields.root_of {Q : Node → Prop} (h : c.Yields source scope e)
    (hbuild : ∀ root, c.build source scope = .ok root → Q root ∧
      ∀ env m, (root.optimize env).result = .ok m → Q m) :
    e = .ofNode e.root ∧ Q e.root := by
  rcases h with h | ⟨before, h⟩
  · obtain ⟨root, hroot, rfl⟩ := Except.map_eq_ok.1 h
    exact ⟨rfl, (hbuild root hroot).1⟩
  · obtain ⟨root, m, hroot, hm, rfl⟩ := compile_eq_ok.1 h
    exact ⟨rfl, (hbuild root hroot).2 _ m hm⟩

/-- An expression that was just compiled has not been run, and makes its buffers anew. -/
theorem Yields.eq_ofNode (h : c.Yields source scope e) : e = .ofNode e.root :=
  (h.root_of fun _ _ => ⟨trivial, fun _ _ _ => trivial⟩).1

end Compiler

end Formula

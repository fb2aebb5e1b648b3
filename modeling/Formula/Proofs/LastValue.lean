import Formula.Proofs.Building
import Formula.Proofs.Runs
import Formula.Proofs.Sessions
import Mathlib

/-!
# The last value and its kind

Between runs a host can ask an expression for its last value and for the kind of its values.
Both are those of the root of the tree. A run that comes to a value leaves that value and its
kind there (`Node.last_and_kind_of_execute`), and a run that fails leaves what was there before
(`Node.memory_of_execute_error`).

Optimizing runs parts of the tree, and a part that was run has a last value. No such part
becomes the root : where it would, a literal does (`Node.Built.unset_optimize`). And so an
expression that was compiled, optimized or not, has no last value before a run of its own comes
to one (`Compiler.last_and_kind_follow_runs`).
-/

namespace Formula

/-- What a host can ask a tree for between runs : what its root does, its last value, and the
kind of its values as far as it is known. -/
structure Memory where
  form : Form
  last : Value
  kind? : Option Kind

namespace Node

variable {ctx : BuildContext} {es : List Element} {n : Node} {env : Env} {v : Value} {e : Fault}

/-! ## One run -/

/-- What the tree has for a host that asks. -/
def memory (n : Node) : Memory := ⟨n.form, n.last, n.kind?⟩

/-- The slot of the root. A literal always holds its value. -/
def slot : Node → Slot
  | literal v => .holding v
  | read _ _ s | logic _ _ _ s | not _ s | sign _ _ s | arith _ _ _ s | compare _ _ _ s
  | assign _ _ _ _ s | call _ _ _ _ s | sequence _ _ s => s

theorem last_eq_slot (n : Node) : n.last = n.slot.value := by
  cases n <;> rfl

theorem node_of_commit_error {node : Slot → Node} {s : Slot} {r : Except Fault Value}
    (h : (commit node s env r).result = .error e) : (commit node s env r).node = node s := by
  cases r with
  | error e' => rfl
  | ok v =>
    rw [commit] at h ⊢
    cases hs : s.store v with
    | error e' => rfl
    | ok kept => simp [hs] at h

/-- A run that fails leaves the slot of the root as it was, wherever it fails. -/
theorem memory_of_execute_error (h : (n.execute env).result = .error e) :
    (n.execute env).node.memory = n.memory := by
  cases n with
  | literal v => simp [execute] at h
  | read name c s =>
    rw [execute] at h ⊢
    rw [node_of_commit_error h]
  | logic op l r s =>
    rw [execute] at h ⊢
    cases hl : (l.execute env).result.bind (Value.asBool op.symbol) with
    | error e' => rfl
    | ok b =>
      simp only [hl] at h ⊢
      split_ifs at h ⊢
      · rw [node_of_commit_error h]; rfl
      · rw [node_of_commit_error h]; rfl
  | not a s =>
    rw [execute] at h ⊢
    rw [node_of_commit_error h]; rfl
  | sign g a s =>
    rw [execute] at h ⊢
    rw [node_of_commit_error h]; rfl
  | arith op l r s =>
    rw [execute] at h ⊢
    cases hl : (l.execute env).result with
    | error e' => rfl
    | ok a =>
      simp only [hl] at h ⊢
      rw [node_of_commit_error h]; rfl
  | compare op l r s =>
    rw [execute] at h ⊢
    cases hl : (l.execute env).result with
    | error e' => rfl
    | ok a =>
      simp only [hl] at h ⊢
      rw [node_of_commit_error h]; rfl
  | assign op name target a s =>
    rw [execute] at h ⊢
    cases hw : (a.execute env).result.bind (assigned op (a.execute env).env.scope name) with
    | error e' => rfl
    | ok u =>
      simp only [hw] at h ⊢
      cases hb : bindVariable (a.execute env).env.scope name target s u with
      | error e' => rfl
      | ok scope =>
        simp only [hb] at h ⊢
        rw [node_of_commit_error h]; rfl
  | call name f args b s =>
    rw [execute_call] at h ⊢
    cases hf : (executeAll args env).fault with
    | some e' => rfl
    | none =>
      simp only [hf] at h ⊢
      rw [node_of_commit_error h]; rfl
  | sequence a b s =>
    rw [execute] at h ⊢
    cases ha : (a.execute env).result with
    | error e' => rfl
    | ok u =>
      simp only [ha] at h ⊢
      rw [node_of_commit_error h]; rfl

/-- A run that comes to a value leaves it, and its kind, in the root. -/
theorem slot_and_kind_of_execute (h : (n.execute env).result = .ok v) :
    (n.execute env).node.slot = .holding v ∧ (n.execute env).node.kind? = some v.kind := by
  have hrun : n.execute env = ⟨(n.execute env).node, (n.execute env).env, .ok v⟩ :=
    execute_eq_iff.2 ⟨h, rfl, rfl⟩
  cases n with
  | literal w =>
    rw [execute, Except.ok.injEq] at h
    rw [execute, ← h]
    exact ⟨rfl, rfl⟩
  | read name c s =>
    obtain ⟨-, -, hnode, -⟩ := execute_read_ok.1 hrun
    rw [hnode]
    exact ⟨rfl, rfl⟩
  | logic op l r s =>
    obtain ⟨-, ⟨l', -, rfl, hnode⟩ | ⟨l', env₁, r', b, -, -, rfl, hnode⟩⟩ :=
      execute_logic_ok.1 hrun
    · rw [hnode]
      exact ⟨rfl, rfl⟩
    · rw [hnode]
      exact ⟨rfl, rfl⟩
  | not a s =>
    obtain ⟨-, a', b, -, rfl, hnode⟩ := execute_not_ok.1 hrun
    rw [hnode]
    exact ⟨rfl, rfl⟩
  | sign g a s =>
    obtain ⟨-, a', w, -, -, hnode⟩ := execute_sign_ok.1 hrun
    rw [hnode]
    exact ⟨rfl, rfl⟩
  | arith op l r s =>
    obtain ⟨-, l', env₁, a, r', b, -, -, -, hnode⟩ := execute_arith_ok.1 hrun
    rw [hnode]
    exact ⟨rfl, rfl⟩
  | compare op l r s =>
    obtain ⟨-, l', env₁, a, r', b, c, -, -, -, rfl, hnode⟩ := execute_compare_ok.1 hrun
    rw [hnode]
    exact ⟨rfl, rfl⟩
  | assign op name target a s =>
    obtain ⟨a', env₁, w, scope, -, -, -, -, hnode⟩ := execute_assign_ok.1 hrun
    rw [hnode]
    exact ⟨rfl, rfl⟩
  | call name f args b s =>
    obtain ⟨-, args', env₁, vs, -, -, hnode⟩ := execute_call_ok.1 hrun
    rw [hnode]
    exact ⟨rfl, rfl⟩
  | sequence a b s =>
    obtain ⟨-, a', env₁, u, b', -, -, hnode⟩ := execute_sequence_ok.1 hrun
    rw [hnode]
    exact ⟨rfl, rfl⟩

theorem last_and_kind_of_execute (h : (n.execute env).result = .ok v) :
    (n.execute env).node.last = v ∧ (n.execute env).node.kind? = some v.kind := by
  obtain ⟨hslot, hkind⟩ := slot_and_kind_of_execute h
  rw [last_eq_slot, hslot]
  exact ⟨rfl, hkind⟩

/-- Once the kind of a tree is known, every run keeps it, and values are of that kind. -/
theorem kind_of_execute {k : Kind} (hk : n.kind? = some k) :
    (n.execute env).node.kind? = some k ∧ ∀ v, (n.execute env).result = .ok v → v.kind = k := by
  cases h : (n.execute env).result with
  | error e =>
    have hkind : (n.execute env).node.kind? = n.kind? :=
      congrArg Memory.kind? (memory_of_execute_error h)
    exact ⟨hkind.trans hk, by simp⟩
  | ok v =>
    rcases kind?_of_execute_ok (execute_eq_iff.2 ⟨h, rfl, rfl⟩) with hnone | hsome
    · simp [hk] at hnone
    · obtain rfl := Option.some.inj (hk.symm.trans hsome)
      exact ⟨(last_and_kind_of_execute h).2, fun w hw => by rw [Except.ok.inj hw]⟩

/-! ## Before the first run -/

/-- The root has no last value, unless it is a literal. -/
def Unset (n : Node) : Prop := n.form = .literal ∨ n.last = .null

theorem Built.unset (hb : Built ctx es n) : n.Unset := by
  cases hb with
  | literal v => exact .inl rfl
  | _ => exact .inr rfl

theorem unset_fold (h : n.Unset) : (fold n env).Meets (fun _ => True) Unset := by
  unfold fold
  split
  · refine ⟨trivial, fun m hm => ?_⟩
    obtain ⟨v, -, rfl⟩ := Except.map_eq_ok.1 hm
    exact .inl rfl
  · exact .ok trivial h

theorem unset_dropIdentity {op : Connective} {onRight : Bool} {kind : Option Kind}
    (h : n.Unset) : (dropIdentity op onRight (.ofKind kind) n).Unset := by
  unfold dropIdentity
  split
  · exact h
  · cases onRight with
    | false => exact .inr rfl
    | true => exact .inr rfl

/-- No tree that optimizing has run becomes the root. -/
theorem Built.unset_optimize (hb : Built ctx es n) :
    (n.optimize env).Meets (fun _ => True) Unset := by
  have any : ∀ {r : Reduction}, r.Meets (fun _ => True) fun _ => True :=
    ⟨trivial, fun _ _ => trivial⟩
  induction hb generalizing env with
  | literal v => exact .ok trivial (.inl rfl)
  | read he hrole hbound => exact unset_fold (.inr rfl)
  | @logic op l r hl hr ihl ihr =>
    rw [optimize]
    split_ifs
    · exact .ok trivial (.inl rfl)
    · exact .ok trivial (.inl rfl)
    · exact unset_fold (.inr rfl)
    · exact ihr.andThen fun m env _ hm => .ok trivial (unset_dropIdentity hm)
    · exact ihl.andThen fun m env _ hm => .ok trivial (unset_dropIdentity hm)
    all_goals
      exact any.andThen fun l' env₁ _ _ => any.andThen fun r' env₂ _ _ =>
        .ok trivial (.inr rfl)
  | not ha ih => exact any.andThen fun a' env₁ _ _ => unset_fold (.inr rfl)
  | sign ha ih =>
    refine ih.andThen fun a' env₁ _ ha' => ?_
    split_ifs
    · exact unset_fold (.inr rfl)
    · exact .ok trivial ha'
    · exact .ok trivial (.inr rfl)
  | arith hl hr ihl ihr =>
    exact any.andThen fun l' env₁ _ _ => any.andThen fun r' env₂ _ _ => unset_fold (.inr rfl)
  | compare hl hr ihl ihr =>
    exact any.andThen fun l' env₁ _ _ => any.andThen fun r' env₂ _ _ => unset_fold (.inr rfl)
  | assign he hrole hvar hop hv ih =>
    exact any.andThen fun v' env₁ _ _ => .ok trivial (.inr rfl)
  | call he hrole hlen hf hargs ih =>
    rw [optimize]
    split
    · exact ⟨trivial, by simp⟩
    · exact unset_fold (.inr rfl)
  | sequence ha hb iha ihb =>
    refine any.andThen fun a' env₁ _ _ => ihb.andThen fun b' env₂ _ hb' => .ok trivial ?_
    split_ifs
    · exact hb'
    · exact .inr rfl

theorem memory_keepBuffers (n : Node) : n.keepBuffers.memory = n.memory := by
  cases n <;> rfl

end Node

/-! ## Expressions -/

theorem Compiler.Yields.unset {c : Compiler} {source : String} {scope : Scope} {e : Expression}
    (h : c.Yields source scope e) : e.root.Unset := by
  refine (h.root_of fun root hroot => ?_).2
  obtain ⟨es, -, hb, -⟩ := build_built hroot
  exact ⟨hb.unset, fun _ => hb.unset_optimize.node⟩

theorem Expression.memory_of_configureNoAlloc {e kept : Expression}
    (h : e.configureNoAlloc = .ok kept) : kept.root.memory = e.root.memory := by
  unfold configureNoAlloc at h
  split_ifs at h
  · rw [← Except.ok.inj h]
  · rw [← Except.ok.inj h]
    exact Node.memory_keepBuffers _

namespace Expression

variable {e : Expression} {history : History} {scopes : List Scope} {k : Kind}

/-- Runs that all fail leave what a host can ask for as it was. -/
theorem memory_after (h : ∀ r ∈ e.runs history scopes, ∃ fault, r.result = .error fault) :
    (e.after history scopes).1.root.memory = e.root.memory := by
  induction scopes generalizing e history with
  | nil => rfl
  | cons s ss ih =>
    rw [runs, List.forall_mem_cons] at h
    obtain ⟨⟨fault, hfault⟩, h⟩ := h
    rw [after, ih h]
    exact Node.memory_of_execute_error hfault

theorem kind?_after (hk : e.kind? = some k) : (e.after history scopes).1.kind? = some k := by
  induction scopes generalizing e history with
  | nil => exact hk
  | cons s ss ih => exact ih (Node.kind_of_execute hk).1

/-- A kind that is known after some runs is the kind of all values that they came to. -/
theorem kind_of_mem_runs (hk : (e.after history scopes).1.kind? = some k) :
    ∀ r ∈ e.runs history scopes, ∀ v, r.result = .ok v → v.kind = k := by
  induction scopes generalizing e history with
  | nil => simp [runs]
  | cons s ss ih =>
    rw [runs, List.forall_mem_cons]
    refine ⟨fun v hv => ?_, ih hk⟩
    have hfixed : (e.execute ⟨s, history⟩).expression.kind? = some v.kind :=
      (Node.last_and_kind_of_execute hv).2
    exact Option.some.inj ((kind?_after hfixed).symm.trans hk)

end Expression

namespace Compiler

/-- The last value and the kind follow the runs that come to values. Let an expression be
compiled, optimized or not, keep its buffers or not, and be run in some scopes. If none of these
runs came to a value, then it has no last value, unless it is a literal. A further run that
comes to a value leaves that value and its kind, and one that fails leaves both as they were.
A kind that is known stays, whatever runs follow, and all values, the earlier ones too, are of
that kind. -/
theorem last_and_kind_follow_runs {c : Compiler} {source : String} {scope : Scope}
    {compiled e : Expression} (hcompiled : c.Yields source scope compiled)
    (he : e = compiled ∨ compiled.configureNoAlloc = .ok e) (history : History)
    (past : List Scope) :
    let now := (e.after history past).1
    let run := fun s => now.execute ⟨s, (e.after history past).2⟩
    ((∀ r ∈ e.runs history past, ∃ fault, r.result = .error fault) →
        e.form = .literal ∨ now.last = .null) ∧
      (∀ s v, (run s).result = .ok v →
        (run s).expression.last = v ∧ (run s).expression.kind? = some v.kind) ∧
      (∀ s fault, (run s).result = .error fault →
        (run s).expression.last = now.last ∧ (run s).expression.kind? = now.kind?) ∧
      ∀ k, now.kind? = some k → ∀ future,
        (e.after history (past ++ future)).1.kind? = some k ∧
          ∀ r ∈ e.runs history (past ++ future), ∀ v, r.result = .ok v → v.kind = k := by
  have hunset : e.root.Unset := by
    rcases he with rfl | he
    · exact hcompiled.unset
    · have hmemory := Expression.memory_of_configureNoAlloc he
      refine hcompiled.unset.imp ?_ ?_
      · exact fun h => (congrArg Memory.form hmemory).trans h
      · exact fun h => (congrArg Memory.last hmemory).trans h
  refine ⟨fun h => hunset.imp_right fun hnull => ?_, fun s v hv => ?_, fun s fault h => ?_,
    fun k hk future => ?_⟩
  · exact (congrArg Memory.last (Expression.memory_after h)).trans hnull
  · exact Node.last_and_kind_of_execute hv
  · have hmemory := Node.memory_of_execute_error h
    exact ⟨congrArg Memory.last hmemory, congrArg Memory.kind? hmemory⟩
  · have hstays : (e.after history (past ++ future)).1.kind? = some k := by
      rw [Expression.after_append]
      exact Expression.kind?_after hk
    exact ⟨hstays, Expression.kind_of_mem_runs hstays⟩

/-- A sum whose second variable is missing, the sum of two integers, and two numbers that are
refused : then the sum of the integers is still there. -/
theorem last_and_kind_follow_runs_add :
    ∃ e kept, (compile standard "x + y" .empty []).result = .ok e ∧
      e.configureNoAlloc = .ok kept ∧
      (kept.runs [] [.store (.ofList [("x", .integer 1)]),
          .store (.ofList [("x", .integer 1), ("y", .integer 2)]),
          .store (.ofList [("x", .long 1), ("y", .long 2)])]).map Run.result =
        [.error (.runtime (.unbound "y")), .ok (.integer 3),
          .error (.kind (.changed .integer .long))] ∧
      (kept.after [] [.store (.ofList [("x", .integer 1)])]).1.last = .null ∧
      (kept.after [] [.store (.ofList [("x", .integer 1)]),
          .store (.ofList [("x", .integer 1), ("y", .integer 2)]),
          .store (.ofList [("x", .long 1), ("y", .long 2)])]).1.last = .integer 3 ∧
      (kept.after [] [.store (.ofList [("x", .integer 1)]),
          .store (.ofList [("x", .integer 1), ("y", .integer 2)]),
          .store (.ofList [("x", .long 1), ("y", .long 2)])]).1.kind? = some .integer := by
  have he : (compile standard "x + y" .empty []).result.map (fun e =>
      e.configureNoAlloc.map fun kept => (kept.form,
        (kept.runs [] [.store (.ofList [("x", .integer 1)]),
          .store (.ofList [("x", .integer 1), ("y", .integer 2)]),
          .store (.ofList [("x", .long 1), ("y", .long 2)])]).map Run.result)) =
      .ok (.ok (.arith, [.error (.runtime (.unbound "y")), .ok (.integer 3),
        .error (.kind (.changed .integer .long))])) := by cbv
  obtain ⟨e, he, hruns⟩ := Except.map_eq_ok.1 he
  obtain ⟨kept, hkept, hruns⟩ := Except.map_eq_ok.1 hruns
  obtain ⟨hform, hresults⟩ := Prod.mk.inj hruns
  obtain ⟨hfirst, hresults'⟩ := List.cons.inj hresults
  obtain ⟨hsecond, hresults'⟩ := List.cons.inj hresults'
  obtain ⟨hthird, -⟩ := List.cons.inj hresults'
  obtain ⟨hunset, hok, -⟩ := last_and_kind_follow_runs (.inr ⟨[], he⟩) (.inr hkept) []
    [.store (.ofList [("x", .integer 1)])]
  obtain ⟨-, -, herror, -⟩ := last_and_kind_follow_runs (.inr ⟨[], he⟩) (.inr hkept) []
    [.store (.ofList [("x", .integer 1)]),
      .store (.ofList [("x", .integer 1), ("y", .integer 2)])]
  obtain ⟨hlast, hkind⟩ := hok _ _ hsecond
  obtain ⟨hlast', hkind'⟩ := herror _ _ hthird
  refine ⟨e, kept, he, hkept, hresults, ?_, hlast'.trans hlast, hkind'.trans hkind⟩
  have hnull := hunset (List.forall_mem_singleton.2 ⟨_, hfirst⟩)
  rw [hform] at hnull
  simpa using hnull

end Compiler

end Formula

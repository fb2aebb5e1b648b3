import Formula.Node.Optimize
import Formula.Proofs.Building
import Formula.Proofs.Kinds
import Formula.Proofs.Sessions
import Formula.Proofs.Store

/-!
# Strict settings

In strict settings the kind of every variable that is bound is fixed while compiling, and
with it the kind of every node of a tree without calls. Such a tree is typed (`Node.Typed`) :
the kinds of its nodes agree with each other and with the slots. Typed trees come from
building and from optimizing, and a run of one, in a scope that binds the variables to values
of the kinds that they had while compiling, is sound (`Node.Sound`) : it comes to a value of
the kind of the tree or to a runtime fault, it leaves a typed tree, and the variables keep
their kinds.
-/

namespace Formula

/-! ## Safe results -/

/-- A value of which `q` holds, or a runtime fault. -/
def Safe {α : Type} (q : α → Prop) : Except Fault α → Prop
  | .ok v => q v
  | .error e => e.isRuntime = true

namespace Safe

variable {α β : Type} {q : α → Prop} {q' : β → Prop}

theorem of_spec {r : Except Fault α}
    (h : (∃ v, r = .ok v ∧ q v) ∨ ∃ c, r = .error (.runtime c)) : Safe q r := by
  rcases h with ⟨v, rfl, hv⟩ | ⟨c, rfl⟩
  · exact hv
  · rfl

theorem runtime_of_error {e : Fault} (h : Safe q (.error e)) : ∃ c, e = .runtime c := by
  cases e with
  | runtime c => exact ⟨c, rfl⟩
  | _ => simp [Safe, Fault.isRuntime] at h

theorem bind {r : Except Fault α} {f : α → Except Fault β} (hr : Safe q r)
    (hf : ∀ v, q v → Safe q' (f v)) : Safe q' (r.bind f) := by
  cases r with
  | error e => exact hr
  | ok v => exact hf v hr

theorem map {r : Except Fault α} {f : α → β} (hr : Safe q r) (hf : ∀ v, q v → q' (f v)) :
    Safe q' (r.map f) := by
  cases r with
  | error e => exact hr
  | ok v => exact hf v hr

theorem asBool {what : String} {v : Value} (h : v.kind = .boolean) :
    Safe (fun _ => True) (v.asBool what) := by
  obtain ⟨b, hb⟩ := Value.asBool_of_kind h what
  rw [hb]
  trivial

theorem arith (op : ArithOp) {v w : Value} {k : Kind}
    (h : Kind.promote v.kind w.kind = .ok k) :
    Safe (fun u : Value => u.kind = k) (v.arith op w) :=
  of_spec (Value.arith_spec op h)

theorem applySign (s : Sign) {v : Value} (h : v.kind.isNumeric = true) :
    Safe (fun u : Value => u.kind = v.kind) (Node.applySign s v) :=
  of_spec (Node.applySign_spec s h)

theorem compare {op : CompareOp} {v w : Value}
    (h : Kind.checkComparison op v.kind w.kind = .ok ()) :
    Safe (fun _ => True) (v.compare op w) := by
  obtain ⟨c, hc⟩ := Value.compare_spec h
  rw [hc]
  trivial

end Safe

/-! ## Typed trees -/

/-- Whether a value of kind `j` can be assigned to a variable of kind `k`. -/
def AssignOp.Fits (op : AssignOp) (k j : Kind) : Prop :=
  match op.arith? with
  | none => j = k
  | some _ => Kind.promote k j = .ok k

/-- An assignment that is allowed while building fits the kind of its variable. -/
theorem AssignOp.fits_of_check {op : AssignOp} {name : String} {k j : Kind}
    (h : Node.checkAssign op name (some k) (some j) = .ok ()) :
    op.Fits k j ∧ op.static? (some k) (some j) = some k := by
  unfold Node.checkAssign at h
  unfold Fits static?
  cases hop : op.arith? with
  | none =>
    rw [hop] at h
    obtain ⟨produced, hp, h⟩ := Except.bind_eq_ok.1 h
    obtain rfl := Except.ok.inj hp
    have hjk : k = j := by simpa using (Kind.checkTarget_eq_ok _).1 h
    exact ⟨hjk.symm, by rw [hjk]⟩
  | some a =>
    rw [hop] at h
    obtain ⟨produced, hp, h⟩ := Except.bind_eq_ok.1 h
    obtain ⟨u, hu, rfl⟩ := Except.map_eq_ok.1 hp
    obtain ⟨m, hm, -⟩ := Except.map_eq_ok.1 hu
    have hstatic : Kind.static? (some k) (some j) = some m := by
      rw [Kind.static?, hm]
      rfl
    rw [hstatic] at h ⊢
    have hkm : k = m := by simpa using (Kind.checkTarget_eq_ok _).1 h
    exact ⟨by rw [hkm] at hm ⊢; exact hm, by rw [hkm]⟩

theorem Kind.eq_boolean_of_check {symbol : String} {known : Option Kind} {k : Kind}
    (hknown : known = some k) (h : checkBoolean symbol known = .ok ()) : k = .boolean := by
  subst hknown
  by_contra hk
  simp [checkBoolean, hk] at h

namespace Node

/-- The kind of a tree. All of its slots are fixed to kinds that agree with each other, and
its variables are among those in `p` and bound in `S`. -/
inductive Typed (p : String → Prop) (S : Scope) : Node → Kind → Prop
  | literal (v : Value) : Typed p S (literal v) v.kind
  | read {name : String} {c : Bool} {s : Slot} {v : Value} (hp : p name)
      (hv : S.get? name = some v) (hs : s.kind = some v.kind) :
      Typed p S (read name c s) v.kind
  | logic {op : Connective} {l r : Node} {s : Slot} (hl : Typed p S l .boolean)
      (hr : Typed p S r .boolean) (hs : s.kind = some .boolean) :
      Typed p S (logic op l r s) .boolean
  | not {a : Node} {s : Slot} (ha : Typed p S a .boolean) (hs : s.kind = some .boolean) :
      Typed p S (not a s) .boolean
  | sign {g : Sign} {a : Node} {s : Slot} {k : Kind} (ha : Typed p S a k)
      (hk : k.isNumeric = true) (hs : s.kind = some k) : Typed p S (sign g a s) k
  | arith {op : ArithOp} {l r : Node} {s : Slot} {j j' k : Kind} (hl : Typed p S l j)
      (hr : Typed p S r j') (hk : Kind.promote j j' = .ok k) (hs : s.kind = some k) :
      Typed p S (arith op l r s) k
  | compare {op : CompareOp} {l r : Node} {s : Slot} {j j' : Kind} (hl : Typed p S l j)
      (hr : Typed p S r j') (hk : Kind.checkComparison op j j' = .ok ())
      (hs : s.kind = some .boolean) : Typed p S (compare op l r s) .boolean
  | assign {op : AssignOp} {name : String} {v : Node} {s : Slot} {w : Value} {j : Kind}
      (hp : p name) (hw : S.get? name = some w) (hv : Typed p S v j) (hk : op.Fits w.kind j)
      (hs : s.kind = some w.kind) : Typed p S (assign op name (some w.kind) v s) w.kind
  | sequence {a b : Node} {s : Slot} {j k : Kind} (ha : Typed p S a j) (hb : Typed p S b k)
      (hs : s.kind = some k) : Typed p S (sequence a b s) k

variable {p : String → Prop} {S : Scope} {n : Node} {k : Kind} {env : Env}

/-- The kind of a typed tree is known. -/
theorem Typed.kind? (h : Typed p S n k) : n.kind? = some k := by
  cases h with
  | literal v => rfl
  | read hp hv hs => exact hs
  | logic hl hr hs => rfl
  | not ha hs => rfl
  | sign ha hk hs => exact hs
  | arith hl hr hk hs => exact hs
  | compare hl hr hk hs => rfl
  | assign hp hw hv hk hs => exact hs
  | sequence ha hb hs => exact hs

/-! ## Runs of typed trees -/

/-- A run that has come to a value of kind `k` or to a runtime fault, and has left a typed
tree and variables of the kinds that they had. -/
structure Sound (p : String → Prop) (S : Scope) (k : Kind) (o : Outcome) : Prop where
  safe : Safe (fun v : Value => v.kind = k) o.result
  typed : Typed p S o.node k
  kinds : S.SameKinds p o.env.scope

/-- A variable that is bound has a value of its kind. -/
theorem safe_readVariable {scope : Scope} {name : String} {v : Value}
    (h : S.SameKinds p scope) (hp : p name) (hv : S.get? name = some v) :
    Safe (fun u : Value => u.kind = v.kind) (readVariable scope name) := by
  obtain ⟨w, hw, hk⟩ := h name v hp hv
  rw [readVariable, hw]
  exact hk

/-- The value to assign is of the kind of the variable. -/
theorem safe_assigned {op : AssignOp} {scope : Scope} {name : String} {v w : Value}
    (h : S.SameKinds p scope) (hp : p name) (hw : S.get? name = some w)
    (hk : op.Fits w.kind v.kind) :
    Safe (fun u : Value => u.kind = w.kind) (assigned op scope name v) := by
  unfold AssignOp.Fits at hk
  unfold assigned
  cases hop : op.arith? with
  | none =>
    rw [hop] at hk
    exact hk
  | some a =>
    rw [hop] at hk
    exact (safe_readVariable h hp hw).bind fun u hu => Safe.arith a (by rw [hu]; exact hk)

/-- The end of a run is sound if the value is of the kind of the slot. -/
theorem sound_commit {node : Slot → Node} {s : Slot} {r : Except Fault Value}
    (hnode : ∀ t : Slot, t.kind = some k → Typed p S (node t) k) (hs : s.kind = some k)
    (hr : Safe (fun v : Value => v.kind = k) r) (henv : S.SameKinds p env.scope) :
    Sound p S k (commit node s env r) := by
  cases r with
  | error e => exact ⟨hr, hnode s hs, henv⟩
  | ok v =>
    have hstore : s.store v = .ok ⟨v, some v.kind⟩ :=
      Slot.store_eq_ok.2 ⟨.inr (by rw [hs, hr]), rfl⟩
    rw [commit, hstore]
    exact ⟨hr, hnode _ (congrArg some hr), henv⟩

/-- The tree is typed, and its runs are sound. -/
structure RunsSoundly (p : String → Prop) (S : Scope) (n : Node) (k : Kind) : Prop where
  typed : Typed p S n k
  run : ∀ {env}, S.SameKinds p env.scope → Sound p S k (n.execute env)

namespace RunsSoundly

variable {l r a b : Node} {s : Slot} {j j' : Kind}

theorem literal (v : Value) : RunsSoundly p S (literal v) v.kind where
  typed := .literal v
  run henv := by
    rw [execute]
    exact ⟨rfl, .literal v, henv⟩

theorem read {name : String} {c : Bool} {v : Value} (hp : p name) (hv : S.get? name = some v)
    (hs : s.kind = some v.kind) : RunsSoundly p S (read name c s) v.kind where
  typed := .read hp hv hs
  run henv := by
    rw [execute]
    exact sound_commit (fun _ => .read hp hv) hs (safe_readVariable henv hp hv) henv

theorem logic {op : Connective} (hl : RunsSoundly p S l .boolean) (hr : RunsSoundly p S r .boolean)
    (hs : s.kind = some .boolean) : RunsSoundly p S (logic op l r s) .boolean where
  typed := .logic hl.typed hr.typed hs
  run {env} henv := by
    have hleft := hl.run henv
    have hbool : Safe (fun _ => True) ((l.execute env).result.bind (Value.asBool op.symbol)) :=
      hleft.safe.bind fun v hv => Safe.asBool hv
    rw [execute]
    cases hres : (l.execute env).result.bind (Value.asBool op.symbol) with
    | error e =>
      rw [hres] at hbool
      exact ⟨hbool, .logic hleft.typed hr.typed hs, hleft.kinds⟩
    | ok b =>
      simp only
      split
      · exact sound_commit (fun _ => .logic hleft.typed hr.typed) hs rfl hleft.kinds
      · have hright := hr.run hleft.kinds
        refine sound_commit (fun _ => .logic hleft.typed hright.typed) hs ?_ hright.kinds
        exact (hright.safe.bind fun v hv => Safe.asBool hv).map fun _ _ => rfl

theorem not (ha : RunsSoundly p S a .boolean) (hs : s.kind = some .boolean) :
    RunsSoundly p S (not a s) .boolean where
  typed := .not ha.typed hs
  run henv := by
    have ho := ha.run henv
    rw [execute]
    refine sound_commit (fun _ => .not ho.typed) hs ?_ ho.kinds
    exact (ho.safe.bind fun v hv => Safe.asBool hv).map fun _ _ => rfl

theorem sign {g : Sign} (ha : RunsSoundly p S a k) (hk : k.isNumeric = true)
    (hs : s.kind = some k) : RunsSoundly p S (sign g a s) k where
  typed := .sign ha.typed hk hs
  run henv := by
    have ho := ha.run henv
    rw [execute]
    refine sound_commit (fun _ => .sign ho.typed hk) hs ?_ ho.kinds
    refine ho.safe.bind fun v hv => ?_
    rw [← hv] at hk ⊢
    exact Safe.applySign _ hk

theorem arith {op : ArithOp} (hl : RunsSoundly p S l j) (hr : RunsSoundly p S r j')
    (hk : Kind.promote j j' = .ok k) (hs : s.kind = some k) :
    RunsSoundly p S (arith op l r s) k where
  typed := .arith hl.typed hr.typed hk hs
  run {env} henv := by
    have hleft := hl.run henv
    have hsafe := hleft.safe
    rw [execute]
    cases hres : (l.execute env).result with
    | error e =>
      rw [hres] at hsafe
      exact ⟨hsafe, .arith hleft.typed hr.typed hk hs, hleft.kinds⟩
    | ok v =>
      rw [hres] at hsafe
      have hright := hr.run hleft.kinds
      refine sound_commit (fun _ => .arith hleft.typed hright.typed hk) hs ?_ hright.kinds
      refine hright.safe.bind fun w hw => Safe.arith op ?_
      rw [hsafe, hw]
      exact hk

theorem compare {op : CompareOp} (hl : RunsSoundly p S l j) (hr : RunsSoundly p S r j')
    (hk : Kind.checkComparison op j j' = .ok ()) (hs : s.kind = some .boolean) :
    RunsSoundly p S (compare op l r s) .boolean where
  typed := .compare hl.typed hr.typed hk hs
  run {env} henv := by
    have hleft := hl.run henv
    have hsafe := hleft.safe
    rw [execute]
    cases hres : (l.execute env).result with
    | error e =>
      rw [hres] at hsafe
      exact ⟨hsafe, .compare hleft.typed hr.typed hk hs, hleft.kinds⟩
    | ok v =>
      rw [hres] at hsafe
      have hright := hr.run hleft.kinds
      refine sound_commit (fun _ => .compare hleft.typed hright.typed hk) hs ?_ hright.kinds
      refine (hright.safe.bind fun w hw => Safe.compare ?_).map fun _ _ => rfl
      rw [hsafe, hw]
      exact hk

/-- The value that is bound is of the kind that the variable has, so neither the slot nor the
kind of the variable refuses it. -/
theorem assign {op : AssignOp} {name : String} {w : Value} (hp : p name)
    (hw : S.get? name = some w) (ha : RunsSoundly p S a j) (hk : op.Fits w.kind j)
    (hs : s.kind = some w.kind) : RunsSoundly p S (assign op name (some w.kind) a s) w.kind where
  typed := .assign hp hw ha.typed hk hs
  run {env} henv := by
    have ho := ha.run henv
    have hsafe : Safe (fun u : Value => u.kind = w.kind)
        ((a.execute env).result.bind (assigned op (a.execute env).env.scope name)) :=
      ho.safe.bind fun u hu => safe_assigned ho.kinds hp hw (by rw [hu]; exact hk)
    rw [execute]
    cases hres : (a.execute env).result.bind (assigned op (a.execute env).env.scope name) with
    | error e =>
      rw [hres] at hsafe
      exact ⟨hsafe, .assign hp hw ho.typed hk hs, ho.kinds⟩
    | ok u =>
      rw [hres] at hsafe
      have hbind : bindVariable (a.execute env).env.scope name (some w.kind) s u =
          (a.execute env).env.scope.set name u :=
        bindVariable_of_admits (.inr (by rw [hs, hsafe])) (.inr (by rw [hsafe]))
      simp only [hbind]
      cases hset : (a.execute env).env.scope.set name u with
      | error e =>
        obtain ⟨c, rfl⟩ := Scope.runtime_of_set hset
        exact ⟨rfl, .assign hp hw ho.typed hk hs, ho.kinds⟩
      | ok scope =>
        refine sound_commit (fun _ => .assign hp hw ho.typed hk) hs hsafe ?_
        refine ho.kinds.set hset fun _ w' hw' => ?_
        rw [hw] at hw'
        rw [← Option.some.inj hw']
        exact hsafe

theorem sequence (ha : RunsSoundly p S a j) (hb : RunsSoundly p S b k) (hs : s.kind = some k) :
    RunsSoundly p S (sequence a b s) k where
  typed := .sequence ha.typed hb.typed hs
  run {env} henv := by
    have hfirst := ha.run henv
    have hsafe := hfirst.safe
    rw [execute]
    cases hres : (a.execute env).result with
    | error e =>
      rw [hres] at hsafe
      exact ⟨hsafe, .sequence hfirst.typed hb.typed hs, hfirst.kinds⟩
    | ok v =>
      have hsecond := hb.run hfirst.kinds
      exact sound_commit (fun _ => .sequence hfirst.typed hsecond.typed) hs hsecond.safe
        hsecond.kinds

end RunsSoundly

/-- Typed trees run soundly. -/
theorem Typed.runsSoundly (h : Typed p S n k) : RunsSoundly p S n k := by
  induction h with
  | literal v => exact .literal v
  | read hp hv hs => exact .read hp hv hs
  | logic hl hr hs ihl ihr => exact .logic ihl ihr hs
  | not ha hs ih => exact .not ih hs
  | sign ha hk hs ih => exact .sign ih hk hs
  | arith hl hr hk hs ihl ihr => exact .arith ihl ihr hk hs
  | compare hl hr hk hs ihl ihr => exact .compare ihl ihr hk hs
  | assign hp hw hv hk hs ih => exact .assign hp hw ih hk hs
  | sequence ha hb hs iha ihb => exact .sequence iha ihb hs

/-- A run of a typed tree is sound. -/
theorem Typed.sound (h : Typed p S n k) (henv : S.SameKinds p env.scope) :
    Sound p S k (n.execute env) :=
  h.runsSoundly.run henv

/-! ## Reductions of typed trees -/

/-- A reduction that has come to a typed tree or to a fault, and has left variables of the
kinds that they had. -/
def TypedReduction (p : String → Prop) (S : Scope) (k : Kind) (r : Reduction) : Prop :=
  r.Meets (fun env => S.SameKinds p env.scope) fun n => Typed p S n k

theorem TypedReduction.of_typed (h : Typed p S n k) (henv : S.SameKinds p env.scope) :
    TypedReduction p S k ⟨.ok n, env⟩ :=
  .ok henv h

theorem TypedReduction.andThen {r : Reduction} {f : Node → Env → Reduction} {j : Kind}
    (h : TypedReduction p S j r)
    (hf : ∀ m env, Typed p S m j → S.SameKinds p env.scope →
      TypedReduction p S k (f m env)) : TypedReduction p S k (r.andThen f) :=
  Reduction.Meets.andThen h fun m env henv hm => hf m env hm henv

/-- Folding keeps a typed tree typed. -/
theorem Typed.fold (h : Typed p S n k) (henv : S.SameKinds p env.scope) :
    TypedReduction p S k (n.fold env) := by
  unfold Node.fold
  split
  · have hsound := h.sound henv
    refine ⟨hsound.kinds, fun m hm => ?_⟩
    obtain ⟨v, hv, rfl⟩ := Except.map_eq_ok.1 hm
    have hsafe := hsound.safe
    rw [hv] at hsafe
    obtain rfl : v.kind = k := hsafe
    exact .literal v
  · exact .of_typed h henv

theorem Typed.probe (h : Typed p S n k) (henv : S.SameKinds p env.scope) :
    Typed p S (n.probe env).node k ∧ S.SameKinds p (n.probe env).env.scope := by
  have hsound := h.sound henv
  unfold Node.probe
  split
  · simp only
    split <;> exact ⟨hsound.typed, hsound.kinds⟩
  · exact ⟨h, henv⟩

/-- Optimizing a typed tree gives one of the same kind. -/
theorem Typed.optimize (h : Typed p S n k) (henv : S.SameKinds p env.scope) :
    TypedReduction p S k (n.optimize env) := by
  induction h generalizing env with
  | literal v =>
    rw [Node.optimize]
    exact .of_typed (.literal v) henv
  | read hp hv hs =>
    rw [Node.optimize]
    exact (Typed.read hp hv hs).fold henv
  | @logic op l r s hl hr hs ihl ihr =>
    obtain ⟨hp, hpenv⟩ := hl.probe henv
    obtain ⟨hq, hqenv⟩ := hr.probe hpenv
    have hbool : ∀ b, Typed p S (Node.literal (.boolean b)) .boolean := fun b =>
      .literal (.boolean b)
    have hdrop : ∀ onRight m env, Typed p S m .boolean → S.SameKinds p env.scope →
        TypedReduction p S .boolean ⟨.ok (dropIdentity op onRight s m), env⟩ := by
      intro onRight m env hm henv
      unfold dropIdentity
      rw [if_pos hm.kind?]
      exact .of_typed hm henv
    rw [Node.optimize]
    split
    · exact .of_typed (hbool _) hqenv
    split
    · exact .of_typed (hbool _) hqenv
    split
    · exact (Typed.logic hp hq hs).fold hqenv
    split
    · exact (ihr hqenv).andThen (hdrop true)
    split
    · exact (ihl hqenv).andThen (hdrop false)
    refine TypedReduction.andThen (j := .boolean) ?_ fun l' env hl' henv =>
      TypedReduction.andThen (j := .boolean) ?_ fun r' env hr' henv =>
        .of_typed (.logic hl' hr' hs) henv
    · split
      · exact .of_typed hp hqenv
      · exact ihl hqenv
    · split
      · exact .of_typed hq henv
      · exact ihr henv
  | not ha hs ih =>
    rw [Node.optimize]
    exact (ih henv).andThen fun a env ha henv => (Typed.not ha hs).fold henv
  | sign ha hk hs ih =>
    rw [Node.optimize]
    refine (ih henv).andThen fun a env ha henv => ?_
    split_ifs
    · exact (Typed.sign ha hk hs).fold henv
    · exact .of_typed ha henv
    · exact .of_typed (.sign ha hk hs) henv
  | arith hl hr hk hs ihl ihr =>
    rw [Node.optimize]
    exact (ihl henv).andThen fun l env hl henv =>
      (ihr henv).andThen fun r env hr henv => (Typed.arith hl hr hk hs).fold henv
  | compare hl hr hk hs ihl ihr =>
    rw [Node.optimize]
    exact (ihl henv).andThen fun l env hl henv =>
      (ihr henv).andThen fun r env hr henv => (Typed.compare hl hr hk hs).fold henv
  | assign hp hw hv hk hs ih =>
    rw [Node.optimize]
    exact (ih henv).andThen fun v env hv henv => .of_typed (.assign hp hw hv hk hs) henv
  | sequence ha hb hs iha ihb =>
    rw [Node.optimize]
    refine (iha henv).andThen fun a env ha henv => (ihb henv).andThen fun b env hb henv => ?_
    split_ifs
    · exact .of_typed hb henv
    · exact .of_typed (.sequence ha hb hs) henv

/-! ## Built trees -/

/-- A tree without calls that was built in strict settings and found to be valid is typed,
if all its variables are bound. -/
theorem Built.typed {ctx : BuildContext} {es : List Element} (hb : Built ctx es n)
    (hstrict : ctx.settings.strict = true) (hcalls : ∀ e ∈ es, e.role ≠ .function)
    (hbound : ∀ e ∈ es, e.role = .name → (ctx.scope.get? e.lexeme).isSome)
    (hvalid : n.validate = .ok ()) :
    ∃ k, Typed (Element.UseVariable es) ctx.scope n k := by
  have hpinned : ∀ {name : String} {v : Value}, ctx.scope.get? name = some v →
      ctx.pinned name = some v.kind := by
    intro name v hv
    simp [BuildContext.pinned, hstrict, hv]
  induction hb with
  | literal v => exact ⟨v.kind, .literal v⟩
  | @read e he hrole hconst =>
    obtain ⟨v, hv⟩ := Option.isSome_iff_exists.1 (hbound e he hrole)
    exact ⟨v.kind, .read ⟨e, he, hrole, rfl⟩ hv (hpinned hv)⟩
  | @logic op l r _ _ ihl ihr =>
    simp only [validate, Except.bind_eq_ok] at hvalid
    obtain ⟨_, hvl, _, hvr, _, hcl, hcr⟩ := hvalid
    obtain ⟨j, hl⟩ := ihl hvl
    obtain ⟨j', hr⟩ := ihr hvr
    obtain rfl := Kind.eq_boolean_of_check hl.kind? hcl
    obtain rfl := Kind.eq_boolean_of_check hr.kind? hcr
    exact ⟨.boolean, .logic hl hr rfl⟩
  | @not a _ ih =>
    simp only [validate, Except.bind_eq_ok] at hvalid
    obtain ⟨_, hva, hca⟩ := hvalid
    obtain ⟨j, ha⟩ := ih hva
    obtain rfl := Kind.eq_boolean_of_check ha.kind? hca
    exact ⟨.boolean, .not ha rfl⟩
  | @sign g a _ ih =>
    simp only [validate, Except.bind_eq_ok] at hvalid
    obtain ⟨_, hva, hca⟩ := hvalid
    obtain ⟨k, ha⟩ := ih hva
    rw [ha.kind?] at hca ⊢
    have hk : k.isNumeric = true := by
      by_contra hk
      simp [Kind.checkSign, hk] at hca
    exact ⟨k, .sign ha hk (by simp [Slot.ofKind, Option.filter, hk])⟩
  | @arith op l r _ _ ihl ihr =>
    simp only [validate, Except.bind_eq_ok] at hvalid
    obtain ⟨_, hvl, _, hvr, hm⟩ := hvalid
    obtain ⟨j, hl⟩ := ihl hvl
    obtain ⟨j', hr⟩ := ihr hvr
    rw [hl.kind?, hr.kind?] at hm ⊢
    obtain ⟨k, hk, -⟩ := Except.map_eq_ok.1 hm
    exact ⟨k, .arith hl hr hk (by rw [Kind.static?, hk]; rfl)⟩
  | @compare op l r _ _ ihl ihr =>
    simp only [validate, Except.bind_eq_ok] at hvalid
    obtain ⟨_, hvl, _, hvr, hc⟩ := hvalid
    obtain ⟨j, hl⟩ := ihl hvl
    obtain ⟨j', hr⟩ := ihr hvr
    rw [hl.kind?, hr.kind?] at hc
    exact ⟨.boolean, .compare hl hr hc rfl⟩
  | @assign op e v he hrole hvar _ _ ih =>
    simp only [validate, Except.bind_eq_ok] at hvalid
    obtain ⟨_, hvv, hc⟩ := hvalid
    obtain ⟨j, hv⟩ := ih hvv
    obtain ⟨w, hw⟩ := Option.isSome_iff_exists.1 (hbound e he hrole)
    rw [hpinned hw, hv.kind?] at hc ⊢
    obtain ⟨hfits, hstatic⟩ := AssignOp.fits_of_check hc
    exact ⟨w.kind, .assign ⟨e, he, hrole, rfl⟩ hw hv hfits hstatic⟩
  | @call e f args he hrole _ hf hargs ih => exact absurd hrole (hcalls e he)
  | @sequence a b _ _ iha ihb =>
    simp only [validate, Except.bind_eq_ok] at hvalid
    obtain ⟨_, hva, hvb⟩ := hvalid
    obtain ⟨j, ha⟩ := iha hva
    obtain ⟨k, hb⟩ := ihb hvb
    exact ⟨k, .sequence ha hb hb.kind?⟩

end Node

/-! ## Expressions -/

namespace Compiler

/-- Strict settings are sound. A formula without calls, all of whose variables are bound
while compiling, never fails with a kind fault once it is compiled, optimized or not. In
scopes that bind its variables to values of the kinds that they had while compiling, every
fault is a runtime fault, and every run leaves the variables with these kinds. -/
theorem strict_sound {c : Compiler} {source : String} {scope : Scope} {es : List Element}
    {e : Expression} {before history : History} {scopes : List Scope}
    (hstrict : c.settings.strict = true) (hes : Element.postfixOfText source = .ok es)
    (hcalls : ∀ x ∈ es, x.role ≠ .function)
    (hbound : ∀ x ∈ es, x.role = .name → (scope.get? x.lexeme).isSome)
    (he : c.compilePlain source scope = .ok e ∨
      (c.compile source scope before).result = .ok e)
    (hscopes : ∀ s ∈ scopes, scope.SameKinds (Element.UseVariable es) s) :
    ∀ r ∈ e.runs history scopes,
      (∀ fault, r.result = .error fault → ∃ cause, fault = .runtime cause) ∧
        scope.SameKinds (Element.UseVariable es) r.env.scope := by
  have hbuilt : ∀ {root}, c.build source scope = .ok root →
      ∃ k, Node.Typed (Element.UseVariable es) scope root k := by
    intro root hroot
    obtain ⟨es', hes', hb, hvalid⟩ := build_built hroot
    obtain rfl := Except.ok.inj (hes.symm.trans hes')
    exact hb.typed hstrict hcalls hbound (hvalid hstrict)
  have hroot : ∃ k, Node.Typed (Element.UseVariable es) scope e.root k := by
    rcases he with he | he
    · obtain ⟨root, hroot, rfl⟩ := Except.map_eq_ok.1 he
      exact hbuilt hroot
    · unfold compile at he
      cases hroot : c.build source scope with
      | error fault => simp [hroot] at he
      | ok root =>
        rw [hroot] at he
        obtain ⟨m, hm, rfl⟩ := Except.map_eq_ok.1 he
        obtain ⟨k, hk⟩ := hbuilt hroot
        exact ⟨k, (hk.optimize fun name v _ hv => ⟨v, hv, rfl⟩).node m hm⟩
  obtain ⟨k, hk⟩ := hroot
  refine Expression.forall_runs (I := fun root => Node.Typed _ scope root k)
    (fun e env he henv => ?_) hk hscopes
  have hsound := Node.Typed.sound he henv
  have hsafe : Safe (fun v : Value => v.kind = k) (e.execute env).result := hsound.safe
  refine ⟨hsound.typed, fun fault hfault => ?_, hsound.kinds⟩
  rw [hfault] at hsafe
  exact hsafe.runtime_of_error

/-- A compound assignment to a whole number, run in two stores. The second run overflows. -/
theorem strict_sound_assign :
    ∃ es e, Element.postfixOfText "x += 2 * x; x > 10" = .ok es ∧
      (compile ⟨{ Settings.standard with strict := true }, .empty⟩ "x += 2 * x; x > 10"
        (.store (.ofList [("x", .integer 1)])) []).result = .ok e ∧
      ∀ r ∈ e.runs [] [.store (.ofList [("x", .integer 3)]),
          .store (.ofList [("x", .integer 2147483647)])],
        (∀ fault, r.result = .error fault → ∃ cause, fault = .runtime cause) ∧
          Scope.SameKinds (Element.UseVariable es) (.store (.ofList [("x", .integer 1)]))
            r.env.scope := by
  have hes : (Element.postfixOfText "x += 2 * x; x > 10").map (fun es =>
      es.all fun x => x.role != .function && (x.role != .name || x.lexeme == "x")) =
        .ok true := by cbv
  have he : (compile ⟨{ Settings.standard with strict := true }, .empty⟩ "x += 2 * x; x > 10"
      (.store (.ofList [("x", .integer 1)])) []).result.isOk = true := by cbv
  obtain ⟨es, hes, hall⟩ := Except.map_eq_ok.1 hes
  obtain ⟨e, he⟩ := Except.isOk_iff.1 he
  have hall : ∀ x ∈ es, x.role ≠ .function ∧ (x.role = .name → x.lexeme = "x") := by
    simpa [or_iff_not_imp_left] using hall
  have hkinds : ∀ n : Int32, Scope.SameKinds (Element.UseVariable es)
      (.store (.ofList [("x", .integer 1)])) (.store (.ofList [("x", .integer n)])) := by
    rintro n name v ⟨x, hx, hrole, rfl⟩ hv
    rw [(hall x hx).2 hrole] at hv ⊢
    obtain rfl : v = .integer 1 := (Option.some.inj hv).symm
    exact ⟨.integer n, rfl, rfl⟩
  refine ⟨es, e, hes, he, strict_sound rfl hes (fun x hx => (hall x hx).1)
    (fun x hx hrole => ?_) (.inr he) ?_⟩
  · rw [(hall x hx).2 hrole]
    rfl
  · simpa using ⟨hkinds 3, hkinds 2147483647⟩

end Compiler

end Formula

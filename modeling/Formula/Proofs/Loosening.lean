import Formula.Proofs.LastValue
import Formula.Proofs.Signatures

/-!
# Trees that ask for less

A tree is looser than another one (`Node.Looser`) if it fixes fewer kinds, of its slots and of
the variables that it binds, and keeps some operators that the other one does without : a sign
`+` in front of what the other knows to be a number, and a connective beside an operand that
leaves the result to what the other knows to be a truth value.

Where a run of the one tree comes to a value, so does a run of a looser one. It comes to the
same value and leaves the same surroundings, and the trees that are left are related again
(`Node.Looser.run`).
-/

namespace Formula

/-- A slot of which less is known refuses no more. -/
theorem Slot.Admits.of_atMost {s s' : Slot} {k : Kind} (h : s.Admits k)
    (hs : Kind.AtMost s'.kind s.kind) : s'.Admits k := by
  rcases hs with hs | hs
  · exact .inl hs
  · rw [Slot.Admits, hs]
    exact h

theorem Kind.AtMost.trans {a b c : Option Kind} (h : Kind.AtMost a b) (h' : Kind.AtMost b c) :
    Kind.AtMost a c := by
  rcases h with rfl | rfl
  · exact .of_none
  · exact h'

namespace Node

/-- The second tree fixes fewer kinds, and may keep operators that make no difference where the
first one comes to a value. -/
inductive Looser : Node → Node → Prop
  | literal (v : Value) : Looser (literal v) (literal v)
  | read {name : String} {c : Bool} {s s' : Slot} (hs : Kind.AtMost s'.kind s.kind) :
      Looser (read name c s) (read name c s')
  | logic {op : Connective} {l l' r r' : Node} {s s' : Slot} (hl : Looser l l')
      (hr : Looser r r') (hs : Kind.AtMost s'.kind s.kind) :
      Looser (logic op l r s) (logic op l' r' s')
  | not {a a' : Node} {s s' : Slot} (ha : Looser a a') (hs : Kind.AtMost s'.kind s.kind) :
      Looser (not a s) (not a' s')
  | sign {g : Sign} {a a' : Node} {s s' : Slot} (ha : Looser a a')
      (hs : Kind.AtMost s'.kind s.kind) : Looser (sign g a s) (sign g a' s')
  | arith {op : ArithOp} {l l' r r' : Node} {s s' : Slot} (hl : Looser l l')
      (hr : Looser r r') (hs : Kind.AtMost s'.kind s.kind) :
      Looser (arith op l r s) (arith op l' r' s')
  | compare {op : CompareOp} {l l' r r' : Node} {s s' : Slot} (hl : Looser l l')
      (hr : Looser r r') (hs : Kind.AtMost s'.kind s.kind) :
      Looser (compare op l r s) (compare op l' r' s')
  | assign {op : AssignOp} {name : String} {t t' : Option Kind} {v v' : Node} {s s' : Slot}
      (ht : Kind.AtMost t' t) (hv : Looser v v') (hs : Kind.AtMost s'.kind s.kind) :
      Looser (assign op name t v s) (assign op name t' v' s')
  | call {name : String} {f : Overload} {args args' : List Node} {b : Buffer} {s s' : Slot}
      (hlen : args.length = args'.length)
      (hargs : ∀ a a', (a, a') ∈ args.zip args' → Looser a a')
      (hs : Kind.AtMost s'.kind s.kind) :
      Looser (call name f args b s) (call name f args' b s')
  | sequence {a a' b b' : Node} {s s' : Slot} (ha : Looser a a') (hb : Looser b b')
      (hs : Kind.AtMost s'.kind s.kind) : Looser (sequence a b s) (sequence a' b' s')
  /-- A sign `+` in front of a number. -/
  | plus {n m : Node} {s : Slot} {k : Kind} (h : Looser n m) (hn : n.kind? = some k)
      (hk : k.isNumeric = true) (hs : Kind.AtMost s.kind (some k)) : Looser n (sign .plus m s)
  /-- A left operand that leaves the result to a truth value. -/
  | onRight {op : Connective} {n m : Node} {s : Slot} (h : Looser n m)
      (hn : n.kind? = some .boolean) (hs : Kind.AtMost s.kind (some .boolean)) :
      Looser n (logic op (literal (.boolean op.identity)) m s)
  /-- A right operand that leaves the result to a truth value. -/
  | onLeft {op : Connective} {n m : Node} {s : Slot} (h : Looser n m)
      (hn : n.kind? = some .boolean) (hs : Kind.AtMost s.kind (some .boolean)) :
      Looser n (logic op m (literal (.boolean op.identity)) s)

variable {n m n' : Node} {env env' : Env} {v : Value}

namespace Looser

theorem of_forall₂ {name : String} {f : Overload} {args args' : List Node} {b : Buffer}
    {s s' : Slot} (h : List.Forall₂ Looser args args') (hs : Kind.AtMost s'.kind s.kind) :
    Looser (Node.call name f args b s) (Node.call name f args' b s') :=
  .call (List.forall₂_iff_zip.1 h).1 (fun _ _ => (List.forall₂_iff_zip.1 h).2) hs

/-- Every tree is looser than itself. -/
theorem refl (n : Node) : Looser n n := by
  induction n with
  | literal v => exact .literal v
  | read name c s => exact .read .refl
  | logic op l r s ihl ihr => exact .logic ihl ihr .refl
  | not a s ih => exact .not ih .refl
  | sign g a s ih => exact .sign ih .refl
  | arith op l r s ihl ihr => exact .arith ihl ihr .refl
  | compare op l r s ihl ihr => exact .compare ihl ihr .refl
  | assign op name target a s ih => exact .assign .refl ih .refl
  | call name f args b s ih => exact .of_forall₂ (List.forall₂_same.2 ih) .refl
  | sequence a b s iha ihb => exact .sequence iha ihb .refl

/-- A looser tree knows no more of its kind. -/
theorem atMost (h : Looser n m) : Kind.AtMost m.kind? n.kind? := by
  cases h with
  | literal v => exact .refl
  | logic => exact .refl
  | not => exact .refl
  | compare => exact .refl
  | read hs => exact hs
  | sign _ hs => exact hs
  | arith _ _ hs => exact hs
  | assign _ _ hs => exact hs
  | call _ _ hs => exact hs
  | sequence _ _ hs => exact hs
  | plus _ hn _ hs => exact hn ▸ hs
  | onRight _ hn => exact hn ▸ .refl
  | onLeft _ hn => exact hn ▸ .refl

/-- Whether all arguments are fixed follows from each of them. -/
theorem allPrecomputable_congr {ns ms : List Node}
    (h : List.Forall₂ (fun n m => m.isPrecomputable = n.isPrecomputable) ns ms) :
    allPrecomputable ms = allPrecomputable ns := by
  induction h with
  | nil => rfl
  | cons hn _ ih => rw [allPrecomputable, allPrecomputable, hn, ih]

/-- A looser tree is fixed while compiling if the other one is. -/
theorem isPrecomputable (h : Looser n m) : m.isPrecomputable = n.isPrecomputable := by
  induction h with
  | literal v => rfl
  | read => rfl
  | logic _ _ _ ihl ihr => rw [Node.isPrecomputable, Node.isPrecomputable, ihl, ihr]
  | not _ _ ih => rw [Node.isPrecomputable, Node.isPrecomputable, ih]
  | sign _ _ ih => rw [Node.isPrecomputable, Node.isPrecomputable, ih]
  | arith _ _ _ ihl ihr => rw [Node.isPrecomputable, Node.isPrecomputable, ihl, ihr]
  | compare _ _ _ ihl ihr => rw [Node.isPrecomputable, Node.isPrecomputable, ihl, ihr]
  | assign => rfl
  | @call name f args args' b s s' hlen _ _ ih =>
    have hall : allPrecomputable args' = allPrecomputable args :=
      allPrecomputable_congr (List.forall₂_iff_zip.2 ⟨hlen, fun {a a'} hmem => ih a a' hmem⟩)
    rw [Node.isPrecomputable, Node.isPrecomputable, hall]
  | sequence _ _ _ iha ihb => rw [Node.isPrecomputable, Node.isPrecomputable, iha, ihb]
  | plus _ _ _ _ ih => rw [Node.isPrecomputable, ih]
  | onRight _ _ _ ih => rw [Node.isPrecomputable, Node.isPrecomputable, Bool.true_and, ih]
  | onLeft _ _ _ ih => rw [Node.isPrecomputable, Node.isPrecomputable, Bool.and_true, ih]

end Looser

/-- Where a run of the first tree comes to a value, a run of the second one does in the same
surroundings, and leaves the same and a looser tree. -/
def RunsLoosely (n m : Node) : Prop :=
  ∀ ⦃env n' env' v⦄, n.execute env = ⟨n', env', .ok v⟩ →
    ∃ m', m.execute env = ⟨m', env', .ok v⟩ ∧ Looser n' m'

/-- Arguments run loosely one after the other. -/
theorem runAll_loosely {ns ms ns' : List Node} {vs : List Value}
    (h : List.Forall₂ RunsLoosely ns ms) (hrun : executeAll ns env = ⟨ns', env', vs, none⟩) :
    ∃ ms', executeAll ms env = ⟨ms', env', vs, none⟩ ∧ List.Forall₂ Looser ns' ms' := by
  induction h generalizing env ns' vs with
  | nil =>
    simp only [executeAll, ArgsOutcome.mk.injEq] at hrun
    obtain ⟨rfl, rfl, rfl, -⟩ := hrun
    exact ⟨[], by rw [executeAll], .nil⟩
  | cons hn _ ih =>
    obtain ⟨n', env₁, v, rest, ws, hfirst, hrest, rfl, rfl⟩ := executeAll_cons_ok.1 hrun
    obtain ⟨m', hm, hloose⟩ := hn hfirst
    obtain ⟨ms', hms, hlooses⟩ := ih hrest
    exact ⟨m' :: ms', executeAll_cons_ok.2 ⟨m', env₁, v, ms', ws, hm, hms, rfl, rfl⟩,
      .cons hloose hlooses⟩

/-- Binding asks no more where fewer kinds are fixed. -/
theorem bindVariable_of_atMost {scope scope' : Scope} {name : String} {t t' : Option Kind}
    {s s' : Slot} (h : bindVariable scope name t s v = .ok scope') (ht : Kind.AtMost t' t)
    (hs : Kind.AtMost s'.kind s.kind) : bindVariable scope name t' s' v = .ok scope' := by
  obtain ⟨hslot, htarget, hset⟩ := bindVariable_eq_ok.1 h
  refine bindVariable_eq_ok.2 ⟨hslot.of_atMost hs, ?_, hset⟩
  rcases ht with rfl | rfl
  · exact .inl rfl
  · exact htarget

/-- A run keeps a kind that is known, and comes to a value of it. -/
theorem kind_of_run {k : Kind} (hk : n.kind? = some k)
    (hrun : n.execute env = ⟨n', env', .ok v⟩) : n'.kind? = some k ∧ v.kind = k := by
  have h : (n.execute env).node.kind? = some k ∧
      ∀ v, (n.execute env).result = .ok v → v.kind = k := kind_of_execute hk
  rw [hrun] at h
  exact ⟨h.1, h.2 v rfl⟩

namespace RunsLoosely

variable {l l' r r' a a' b b' : Node} {args args' : List Node} {s s' : Slot} {k : Kind}

theorem read {name : String} {c : Bool} (hs : Kind.AtMost s'.kind s.kind) :
    RunsLoosely (read name c s) (.read name c s') := by
  intro env n' env' w hrun
  obtain ⟨hv, hslot, rfl, rfl⟩ := execute_read_ok.1 hrun
  exact ⟨_, execute_read_ok.2 ⟨hv, hslot.of_atMost hs, rfl, rfl⟩, .read .refl⟩

theorem logic {op : Connective} (hl : RunsLoosely l l') (hr : RunsLoosely r r')
    (hright : Looser r r') (hs : Kind.AtMost s'.kind s.kind) :
    RunsLoosely (logic op l r s) (.logic op l' r' s') := by
  intro env n' env' w hrun
  obtain ⟨hslot, ⟨l₁, hrunl, rfl, rfl⟩ | ⟨l₁, env₂, r₁, b, hrunl, hrunr, rfl, rfl⟩⟩ :=
    execute_logic_ok.1 hrun
  · -- the left side decides, and the right one is left as it was
    obtain ⟨m₁, hm, hloose⟩ := hl hrunl
    exact ⟨_, execute_logic_ok.2 ⟨hslot.of_atMost hs, .inl ⟨m₁, hm, rfl, rfl⟩⟩,
      .logic hloose hright .refl⟩
  · obtain ⟨m₁, hm, hloose⟩ := hl hrunl
    obtain ⟨m₂, hm', hloose'⟩ := hr hrunr
    exact ⟨_, execute_logic_ok.2 ⟨hslot.of_atMost hs,
      .inr ⟨m₁, env₂, m₂, b, hm, hm', rfl, rfl⟩⟩, .logic hloose hloose' .refl⟩

theorem not (ha : RunsLoosely a a') (hs : Kind.AtMost s'.kind s.kind) :
    RunsLoosely (not a s) (.not a' s') := by
  intro env n' env' w hrun
  obtain ⟨hslot, a₁, b, hruna, rfl, rfl⟩ := execute_not_ok.1 hrun
  obtain ⟨m₁, hm, hloose⟩ := ha hruna
  exact ⟨_, execute_not_ok.2 ⟨hslot.of_atMost hs, m₁, b, hm, rfl, rfl⟩, .not hloose .refl⟩

theorem sign {g : Sign} (ha : RunsLoosely a a') (hs : Kind.AtMost s'.kind s.kind) :
    RunsLoosely (sign g a s) (.sign g a' s') := by
  intro env n' env' w hrun
  obtain ⟨hslot, a₁, u, hruna, hu, rfl⟩ := execute_sign_ok.1 hrun
  obtain ⟨m₁, hm, hloose⟩ := ha hruna
  exact ⟨_, execute_sign_ok.2 ⟨hslot.of_atMost hs, m₁, u, hm, hu, rfl⟩, .sign hloose .refl⟩

theorem arith {op : ArithOp} (hl : RunsLoosely l l') (hr : RunsLoosely r r')
    (hs : Kind.AtMost s'.kind s.kind) :
    RunsLoosely (arith op l r s) (.arith op l' r' s') := by
  intro env n' env' w hrun
  obtain ⟨hslot, l₁, env₂, x, r₁, y, hrunl, hrunr, hv, rfl⟩ := execute_arith_ok.1 hrun
  obtain ⟨m₁, hm, hloose⟩ := hl hrunl
  obtain ⟨m₂, hm', hloose'⟩ := hr hrunr
  exact ⟨_, execute_arith_ok.2 ⟨hslot.of_atMost hs, m₁, env₂, x, m₂, y, hm, hm', hv, rfl⟩,
    .arith hloose hloose' .refl⟩

theorem compare {op : CompareOp} (hl : RunsLoosely l l') (hr : RunsLoosely r r')
    (hs : Kind.AtMost s'.kind s.kind) :
    RunsLoosely (compare op l r s) (.compare op l' r' s') := by
  intro env n' env' w hrun
  obtain ⟨hslot, l₁, env₂, x, r₁, y, c, hrunl, hrunr, hc, rfl, rfl⟩ :=
    execute_compare_ok.1 hrun
  obtain ⟨m₁, hm, hloose⟩ := hl hrunl
  obtain ⟨m₂, hm', hloose'⟩ := hr hrunr
  exact ⟨_, execute_compare_ok.2 ⟨hslot.of_atMost hs,
    m₁, env₂, x, m₂, y, c, hm, hm', hc, rfl, rfl⟩, .compare hloose hloose' .refl⟩

theorem assign {op : AssignOp} {name : String} {t t' : Option Kind} (ht : Kind.AtMost t' t)
    (ha : RunsLoosely a a') (hs : Kind.AtMost s'.kind s.kind) :
    RunsLoosely (assign op name t a s) (.assign op name t' a' s') := by
  intro env n' env' w hrun
  obtain ⟨a₁, env₂, u, scope, hruna, hu, hb, rfl, rfl⟩ := execute_assign_ok.1 hrun
  obtain ⟨m₁, hm, hloose⟩ := ha hruna
  exact ⟨_, execute_assign_ok.2 ⟨m₁, env₂, u, scope, hm, hu,
    bindVariable_of_atMost hb ht hs, rfl, rfl⟩, .assign ht hloose .refl⟩

theorem call {name : String} {f : Overload} {buffer : Buffer}
    (h : List.Forall₂ RunsLoosely args args') (hs : Kind.AtMost s'.kind s.kind) :
    RunsLoosely (call name f args buffer s) (.call name f args' buffer s') := by
  intro env n' env' w hrun
  obtain ⟨hslot, args₁, env₂, vs, hruns, hcall, rfl⟩ := execute_call_ok.1 hrun
  obtain ⟨ms, hms, hlooses⟩ := runAll_loosely h hruns
  exact ⟨_, execute_call_ok.2 ⟨hslot.of_atMost hs, ms, env₂, vs, hms, hcall, rfl⟩,
    .of_forall₂ hlooses .refl⟩

theorem sequence (ha : RunsLoosely a a') (hb : RunsLoosely b b')
    (hs : Kind.AtMost s'.kind s.kind) :
    RunsLoosely (sequence a b s) (.sequence a' b' s') := by
  intro env n' env' w hrun
  obtain ⟨hslot, a₁, env₂, u, b₁, hruna, hrunb, rfl⟩ := execute_sequence_ok.1 hrun
  obtain ⟨m₁, hm, hloose⟩ := ha hruna
  obtain ⟨m₂, hm', hloose'⟩ := hb hrunb
  exact ⟨_, execute_sequence_ok.2 ⟨hslot.of_atMost hs, m₁, env₂, u, m₂, hm, hm', rfl⟩,
    .sequence hloose hloose' .refl⟩

/-- A sign `+` may come in front of a number. -/
theorem plus (h : RunsLoosely n m) (hn : n.kind? = some k) (hk : k.isNumeric = true)
    (hs : Kind.AtMost s.kind (some k)) : RunsLoosely n (.sign .plus m s) := by
  intro env n' env' w hrun
  obtain ⟨m₁, hm, hloose⟩ := h hrun
  obtain ⟨hn', hkind⟩ := kind_of_run hn hrun
  have hsign : applySign .plus w = .ok w := by
    rw [applySign, Value.isNumeric, hkind, hk, if_pos rfl]
  have hadmits : s.Admits w.kind := hkind ▸ hs
  exact ⟨_, execute_sign_ok.2 ⟨hadmits, m₁, w, hm, hsign, rfl⟩,
    .plus hloose hn' hk (.inr (congrArg some hkind))⟩

/-- The literal that leaves the result to the other operand may come before a truth value. -/
theorem onRight {op : Connective} (h : RunsLoosely n m) (hn : n.kind? = some .boolean)
    (hs : Kind.AtMost s.kind (some .boolean)) :
    RunsLoosely n (.logic op (.literal (.boolean op.identity)) m s) := by
  intro env n' env' w hrun
  obtain ⟨m₁, hm, hloose⟩ := h hrun
  obtain ⟨hn', hkind⟩ := kind_of_run hn hrun
  obtain ⟨b, hb⟩ := Value.asBool_of_kind hkind op.symbol
  obtain rfl := Value.asBool_eq_ok.1 hb
  refine ⟨_, execute_logic_ok.2 ⟨hs, .inr ⟨_, env, m₁, b, ?_, hm, rfl, rfl⟩⟩,
    .onRight hloose hn' .refl⟩
  rw [execute]

/-- The literal that leaves the result to the other operand may come behind a truth value. -/
theorem onLeft {op : Connective} (h : RunsLoosely n m) (hn : n.kind? = some .boolean)
    (hs : Kind.AtMost s.kind (some .boolean)) :
    RunsLoosely n (.logic op m (.literal (.boolean op.identity)) s) := by
  intro env n' env' w hrun
  obtain ⟨m₁, hm, hloose⟩ := h hrun
  obtain ⟨hn', hkind⟩ := kind_of_run hn hrun
  obtain ⟨b, hb⟩ := Value.asBool_of_kind hkind op.symbol
  obtain rfl := Value.asBool_eq_ok.1 hb
  by_cases hb : b = op.absorbing
  · subst hb
    exact ⟨_, execute_logic_ok.2 ⟨hs, .inl ⟨m₁, hm, rfl, rfl⟩⟩, .onLeft hloose hn' .refl⟩
  · obtain rfl : b = op.identity := Bool.eq_not_of_ne hb
    refine ⟨_, execute_logic_ok.2 ⟨hs, .inr ⟨m₁, env', _, op.identity, hm, ?_, rfl, rfl⟩⟩,
      .onLeft hloose hn' .refl⟩
    rw [execute]

end RunsLoosely

/-- Where a run of a tree comes to a value, a run of a looser one does. -/
theorem Looser.run (h : Looser n m) : RunsLoosely n m := by
  induction h with
  | literal v =>
    intro env n' env' w hrun
    rw [execute, Outcome.mk.injEq] at hrun
    obtain ⟨rfl, rfl, hv⟩ := hrun
    exact ⟨_, by rw [execute, hv], .literal v⟩
  | read hs => exact .read hs
  | logic _ hr hs ihl ihr => exact .logic ihl ihr hr hs
  | not _ hs ih => exact .not ih hs
  | sign _ hs ih => exact .sign ih hs
  | arith _ _ hs ihl ihr => exact .arith ihl ihr hs
  | compare _ _ hs ihl ihr => exact .compare ihl ihr hs
  | assign ht _ hs ih => exact .assign ht ih hs
  | call hlen _ hs ih =>
    exact .call (List.forall₂_iff_zip.2 ⟨hlen, fun {a a'} hmem => ih a a' hmem⟩) hs
  | sequence _ _ hs iha ihb => exact .sequence iha ihb hs
  | plus _ hn hk hs ih => exact ih.plus hn hk hs
  | onRight _ hn hs ih => exact ih.onRight hn hs
  | onLeft _ hn hs ih => exact ih.onLeft hn hs

end Node

end Formula

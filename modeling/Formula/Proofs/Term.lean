import Formula.Node.Basic

/-!
# Terms

A term is a tree without what its nodes keep from one run to the next : no last values, no
fixed kinds and no buffers. `Node.term` is the term of a tree. What a formula means is said
on its term, and a statement about terms holds of every tree with that term, whatever runs
the tree has been through.

A property of all the places of a term is stated by `Term.Forall`, from the property of one
place.
-/

namespace Formula

/-- A formula, as its operators and operands. -/
inductive Term where
  | literal (value : Value)
  | read (name : String) (constant : Bool)
  | logic (op : Connective) (left right : Term)
  | not (operand : Term)
  | sign (sign : Sign) (operand : Term)
  | arith (op : ArithOp) (left right : Term)
  | compare (op : CompareOp) (left right : Term)
  | assign (op : AssignOp) (name : String) (value : Term)
  | call (name : String) (function : Overload) (args : List Term)
  | sequence (first second : Term)

namespace Node

mutual

/-- The term of a tree. -/
def term : Node → Term
  | literal v => .literal v
  | read name c _ => .read name c
  | logic op l r _ => .logic op (term l) (term r)
  | not a _ => .not (term a)
  | sign s a _ => .sign s (term a)
  | arith op l r _ => .arith op (term l) (term r)
  | compare op l r _ => .compare op (term l) (term r)
  | assign op name _ v _ => .assign op name (term v)
  | call name f args _ _ => .call name f (terms args)
  | sequence a b _ => .sequence (term a) (term b)

/-- The terms of several trees. -/
def terms : List Node → List Term
  | [] => []
  | n :: ns => term n :: terms ns

end

theorem terms_eq_map : ∀ ns : List Node, terms ns = ns.map term
  | [] => rfl
  | n :: ns => by rw [terms, terms_eq_map ns, List.map_cons]

/-- Induction on a tree, with the hypothesis for every argument of a call. -/
@[elab_as_elim, induction_eliminator]
theorem induction {motive : Node → Prop}
    (literal : ∀ v, motive (literal v))
    (read : ∀ name constant slot, motive (read name constant slot))
    (logic : ∀ op l r slot, motive l → motive r → motive (logic op l r slot))
    (not : ∀ a slot, motive a → motive (not a slot))
    (sign : ∀ s a slot, motive a → motive (sign s a slot))
    (arith : ∀ op l r slot, motive l → motive r → motive (arith op l r slot))
    (compare : ∀ op l r slot, motive l → motive r → motive (compare op l r slot))
    (assign : ∀ op name target v slot, motive v → motive (assign op name target v slot))
    (call : ∀ name f args buffer slot, (∀ a ∈ args, motive a) →
      motive (call name f args buffer slot))
    (sequence : ∀ a b slot, motive a → motive b → motive (sequence a b slot)) :
    ∀ n, motive n :=
  @Node.rec motive (fun ns => ∀ a ∈ ns, motive a) literal read logic not sign arith compare
    assign call sequence (by simp) fun n ns hn hns => by simpa using ⟨hn, hns⟩

/-- The tree is one of those inside another, or that one itself. -/
inductive Inside (m : Node) : Node → Prop
  | self : Inside m m
  | logicLeft {op : Connective} {l r : Node} {s : Slot} (h : Inside m l) :
      Inside m (logic op l r s)
  | logicRight {op : Connective} {l r : Node} {s : Slot} (h : Inside m r) :
      Inside m (logic op l r s)
  | not {a : Node} {s : Slot} (h : Inside m a) : Inside m (not a s)
  | sign {g : Sign} {a : Node} {s : Slot} (h : Inside m a) : Inside m (sign g a s)
  | arithLeft {op : ArithOp} {l r : Node} {s : Slot} (h : Inside m l) : Inside m (arith op l r s)
  | arithRight {op : ArithOp} {l r : Node} {s : Slot} (h : Inside m r) : Inside m (arith op l r s)
  | compareLeft {op : CompareOp} {l r : Node} {s : Slot} (h : Inside m l) :
      Inside m (compare op l r s)
  | compareRight {op : CompareOp} {l r : Node} {s : Slot} (h : Inside m r) :
      Inside m (compare op l r s)
  | assign {op : AssignOp} {name : String} {target : Option Kind} {a : Node} {s : Slot}
      (h : Inside m a) : Inside m (assign op name target a s)
  | call {name : String} {f : Overload} {args : List Node} {b : Buffer} {s : Slot} {a : Node}
      (ha : a ∈ args) (h : Inside m a) : Inside m (call name f args b s)
  | first {a b : Node} {s : Slot} (h : Inside m a) : Inside m (sequence a b s)
  | second {a b : Node} {s : Slot} (h : Inside m b) : Inside m (sequence a b s)

end Node

namespace Term

/-- Induction on a term, with the hypothesis for every argument of a call. -/
@[elab_as_elim, induction_eliminator]
theorem induction {motive : Term → Prop}
    (literal : ∀ v, motive (literal v))
    (read : ∀ name constant, motive (read name constant))
    (logic : ∀ op l r, motive l → motive r → motive (logic op l r))
    (not : ∀ a, motive a → motive (not a))
    (sign : ∀ s a, motive a → motive (sign s a))
    (arith : ∀ op l r, motive l → motive r → motive (arith op l r))
    (compare : ∀ op l r, motive l → motive r → motive (compare op l r))
    (assign : ∀ op name v, motive v → motive (assign op name v))
    (call : ∀ name f args, (∀ a ∈ args, motive a) → motive (call name f args))
    (sequence : ∀ a b, motive a → motive b → motive (sequence a b)) :
    ∀ t, motive t :=
  @Term.rec motive (fun ts => ∀ a ∈ ts, motive a) literal read logic not sign arith compare
    assign call sequence (by simp) fun t ts ht hts => by simpa using ⟨ht, hts⟩

/-! ## All places of a term -/

mutual

/-- The term itself and every term inside it. -/
@[simp] def subterms : Term → List Term
  | literal v => [literal v]
  | read name c => [read name c]
  | logic op l r => logic op l r :: (subterms l ++ subterms r)
  | not a => not a :: subterms a
  | sign s a => sign s a :: subterms a
  | arith op l r => arith op l r :: (subterms l ++ subterms r)
  | compare op l r => compare op l r :: (subterms l ++ subterms r)
  | assign op name v => assign op name v :: subterms v
  | call name f args => call name f args :: allSubterms args
  | sequence a b => sequence a b :: (subterms a ++ subterms b)

/-- Every term inside several terms. -/
@[simp] def allSubterms : List Term → List Term
  | [] => []
  | t :: ts => subterms t ++ allSubterms ts

end

theorem mem_allSubterms {u : Term} {ts : List Term} :
    u ∈ allSubterms ts ↔ ∃ t ∈ ts, u ∈ subterms t := by
  induction ts with
  | nil => simp
  | cons t ts ih => simp [ih]

/-- Every place of the term has the property. -/
def Forall (p : Term → Prop) (t : Term) : Prop := ∀ u ∈ t.subterms, p u

variable {p q : Term → Prop}

theorem Forall.imp {t : Term} (h : ∀ u, p u → q u) (ht : t.Forall p) : t.Forall q :=
  fun u hu => h u (ht u hu)

@[simp] theorem forall_literal {v : Value} : (literal v).Forall p ↔ p (literal v) := by
  simp [Forall]

@[simp] theorem forall_read {name : String} {c : Bool} :
    (read name c).Forall p ↔ p (read name c) := by
  simp [Forall]

@[simp] theorem forall_logic {op : Connective} {l r : Term} :
    (logic op l r).Forall p ↔ p (logic op l r) ∧ l.Forall p ∧ r.Forall p := by
  simp [Forall, or_imp, forall_and]

@[simp] theorem forall_not {a : Term} : (not a).Forall p ↔ p (not a) ∧ a.Forall p := by
  simp [Forall]

@[simp] theorem forall_sign {s : Sign} {a : Term} :
    (sign s a).Forall p ↔ p (sign s a) ∧ a.Forall p := by
  simp [Forall]

@[simp] theorem forall_arith {op : ArithOp} {l r : Term} :
    (arith op l r).Forall p ↔ p (arith op l r) ∧ l.Forall p ∧ r.Forall p := by
  simp [Forall, or_imp, forall_and]

@[simp] theorem forall_compare {op : CompareOp} {l r : Term} :
    (compare op l r).Forall p ↔ p (compare op l r) ∧ l.Forall p ∧ r.Forall p := by
  simp [Forall, or_imp, forall_and]

@[simp] theorem forall_assign {op : AssignOp} {name : String} {v : Term} :
    (assign op name v).Forall p ↔ p (assign op name v) ∧ v.Forall p := by
  simp [Forall]

@[simp] theorem forall_call {name : String} {f : Overload} {args : List Term} :
    (call name f args).Forall p ↔ p (call name f args) ∧ ∀ a ∈ args, a.Forall p := by
  simp only [Forall, subterms, List.mem_cons, forall_eq_or_imp, mem_allSubterms]
  exact and_congr_right fun _ => ⟨fun h a ha u hu => h u ⟨a, ha, hu⟩,
    fun h u ⟨a, ha, hu⟩ => h a ha u hu⟩

@[simp] theorem forall_sequence {a b : Term} :
    (sequence a b).Forall p ↔ p (sequence a b) ∧ a.Forall p ∧ b.Forall p := by
  simp [Forall, or_imp, forall_and]

/-- A property that asks something of what a place itself reads, binds or calls, and nothing of
its operands. -/
structure Local (p : Term → Prop) : Prop where
  literal : ∀ v, p (literal v) := by intros; trivial
  logic : ∀ op l r, p (logic op l r) := by intros; trivial
  not : ∀ a, p (not a) := by intros; trivial
  sign : ∀ s a, p (sign s a) := by intros; trivial
  arith : ∀ op l r, p (arith op l r) := by intros; trivial
  compare : ∀ op l r, p (compare op l r) := by intros; trivial
  assign : ∀ op name v w, p (assign op name v) → p (assign op name w)
  call : ∀ name f args args', p (call name f args) → p (call name f args')
  sequence : ∀ a b, p (sequence a b) := by intros; trivial

end Term

end Formula

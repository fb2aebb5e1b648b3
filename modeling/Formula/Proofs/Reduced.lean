import Formula.Proofs.Compiling
import Formula.Proofs.Leniency
import Formula.Proofs.Rewriting

/-!
# What one pass of optimizing leaves

Optimizing goes through a tree once. What it leaves is reduced (`Node.Reduced`) : no operator but a
connective has a value that is fixed, no sign `+` stands in front of what is known to be a number,
and no fixed statement stands in front of another one. And the tree has not become larger
(`Node.size`), so that a tree is never what optimizing makes of one of its operands.

Of the operands of `&&` and `||` less is said, as they are looked at before they are optimized. A
fixed operand may be left as it was, and one that has become fixed since is not looked at again.
-/

namespace Formula

namespace Node

variable {n m l r : Node} {env : Env}

/-! ## The size of a tree -/

/-- How many operators, variables and values there are in a tree. -/
def size (n : Node) : Nat := n.term.subterms.length

/-- The subterms of a list of terms are as many as those of its terms together. -/
theorem length_allSubterms (ts : List Term) :
    (Term.allSubterms ts).length = (ts.map fun t => t.subterms.length).sum := by
  induction ts with
  | nil => rfl
  | cons t ts ih => rw [Term.allSubterms, List.length_append, ih, List.map_cons, List.sum_cons]

@[simp] theorem size_literal (v : Value) : (literal v).size = 1 := rfl

@[simp] theorem size_read (name : String) (c : Bool) (s : Slot) : (read name c s).size = 1 := rfl

@[simp] theorem size_logic (op : Connective) (l r : Node) (s : Slot) :
    (logic op l r s).size = l.size + r.size + 1 := by simp [size, term]

@[simp] theorem size_not (a : Node) (s : Slot) : (not a s).size = a.size + 1 := rfl

@[simp] theorem size_sign (g : Sign) (a : Node) (s : Slot) : (sign g a s).size = a.size + 1 := rfl

@[simp] theorem size_arith (op : ArithOp) (l r : Node) (s : Slot) :
    (arith op l r s).size = l.size + r.size + 1 := by simp [size, term]

@[simp] theorem size_compare (op : CompareOp) (l r : Node) (s : Slot) :
    (compare op l r s).size = l.size + r.size + 1 := by simp [size, term]

@[simp] theorem size_assign (op : AssignOp) (name : String) (target : Option Kind) (a : Node)
    (s : Slot) : (assign op name target a s).size = a.size + 1 := rfl

@[simp] theorem size_call (name : String) (f : Overload) (args : List Node) (b : Buffer)
    (s : Slot) : (call name f args b s).size = (args.map size).sum + 1 := by
  rw [size, term, Term.subterms, List.length_cons, length_allSubterms, terms_eq_map, List.map_map]
  rfl

@[simp] theorem size_sequence (a b : Node) (s : Slot) :
    (sequence a b s).size = a.size + b.size + 1 := by simp [size, term]

theorem size_pos (n : Node) : 0 < n.size := by
  cases n <;> simp

/-- The size of a tree is that of its term. -/
theorem size_congr (h : m.term = n.term) : m.size = n.size := by
  rw [size, size, h]

/-- A tree whose value is not fixed stays when it is folded. -/
theorem fold_of_not_isPrecomputable (hn : n.isPrecomputable = false) :
    n.fold env = ⟨.ok n, env⟩ := by
  rw [fold, hn]
  rfl

/-! ## Reduced trees -/

/-- The tree is as optimizing leaves one. Of the operands of a connective this is said as far as
they are not fixed. -/
inductive Reduced : Node → Prop
  | literal (v : Value) : Reduced (literal v)
  | read (name : String) (s : Slot) : Reduced (read name false s)
  | logic {op : Connective} {l r : Node} {s : Slot} (hl : l.isPrecomputable = false → Reduced l)
      (hr : r.isPrecomputable = false → Reduced r) : Reduced (logic op l r s)
  | not {a : Node} {s : Slot} (ha : Reduced a) (hpre : a.isPrecomputable = false) :
      Reduced (not a s)
  | sign {g : Sign} {a : Node} {s : Slot} (ha : Reduced a) (hpre : a.isPrecomputable = false)
      (hplain : ¬ (g = .plus ∧ a.isNumeric = true)) : Reduced (sign g a s)
  | arith {op : ArithOp} {l r : Node} {s : Slot} (hl : Reduced l) (hr : Reduced r)
      (hpre : (arith op l r s).isPrecomputable = false) : Reduced (arith op l r s)
  | compare {op : CompareOp} {l r : Node} {s : Slot} (hl : Reduced l) (hr : Reduced r)
      (hpre : (compare op l r s).isPrecomputable = false) : Reduced (compare op l r s)
  | assign {op : AssignOp} {name : String} {target : Option Kind} {a : Node} {s : Slot}
      (ha : Reduced a) : Reduced (assign op name target a s)
  | call {name : String} {f : Overload} {args : List Node} {b : Buffer} {s : Slot}
      (hargs : ∀ a ∈ args, Reduced a) (hpre : (call name f args b s).isPrecomputable = false) :
      Reduced (call name f args b s)
  | sequence {a b : Node} {s : Slot} (ha : Reduced a) (hb : Reduced b)
      (hpre : a.isPrecomputable = false) : Reduced (sequence a b s)

/-- The tree that is come to, if one is, is reduced and no larger than the given one. -/
abbrev Shrinks (n : Node) (r : Reduction) : Prop :=
  r.Ends (fun _ => True) (fun m => m.Reduced ∧ m.size ≤ n.size) True

/-- Folding makes a fixed tree a literal, which is as small as a tree can be. -/
theorem shrinks_fold (hm : m.isPrecomputable = false → m.Reduced) (hsize : m.size ≤ n.size) :
    Shrinks n (m.fold env) := by
  cases hpre : m.isPrecomputable with
  | false =>
    rw [fold_of_not_isPrecomputable hpre]
    exact .ok trivial ⟨hm hpre, hsize⟩
  | true =>
    rw [fold_of_isPrecomputable hpre]
    refine ⟨⟨trivial, fun m' hm' => ?_⟩, fun _ _ => trivial⟩
    obtain ⟨v, -, rfl⟩ := Except.map_eq_ok.1 hm'
    exact ⟨.literal v, n.size_pos⟩

/-- There is room for the literal that may stay beside an operand. -/
theorem shrinks_dropIdentity {op : Connective} {onRight : Bool} {s : Slot} (hm : m.Reduced)
    (hsize : m.size + 2 ≤ n.size) : Shrinks n ⟨.ok (dropIdentity op onRight s m), env⟩ := by
  have hlogic : ∀ l r, l.Reduced → r.Reduced → (logic op l r s).Reduced :=
    fun _ _ hl hr => .logic (fun _ => hl) fun _ => hr
  refine .ok trivial ?_
  unfold dropIdentity
  split
  · exact ⟨hm, by omega⟩
  · cases onRight
    · exact ⟨hlogic _ _ hm (.literal _), by simp; omega⟩
    · exact ⟨hlogic _ _ (.literal _) hm, by simp; omega⟩

/-- An operand of a connective is optimized, unless it is fixed. Then it is as a look left it. -/
theorem ends_operand {P : Env → Prop} {Q : Node → Prop} {E : Prop} {a node : Node}
    (hfixed : a.isPrecomputable = true → Q node)
    (hopen : a.isPrecomputable = false → (a.optimize env).Ends P Q E) (henv : P env) :
    Reduction.Ends P Q E (if a.isPrecomputable then ⟨.ok node, env⟩ else a.optimize env) := by
  split
  · exact .ok henv (hfixed ‹_›)
  · exact hopen (Bool.eq_false_of_not_eq_true ‹_›)

/-- A connective shrinks if its operands do. -/
theorem shrinks_logic {op : Connective} {s : Slot} (ihl : ∀ {env}, Shrinks l (l.optimize env))
    (ihr : ∀ {env}, Shrinks r (r.optimize env)) :
    Shrinks (logic op l r s) ((logic op l r s).optimize env) := by
  -- what a look leaves of an operand has the term of the operand, and is fixed if that is
  have hlook : ∀ {a : Node} {env}, (a.probe env).node.size = a.size ∧
      (a.probe env).node.isPrecomputable = a.isPrecomputable :=
    ⟨size_congr term_probe, isPrecomputable_congr term_probe⟩
  have hoperand : ∀ {a : Node} {env env'}, (∀ {env}, Shrinks a (a.optimize env)) →
      Reduction.Ends (fun _ => True)
        (fun m => (m.isPrecomputable = false → m.Reduced) ∧ m.size ≤ a.size) True
        (if a.isPrecomputable then ⟨.ok (a.probe env).node, env'⟩ else a.optimize env') := by
    refine fun iha => ends_operand (fun hpre => ⟨fun hnot => ?_, hlook.1.le⟩)
      (fun _ => iha.imp fun _ hm => ⟨fun _ => hm.1, hm.2⟩) trivial
    rw [hlook.2, hpre] at hnot
    cases hnot
  have hlpos := l.size_pos
  have hrpos := r.size_pos
  rw [optimize]
  split
  · exact .ok trivial ⟨.literal _, by simp⟩
  split
  · exact .ok trivial ⟨.literal _, by simp⟩
  split
  · rename_i hboth
    refine shrinks_fold (fun hnot => absurd hboth ?_) (by simp [hlook.1])
    rw [isPrecomputable, hlook.2, hlook.2] at hnot
    simp [hnot]
  split
  · exact ihr.andThen id fun m _ _ hm => shrinks_dropIdentity hm.1 (by rw [size_logic]; omega)
  split
  · exact ihl.andThen id fun m _ _ hm => shrinks_dropIdentity hm.1 (by rw [size_logic]; omega)
  exact (hoperand ihl).andThen id fun a _ _ ha => (hoperand ihr).andThen id fun b _ _ hb =>
    .ok trivial ⟨.logic ha.1 hb.1, by rw [size_logic, size_logic]; omega⟩

/-- Arguments that shrink one by one shrink together. -/
theorem sum_size_le {ns ms : List Node} (h : List.Forall₂ (fun n m => m.size ≤ n.size) ns ms) :
    (ms.map size).sum ≤ (ns.map size).sum := by
  induction h with
  | nil => exact le_rfl
  | cons hn _ ih =>
    rw [List.map_cons, List.map_cons, List.sum_cons, List.sum_cons]
    exact Nat.add_le_add hn ih

/-- What optimizing makes of a tree is reduced, and it is no larger than the tree. -/
theorem shrinks_optimize (n : Node) : Shrinks n (n.optimize env) := by
  induction n generalizing env with
  | literal v => exact .ok trivial ⟨.literal v, le_rfl⟩
  | read name c s =>
    refine shrinks_fold (fun hpre => ?_) le_rfl
    obtain rfl : c = false := hpre
    exact .read name s
  | logic op l r s ihl ihr => exact shrinks_logic ihl ihr
  | not a s ih =>
    rw [optimize]
    exact ih.andThen id fun a' _ _ ha => shrinks_fold (.not ha.1) (by simpa using ha.2)
  | sign g a s ih =>
    rw [optimize]
    refine ih.andThen id fun a' _ _ ha => ?_
    split
    · rename_i hpre
      exact shrinks_fold (fun hnot => absurd hpre (by rw [isPrecomputable] at hnot; simp [hnot]))
        (by simpa using ha.2)
    split
    · exact .ok trivial ⟨ha.1, by rw [size_sign]; omega⟩
    · rename_i hpre hplain
      exact .ok trivial ⟨.sign ha.1 (Bool.eq_false_of_not_eq_true hpre) hplain,
        by simpa using ha.2⟩
  | arith op l r s ihl ihr =>
    rw [optimize]
    exact ihl.andThen id fun l' _ _ hl => ihr.andThen id fun r' _ _ hr =>
      shrinks_fold (.arith hl.1 hr.1) (by rw [size_arith, size_arith]; omega)
  | compare op l r s ihl ihr =>
    rw [optimize]
    exact ihl.andThen id fun l' _ _ hl => ihr.andThen id fun r' _ _ hr =>
      shrinks_fold (.compare hl.1 hr.1) (by rw [size_compare, size_compare]; omega)
  | assign op name target a s ih =>
    rw [optimize]
    exact ih.andThen id fun a' _ _ ha => .ok trivial ⟨.assign ha.1, by simpa using ha.2⟩
  | call name f args b s ih =>
    obtain ⟨-, hok, -⟩ := ends_optimizeAll (P := fun _ => True) (fun a ha env _ => ih a ha) trivial
    rw [optimize]
    cases hres : (optimizeAll args env).result with
    | error e => exact ⟨⟨trivial, by simp⟩, fun _ _ => trivial⟩
    | ok ms =>
      have hall := hok ms hres
      refine shrinks_fold (.call fun m hm => ?_) ?_
      · obtain ⟨i, hi, rfl⟩ := List.getElem_of_mem hm
        exact (hall.get (hall.length_eq ▸ hi) hi).1
      · rw [size_call, size_call]
        exact Nat.succ_le_succ (sum_size_le (hall.imp fun _ _ h => h.2))
  | sequence a b s iha ihb =>
    rw [optimize]
    refine iha.andThen id fun a' _ _ ha => ihb.andThen id fun b' _ _ hb => ?_
    split
    · exact .ok trivial ⟨hb.1, by rw [size_sequence]; omega⟩
    · rename_i hpre
      exact .ok trivial ⟨.sequence ha.1 hb.1 (Bool.eq_false_of_not_eq_true hpre),
        by rw [size_sequence, size_sequence]; omega⟩

end Node

end Formula

import Formula.Fault

/-!
# Steps that may fail

A chain of steps comes to a value only if each step does, and then the values in between
are there. These are the facts by which chains are taken apart. The fault of a chain is that of
one of its steps (`FaultsIn.bind`).
-/

namespace Except

variable {ε α β : Type}

theorem map_eq_ok {x : Except ε α} {f : α → β} {b : β} :
    x.map f = .ok b ↔ ∃ a, x = .ok a ∧ f a = b := by
  cases x <;> simp [Except.map]

theorem map_eq_error {x : Except ε α} {f : α → β} {e : ε} :
    x.map f = .error e ↔ x = .error e := by
  cases x <;> simp [Except.map]

/-- Two steps come to a result if the first one does, and the second one from there. -/
theorem bind_eq_ok {x : Except ε α} {f : α → Except ε β} {b : β} :
    x >>= f = .ok b ↔ ∃ a, x = .ok a ∧ f a = .ok b := by
  cases x <;> simp [Bind.bind, Except.bind]

/-- A check comes before what is done if it passes. -/
theorem check_bind_eq_ok {x : Except ε Unit} {y : Except ε β} {b : β} :
    (x >>= fun _ => y) = .ok b ↔ x = .ok () ∧ y = .ok b := by
  cases x <;> simp [Bind.bind, Except.bind]

theorem isOk_iff {x : Except ε α} : x.isOk = true ↔ ∃ a, x = .ok a := by
  cases x <;> simp [isOk, Except.toBool]

end Except

namespace Formula

/-- The fault, if there is one, has `p`. -/
structure FaultsIn {α : Type} (p : Fault → Prop) (r : Except Fault α) : Prop where
  fault : ∀ e, r = .error e → p e

namespace FaultsIn

variable {α β : Type} {p q : Fault → Prop} {r : Except Fault α}

theorem ok (a : α) : FaultsIn p (.ok a : Except Fault α) := ⟨by simp⟩

theorem error {e : Fault} (h : p e) : FaultsIn p (.error e : Except Fault α) :=
  ⟨fun _ he => Except.error.inj he ▸ h⟩

/-- A check that passes or fails with one fault. -/
theorem check {e : Fault} (c : Prop) [Decidable c] (a : α) (h : p e) :
    FaultsIn p (if c then .ok a else .error e : Except Fault α) := by
  split
  · exact ok a
  · exact error h

/-- What is known of all faults may be weakened. -/
theorem imp (h : FaultsIn p r) (hpq : ∀ e, p e → q e) : FaultsIn q r :=
  ⟨fun e he => hpq e (h.fault e he)⟩

theorem map (h : FaultsIn p r) (f : α → β) : FaultsIn p (r.map f) :=
  ⟨fun e he => h.fault e (Except.map_eq_error.1 he)⟩

/-- The second step is only taken from what the first one comes to. -/
theorem bind_of_ok {f : α → Except Fault β} (h : FaultsIn p r)
    (hf : ∀ a, r = .ok a → FaultsIn p (f a)) : FaultsIn p (r >>= f) := by
  cases r with
  | error e => exact .error (h.fault e rfl)
  | ok a => exact hf a rfl

/-- Two steps fail as one of them does. -/
theorem bind {f : α → Except Fault β} (h : FaultsIn p r) (hf : ∀ a, FaultsIn p (f a)) :
    FaultsIn p (r >>= f) :=
  h.bind_of_ok fun a _ => hf a

/-- Steps along a list fail as one of them does. -/
theorem foldlM_of_mem {f : β → α → Except Fault β} {as : List α}
    (hf : ∀ a ∈ as, ∀ b, FaultsIn p (f b a)) (b : β) : FaultsIn p (as.foldlM f b) := by
  induction as generalizing b with
  | nil => exact ok b
  | cons a as ih =>
    rw [List.forall_mem_cons] at hf
    rw [List.foldlM_cons]
    exact (hf.1 b).bind fun b' => ih hf.2 b'

theorem foldlM {f : β → α → Except Fault β} (hf : ∀ b a, FaultsIn p (f b a)) (as : List α)
    (b : β) : FaultsIn p (as.foldlM f b) :=
  foldlM_of_mem (fun a _ b => hf b a) b

end FaultsIn

end Formula

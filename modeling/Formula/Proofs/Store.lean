import Formula.Scope
import Mathlib

/-!
# Stores of variables as maps from names

A table of names gives a number to a name exactly if it gives the name back for the number
(`Names.lookup?_eq_some_iff`), so two names never share a number. Binding a value to a name
therefore changes what that name is bound to and nothing else (`Variables.get?_insert`), and
the same holds of a scope that can be written (`Scope.get?_of_set`).
-/

namespace Formula

namespace Names

variable {t : Names} {name other : String} {id : Ident}

/-- Numbers and names of a table stand for each other. -/
theorem lookup?_eq_some_iff : t.lookup? name = some id ↔ t.resolve? id = some name := by
  rw [lookup?, resolve?, Option.map_eq_some_iff]
  constructor
  · rintro ⟨i, hi, rfl⟩
    obtain ⟨hlt, hget, -⟩ := List.idxOf?_eq_some_iff.1 hi
    exact List.getElem?_eq_some_iff.2 ⟨hlt, hget⟩
  · intro h
    obtain ⟨hlt, hget⟩ := List.getElem?_eq_some_iff.1 h
    refine ⟨id.index, List.idxOf?_eq_some_iff.2 ⟨hlt, hget, fun j hj hj' => ?_⟩, rfl⟩
    exact Nat.ne_of_lt hj ((List.Nodup.getElem_inj_iff t.nodup).1 (hj'.trans hget.symm))

theorem lookup?_eq_none_iff : t.lookup? name = none ↔ name ∉ t.list := by
  rw [lookup?, Option.map_eq_none_iff, List.idxOf?_eq_none_iff]

theorem index_lt_of_lookup? (h : t.lookup? name = some id) : id.index < t.size :=
  (List.getElem?_eq_some_iff.1 (lookup?_eq_some_iff.1 h)).1

/-- Two names never have one number. -/
theorem eq_of_lookup? (h : t.lookup? name = some id) (h' : t.lookup? other = some id) :
    name = other := by
  rw [lookup?_eq_some_iff] at h h'
  exact Option.some.inj (h.symm.trans h')

/-- A name that the table has keeps its number. -/
theorem intern_of_lookup? (h : t.lookup? name = some id) : t.intern name = (id, t) := by
  have hmem : name ∈ t.list := by
    by_contra hmem
    simp [lookup?_eq_none_iff.2 hmem] at h
  obtain ⟨i, hi, rfl⟩ := Option.map_eq_some_iff.1 h
  rw [intern, dif_pos hmem, List.idxOf_eq_getD_idxOf?, hi]
  rfl

/-- A name that the table does not have gets the next number. -/
theorem intern_of_lookup?_none (h : t.lookup? name = none) : (t.intern name).1 = ⟨t.size⟩ := by
  rw [intern, dif_neg (lookup?_eq_none_iff.1 h)]

/-- A name that the table does not have comes last. -/
theorem list_intern (t : Names) (name : String) :
    (t.intern name).2.list = if name ∈ t.list then t.list else t.list ++ [name] := by
  rw [intern]
  split_ifs <;> rfl

theorem size_le_size_intern (t : Names) (name : String) : t.size ≤ (t.intern name).2.size := by
  rw [size, size, list_intern]
  split_ifs <;> simp

/-- A name that is asked for has its number from then on, and the other names keep theirs. -/
theorem lookup?_intern :
    (t.intern name).2.lookup? other =
      if other = name then some (t.intern name).1 else t.lookup? other := by
  unfold intern
  split_ifs with hmem ho ho
  · subst ho
    rw [lookup?, List.idxOf_eq_getD_idxOf?]
    obtain ⟨i, hi⟩ := Option.isSome_iff_exists.1 (List.isSome_idxOf?.2 hmem)
    simp [hi]
  · rfl
  · subst ho
    refine lookup?_eq_some_iff.2 ?_
    simp [resolve?, add, size]
  · cases h : t.lookup? other with
    | none =>
      rw [lookup?_eq_none_iff] at h ⊢
      simp [add, h, ho]
    | some id =>
      rw [lookup?_eq_some_iff, resolve?] at h ⊢
      exact (List.getElem?_append_left (List.getElem?_eq_some_iff.1 h).1).trans h

theorem lookup?_intern_self (t : Names) (name : String) :
    (t.intern name).2.lookup? name = some (t.intern name).1 := by
  rw [lookup?_intern, if_pos rfl]

/-- A number that was given out for a name stays its number. -/
theorem lookup?_intern_of_lookup? (h : t.lookup? other = some id) (name : String) :
    (t.intern name).2.lookup? other = some id := by
  rw [lookup?_intern]
  split_ifs with ho
  · rw [← ho, intern_of_lookup? h]
  · exact h

end Names

namespace Variables

theorem lookup_rebind {i j : Ident} {v : Value} :
    ∀ bs : List (Ident × Value), (rebind i v bs).lookup j = if j = i then some v else bs.lookup j
  | [] => by
    by_cases h : j = i
    · simp [rebind, h]
    · have hji : (j == i) = false := beq_eq_false_iff_ne.2 h
      simp [rebind, List.lookup, h, hji]
  | (k, w) :: bs => by
    rw [rebind]
    by_cases hk : k = i
    · subst hk
      by_cases h : j = k
      · simp [h]
      · have hjk : (j == k) = false := beq_eq_false_iff_ne.2 h
        simp [List.lookup, h, hjk]
    · by_cases hj : j = k
      · subst hj
        simp [List.lookup, hk]
      · have hjk : (j == k) = false := beq_eq_false_iff_ne.2 hj
        simp only [if_neg hk, List.lookup, hjk, lookup_rebind bs]

theorem getIdent?_setIdent (vars : Variables) (i j : Ident) (v : Value) :
    (vars.setIdent i v).getIdent? j = if j = i then some v else vars.getIdent? j :=
  lookup_rebind vars.bindings

/-- What changes under the number of a name changes for this name, and for no other. -/
theorem get?_of_getIdent? {vars vars' : Variables} {name : String} {id : Ident} {v? : Option Value}
    (hnames : vars'.names = vars.names) (hid : vars.names.lookup? name = some id)
    (hget : ∀ j, vars'.getIdent? j = if j = id then v? else vars.getIdent? j) (other : String) :
    vars'.get? other = if other = name then v? else vars.get? other := by
  rw [get?, hnames]
  split_ifs with ho
  · rw [ho, hid, Option.bind_some, hget, if_pos rfl]
  · refine Option.bind_congr fun j hj => ?_
    have hne : j ≠ id := by
      rintro rfl
      exact ho (Names.eq_of_lookup? hj hid)
    rw [hget, if_neg hne]

/-- Binding a value to the number of a name changes what this name is bound to, and nothing else. -/
theorem get?_setIdent {vars : Variables} {name : String} {id : Ident}
    (hid : vars.names.lookup? name = some id) (other : String) (v : Value) :
    (vars.setIdent id v).get? other = if other = name then some v else vars.get? other := by
  have hnames : (vars.setIdent id v).names = vars.names := rfl
  exact get?_of_getIdent? hnames hid (fun j => vars.getIdent?_setIdent id j v) other

/-- Binding a value to a name changes what this name is bound to, and nothing else. -/
theorem get?_insert (vars : Variables) (name other : String) (v : Value) :
    (vars.insert name v).get? other = if other = name then some v else vars.get? other := by
  have hset : vars.insert name v = (vars.intern name).2.setIdent (vars.intern name).1 v := rfl
  rw [hset, get?_setIdent (vars.names.lookup?_intern_self name)]
  split_ifs with ho
  · rfl
  · have hlook : (vars.intern name).2.names.lookup? other = vars.names.lookup? other :=
      Names.lookup?_intern.trans (if_neg ho)
    rw [get?, hlook]
    rfl

end Variables

namespace Scope

/-- Binding a value to a name changes what this name is bound to, and nothing else. -/
theorem get?_of_set {scope scope' : Scope} {name : String} {v : Value}
    (h : scope.set name v = .ok scope') (other : String) :
    scope'.get? other = if other = name then some v else scope.get? other := by
  cases scope with
  | store vars =>
    obtain rfl : store (vars.insert name v) = scope' := by simpa [set] using h
    exact vars.get?_insert name other v
  | «sealed» vars => simp [set] at h
  | empty => simp [set] at h

theorem runtime_of_set {scope : Scope} {name : String} {v : Value} {e : Fault}
    (h : scope.set name v = .error e) : ∃ c, e = .runtime c := by
  cases scope with
  | store vars => simp [set] at h
  | «sealed» vars => exact ⟨_, (Except.error.inj h).symm⟩
  | empty => exact ⟨_, (Except.error.inj h).symm⟩

/-- The second scope binds the names in `p` to values of the kinds that they have in the
first. -/
def SameKinds (p : String → Prop) (s t : Scope) : Prop :=
  ∀ name v, p name → s.get? name = some v → ∃ w, t.get? name = some w ∧ w.kind = v.kind

/-- Binding a name to a value of its kind, or one that is not in `p`, keeps the kinds. -/
theorem SameKinds.set {p : String → Prop} {s t t' : Scope} {name : String} {v : Value}
    (h : s.SameKinds p t) (hset : t.set name v = .ok t')
    (hv : p name → ∀ w, s.get? name = some w → v.kind = w.kind) : s.SameKinds p t' := by
  intro other u hp hu
  rw [get?_of_set hset other]
  split_ifs with ho
  · subst ho
    exact ⟨v, rfl, hv hp u hu⟩
  · exact h other u hp hu

end Scope

end Formula

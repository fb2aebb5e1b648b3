import Formula.Proofs.Store

/-!
# What is bound after any number of steps

A host binds names to values, by the name or by a number that it was given for one before, takes
bindings away and asks for the numbers of further names, in any order (`StoreStep`). Whatever it
does, a store of variables is a map from names (`StoreOps.IsMap`) : a name is bound to what the last
step on it left there (`Session.bound`), whether it was reached by the name or by its number, and
the size of the store is the number of names that are bound.

This is said of every kind of store that can be used in this way (`StoreOps`), and holds of
`Variables` (`Variables.isMap_run_own`). What carries it is that a number has a value only if it
is the number of a name (`Variables.Tidy`), so a name that is new to the table is not bound by
being there.
-/

namespace Formula

/-! ## Bindings under numbers -/

namespace Variables

variable {vars : Variables} {name other : String} {id : Ident} {v : Value}

theorem isSome_lookup_iff {bs : List (Ident × Value)} :
    (bs.lookup id).isSome ↔ id ∈ bs.map Prod.fst := by
  rw [List.lookup_isSome_iff, List.mem_map]
  exact exists_congr fun b => and_congr_right fun _ => beq_iff_eq.trans eq_comm

theorem lookup_filter_ne {j : Ident} (bs : List (Ident × Value)) :
    (bs.filter fun b => b.1 ≠ id).lookup j = if j = id then none else bs.lookup j := by
  induction bs with
  | nil => simp
  | cons b bs ih =>
    by_cases hb : b.1 = id
    · rw [List.filter_cons_of_neg (by simpa using hb), ih, List.lookup_cons, hb]
      by_cases hj : j = id
      · simp [hj]
      · have hjid : (j == id) = false := beq_eq_false_iff_ne.2 hj
        simp [hj, hjid]
    · rw [List.filter_cons_of_pos (by simpa using hb), List.lookup_cons, List.lookup_cons, ih]
      by_cases hj : j = id
      · have hidb : (id == b.1) = false := beq_eq_false_iff_ne.2 (Ne.symm hb)
        simp [hj, hidb]
      · simp [hj]

/-- A number that has a value stays where it was, and another one comes last. -/
theorem map_fst_rebind (bs : List (Ident × Value)) :
    (rebind id v bs).map Prod.fst =
      if id ∈ bs.map Prod.fst then bs.map Prod.fst else bs.map Prod.fst ++ [id] := by
  induction bs with
  | nil => simp [rebind]
  | cons b bs ih =>
    rw [rebind]
    by_cases hb : b.1 = id
    · simp [hb]
    · have hmem : id ∈ (b :: bs).map Prod.fst ↔ id ∈ bs.map Prod.fst := by
        simp [Ne.symm hb]
      rw [if_neg hb, List.map_cons, ih, if_congr hmem rfl rfl]
      split_ifs <;> rfl

/-! ## Numbers that have a value -/

/-- The numbers that have a value. -/
def numbers (vars : Variables) : List Ident := vars.bindings.map Prod.fst

theorem isSome_getIdent?_iff : (vars.getIdent? id).isSome ↔ id ∈ vars.numbers :=
  isSome_lookup_iff

theorem numbers_setIdent (vars : Variables) (id : Ident) (v : Value) :
    (vars.setIdent id v).numbers =
      if id ∈ vars.numbers then vars.numbers else vars.numbers ++ [id] :=
  map_fst_rebind vars.bindings

theorem size_setIdent (vars : Variables) (id : Ident) (v : Value) :
    (vars.setIdent id v).size = if id ∈ vars.numbers then vars.size else vars.size + 1 := by
  have hlength := congrArg List.length (vars.numbers_setIdent id v)
  rw [apply_ite List.length, List.length_append] at hlength
  simpa [numbers, size] using hlength

theorem names_remove (vars : Variables) (name : String) :
    (vars.remove name).2.names = vars.names := by
  rw [remove]
  split <;> rfl

/-- Taking a name away gives the value that it had. -/
theorem fst_remove (vars : Variables) (name : String) :
    (vars.remove name).1 = vars.get? name := by
  rw [remove, get?]
  cases vars.names.lookup? name <;> rfl

/-- Taking a name away leaves the values of other numbers as they were. -/
theorem getIdent?_remove (hid : vars.names.lookup? name = some id) (j : Ident) :
    (vars.remove name).2.getIdent? j = if j = id then none else vars.getIdent? j := by
  rw [remove, hid]
  exact lookup_filter_ne vars.bindings

theorem numbers_remove (hid : vars.names.lookup? name = some id) :
    (vars.remove name).2.numbers = vars.numbers.filter fun j => j ≠ id := by
  rw [remove, hid, numbers, numbers, List.filter_map]
  rfl

theorem remove_of_none (hid : vars.names.lookup? name = none) :
    vars.remove name = (none, vars) := by
  rw [remove, hid]

/-- Taking a name away leaves all others bound as they were. -/
theorem get?_remove (vars : Variables) (name other : String) :
    (vars.remove name).2.get? other = if other = name then none else vars.get? other := by
  cases hid : vars.names.lookup? name with
  | none =>
    rw [remove_of_none hid]
    split_ifs with ho
    · rw [ho, get?, hid, Option.bind_none]
    · rfl
  | some id =>
    exact get?_of_getIdent? (vars.names_remove name) hid (getIdent?_remove hid) other

/-- The names that are bound, in the order of the bindings. -/
def boundNames (vars : Variables) : List String := vars.numbers.filterMap vars.names.resolve?

theorem mem_boundNames : name ∈ vars.boundNames ↔ (vars.get? name).isSome := by
  simp only [boundNames, List.mem_filterMap, ← Names.lookup?_eq_some_iff, ← isSome_getIdent?_iff,
    get?]
  cases vars.names.lookup? name <;> simp

/-- Each number that has a value has one only, and is the number of a name. -/
structure Tidy (vars : Variables) : Prop where
  nodup : vars.numbers.Nodup
  known : ∀ id ∈ vars.numbers, id.index < vars.names.size

namespace Tidy

theorem empty : Variables.empty.Tidy := ⟨List.nodup_nil, by simp [Variables.empty, numbers]⟩

theorem intern (h : vars.Tidy) (name : String) : (vars.intern name).2.Tidy :=
  ⟨h.nodup, fun id hid => Nat.lt_of_lt_of_le (h.known id hid) (Names.size_le_size_intern _ name)⟩

theorem setIdent (h : vars.Tidy) (hid : vars.names.lookup? name = some id) (v : Value) :
    (vars.setIdent id v).Tidy := by
  have hnumbers := numbers_setIdent vars id v
  split_ifs at hnumbers with hmem
  · exact ⟨hnumbers ▸ h.nodup, fun i hi => h.known i (hnumbers ▸ hi)⟩
  · refine ⟨?_, fun i hi => ?_⟩
    · rw [hnumbers, List.nodup_append]
      refine ⟨h.nodup, List.nodup_singleton id, ?_⟩
      rintro i hi j hj rfl
      exact hmem (List.mem_singleton.1 hj ▸ hi)
    · rw [hnumbers, List.mem_append, List.mem_singleton] at hi
      rcases hi with hi | rfl
      · exact h.known i hi
      · exact Names.index_lt_of_lookup? hid

theorem insert (h : vars.Tidy) (name : String) (v : Value) : (vars.insert name v).Tidy :=
  (h.intern name).setIdent (vars.names.lookup?_intern_self name) v

theorem remove (h : vars.Tidy) (name : String) : (vars.remove name).2.Tidy := by
  have hsub : (vars.remove name).2.numbers.Sublist vars.numbers := by
    cases hid : vars.names.lookup? name with
    | none => rw [remove_of_none hid]
    | some id =>
      rw [numbers_remove hid]
      exact List.filter_sublist
  refine ⟨hsub.nodup h.nodup, fun id hid => ?_⟩
  rw [names_remove]
  exact h.known id (hsub.subset hid)

theorem size_remove (h : vars.Tidy) (hid : vars.names.lookup? name = some id) :
    (vars.remove name).2.size = if id ∈ vars.numbers then vars.size - 1 else vars.size := by
  have hnumbers : (vars.remove name).2.numbers = vars.numbers.erase id := by
    rw [numbers_remove hid, h.nodup.erase_eq_filter]
    exact List.filter_congr fun j _ => Bool.eq_iff_iff.2 (by simp)
  have hlength := congrArg List.length hnumbers
  rw [List.length_erase] at hlength
  simpa [numbers, size] using hlength

/-- A name that the table did not have is not bound by being there. -/
theorem get?_intern (h : vars.Tidy) (name other : String) :
    (vars.intern name).2.get? other = vars.get? other := by
  have hlook : (vars.intern name).2.names.lookup? other =
      if other = name then some (vars.intern name).1 else vars.names.lookup? other :=
    Names.lookup?_intern
  rw [get?, hlook, get?]
  split_ifs with ho
  · subst ho
    cases hid : vars.names.lookup? other with
    | some id =>
      have hfst : (vars.intern other).1 = id := congrArg Prod.fst (Names.intern_of_lookup? hid)
      rw [hfst]
      rfl
    | none =>
      have hfst : (vars.intern other).1 = ⟨vars.names.size⟩ := Names.intern_of_lookup?_none hid
      have hfree : (⟨vars.names.size⟩ : Ident) ∉ vars.numbers := fun hmem =>
        Nat.lt_irrefl _ (h.known _ hmem)
      rw [← isSome_getIdent?_iff, Option.not_isSome_iff_eq_none] at hfree
      rw [hfst]
      exact hfree
  · rfl

theorem nodup_boundNames (h : vars.Tidy) : vars.boundNames.Nodup := by
  refine List.Nodup.filterMap (fun i j name hi hj => ?_) h.nodup
  exact Option.some.inj
    ((Names.lookup?_eq_some_iff.2 hi).symm.trans (Names.lookup?_eq_some_iff.2 hj))

theorem length_boundNames (h : vars.Tidy) : vars.boundNames.length = vars.size := by
  have hnumbers : vars.numbers.length = vars.size := List.length_map Prod.fst
  rw [← hnumbers]
  refine List.filterMap_length_eq_length.2 fun id hid => ?_
  simpa [Names.resolve?, Names.size] using h.known id hid

/-- The size of a store is the number of names that are bound. -/
theorem encard_eq_size (h : vars.Tidy) :
    {name | (vars.get? name).isSome}.encard = vars.size := by
  have hset : {name | (vars.get? name).isSome} = (vars.boundNames.toFinset : Set String) := by
    ext name
    simp [mem_boundNames]
  rw [hset, Set.encard_coe_eq_coe_finsetCard, List.toFinset_card_of_nodup h.nodup_boundNames,
    h.length_boundNames]

end Tidy

end Variables

/-! ## Stores in use -/

/-- What can be done with a store whose numbers are of type `ι`. -/
structure StoreOps (σ ι : Type) where
  /-- The store at the start. -/
  empty : σ
  /-- The number of a name, which the table then has. -/
  intern : σ → String → ι × σ
  /-- The number of a name, if the table has it. -/
  lookup? : σ → String → Option ι
  insert : σ → String → Value → σ
  set : σ → ι → Value → σ
  remove : σ → String → Option Value × σ
  getNamed? : σ → String → Option Value
  get? : σ → ι → Option Value
  size : σ → Nat

/-- What a host may do with a store, one step after the other. -/
inductive StoreStep where
  | insert (name : String) (v : Value)
  /-- Binds a value to the number that was given out at this place. -/
  | set (nth : Nat) (v : Value)
  | remove (name : String)
  /-- Asks for the number of a name, as compiling a formula does. -/
  | intern (name : String)
  /-- Asks for the number of a name that may be unknown. -/
  | lookup (name : String)

/-- A store, the numbers that it gave out, each with its name, and what was bound or taken away by
name or number, the last first. -/
structure StoreLog (σ ι : Type) where
  store : σ
  given : List (String × ι)
  writes : List (String × Option Value)

section

variable {σ ι : Type}

namespace StoreLog

/-- The name that a step binds or takes away. -/
def target? (log : StoreLog σ ι) : StoreStep → Option String
  | .insert name _ | .remove name => some name
  | .set nth _ => log.given[nth]?.map Prod.fst
  | .intern _ | .lookup _ => none

/-- What the last step on a name left there. -/
def bound (log : StoreLog σ ι) (name : String) : Option Value := (log.writes.lookup name).join

theorem bound_of_writes {log log' : StoreLog σ ι} {name : String} {v? : Option Value}
    (h : log'.writes = (name, v?) :: log.writes) (other : String) :
    log'.bound other = if other = name then v? else log.bound other := by
  rw [bound, h, List.lookup_cons]
  by_cases ho : other = name
  · simp [ho]
  · have hne : (other == name) = false := beq_eq_false_iff_ne.2 ho
    rw [hne, if_neg ho, bound]

end StoreLog

namespace StoreOps

variable (ops : StoreOps σ ι)

/-- The log at the start. -/
def start : StoreLog σ ι := ⟨ops.empty, [], []⟩

/-- Does one step. -/
def step (log : StoreLog σ ι) : StoreStep → StoreLog σ ι
  | .insert name v =>
    { log with store := ops.insert log.store name v, writes := (name, some v) :: log.writes }
  | .set nth v =>
    match log.given[nth]? with
    | none => log
    | some (name, id) =>
      { log with store := ops.set log.store id v, writes := (name, some v) :: log.writes }
  | .remove name =>
    { log with store := (ops.remove log.store name).2, writes := (name, none) :: log.writes }
  | .intern name =>
    let (id, store) := ops.intern log.store name
    { log with store, given := log.given ++ [(name, id)] }
  | .lookup name =>
    match ops.lookup? log.store name with
    | none => log
    | some id => { log with given := log.given ++ [(name, id)] }

/-- The log after some steps, from the start. -/
def run (steps : List StoreStep) : StoreLog σ ι := steps.foldl ops.step ops.start

theorem run_concat (steps : List StoreStep) (s : StoreStep) :
    ops.run (steps ++ [s]) = ops.step (ops.run steps) s := by
  rw [run, List.foldl_append]
  rfl

/-- The store is a map from names to what the last step on them left there. -/
structure IsMap (log : StoreLog σ ι) : Prop where
  /-- By its name, a variable is found as it was left. -/
  getNamed? : ∀ name, ops.getNamed? log.store name = log.bound name
  /-- So it is by the number of its name. -/
  get? : ∀ name id, ops.lookup? log.store name = some id → ops.get? log.store id = log.bound name
  /-- A number that was given out for a name is its number ever after. -/
  given : ∀ p ∈ log.given, ops.lookup? log.store p.1 = some p.2
  /-- Taking a variable away gives its value. -/
  remove : ∀ name, (ops.remove log.store name).1 = log.bound name
  /-- The size is the number of names that are bound. -/
  size : {name | (log.bound name).isSome}.encard = ops.size log.store

variable {ops} {log : StoreLog σ ι}

theorem step_set {nth : Nat} {v : Value} {p : String × ι} (h : log.given[nth]? = some p) :
    ops.step log (.set nth v) =
      { log with store := ops.set log.store p.2 v, writes := (p.1, some v) :: log.writes } := by
  rw [step, h]

theorem step_set_of_none {nth : Nat} {v : Value} (h : log.given[nth]? = none) :
    ops.step log (.set nth v) = log := by
  rw [step, h]

theorem step_lookup {name : String} {id : ι} (h : ops.lookup? log.store name = some id) :
    ops.step log (.lookup name) = { log with given := log.given ++ [(name, id)] } := by
  rw [step, h]

theorem step_lookup_of_none {name : String} (h : ops.lookup? log.store name = none) :
    ops.step log (.lookup name) = log := by
  rw [step, h]

/-- A step leaves all names bound as they were, but for the one that it binds or takes away. -/
theorem bound_step {s : StoreStep} {name : String} (h : log.target? s ≠ some name) :
    (ops.step log s).bound name = log.bound name := by
  cases s with
  | insert other | remove other =>
    have hne : name ≠ other := fun heq => h (congrArg some heq.symm)
    exact (StoreLog.bound_of_writes rfl name).trans (if_neg hne)
  | set nth v =>
    cases hnth : log.given[nth]? with
    | none => rw [step_set_of_none hnth]
    | some p =>
      have hne : name ≠ p.1 := by
        rintro rfl
        exact h (congrArg (Option.map Prod.fst) hnth)
      rw [step_set hnth]
      exact (StoreLog.bound_of_writes rfl name).trans (if_neg hne)
  | intern => rfl
  | lookup other =>
    cases hid : ops.lookup? log.store other with
    | none => rw [step_lookup_of_none hid]
    | some id =>
      rw [step_lookup hid]
      rfl

end StoreOps

end

/-! ## Variables -/

namespace Variables

/-- A store that has a table of names to itself. -/
def ops : StoreOps Variables Ident where
  empty := .empty
  intern := intern
  lookup? vars := vars.names.lookup?
  insert := insert
  set := setIdent
  remove := remove
  getNamed? := get?
  get? := getIdent?
  size := size

/-- The store holds what was bound in it last. -/
structure Follows (log : StoreLog Variables Ident) : Prop where
  tidy : log.store.Tidy
  get? : ∀ name, log.store.get? name = log.bound name
  given : ∀ p ∈ log.given, log.store.names.lookup? p.1 = some p.2

theorem follows_start : Follows ops.start :=
  ⟨.empty, fun _ => rfl, by simp [StoreOps.start]⟩

/-- Whatever a host does, the store follows. -/
theorem Follows.step {log : StoreLog Variables Ident} (h : Follows log) (s : StoreStep) :
    Follows (ops.step log s) := by
  cases s with
  | insert name v =>
    refine ⟨h.tidy.insert name v, fun other => ?_, fun p hp => ?_⟩
    · rw [StoreLog.bound_of_writes rfl other, ← h.get?]
      exact get?_insert log.store name other v
    · exact Names.lookup?_intern_of_lookup? (h.given p hp) name
  | set nth v =>
    cases hnth : log.given[nth]? with
    | none => rwa [StoreOps.step_set_of_none hnth]
    | some p =>
      have hid := h.given p (List.mem_of_getElem? hnth)
      rw [StoreOps.step_set hnth]
      refine ⟨h.tidy.setIdent hid v, fun other => ?_, h.given⟩
      rw [StoreLog.bound_of_writes rfl other, ← h.get?]
      exact get?_setIdent hid other v
  | remove name =>
    refine ⟨h.tidy.remove name, fun other => ?_, fun p hp => ?_⟩
    · rw [StoreLog.bound_of_writes rfl other, ← h.get?]
      exact get?_remove log.store name other
    · exact (congrArg (Names.lookup? · p.1) (names_remove log.store name)).trans (h.given p hp)
  | intern name =>
    refine ⟨h.tidy.intern name, fun other => ?_, List.forall_mem_append.2 ⟨fun p hp => ?_, ?_⟩⟩
    · exact (h.tidy.get?_intern name other).trans (h.get? other)
    · exact Names.lookup?_intern_of_lookup? (h.given p hp) name
    · exact List.forall_mem_singleton.2 (log.store.names.lookup?_intern_self name)
  | lookup name =>
    cases hid : ops.lookup? log.store name with
    | none => rwa [StoreOps.step_lookup_of_none hid]
    | some id =>
      rw [StoreOps.step_lookup hid]
      exact ⟨h.tidy, h.get?,
        List.forall_mem_append.2 ⟨h.given, List.forall_mem_singleton.2 hid⟩⟩

theorem follows_run (steps : List StoreStep) : Follows (ops.run steps) := by
  induction steps using List.reverseRecOn with
  | nil => exact follows_start
  | append_singleton steps s ih =>
    rw [StoreOps.run_concat]
    exact ih.step s

theorem Follows.isMap {log : StoreLog Variables Ident} (h : Follows log) : ops.IsMap log where
  getNamed? := h.get?
  get? name id hid := by
    have hlook : log.store.names.lookup? name = some id := hid
    rw [← h.get?, Variables.get?, hlook]
    rfl
  given := h.given
  remove name := (fst_remove log.store name).trans (h.get? name)
  size := by
    simp only [← h.get?]
    exact h.tidy.encard_eq_size

/-- Whatever a host does with a store of variables, it is a map from names. -/
theorem isMap_run_own (steps : List StoreStep) : ops.IsMap (ops.run steps) :=
  (follows_run steps).isMap

end Variables

end Formula

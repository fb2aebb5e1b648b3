import Formula.Proofs.Bindings
import Formula.Proofs.Interning
import Formula.SharedStore

/-!
# Stores beside a shared table as maps from names

A store whose names are in a table that others use, too, is a map from names
(`SharedStore.isMap_run`), however the steps on the store and new names in the table follow each
other. It does what `Variables` does, which has a table to itself (`SharedStore.Represents`), as
long as the table has not more names than there are numbers : one step of a host on both keeps them
so (`SharedStore.Mirrors.step`), and what is known of `Variables` is then said of the other.
-/

namespace Formula

namespace SharedStore

/-- A store whose names are in a table that others use, too. -/
def ops : StoreOps SharedStore Handle where
  empty := .empty
  intern := intern
  lookup? s := s.table.lookup?
  insert := insert
  set := set
  remove := remove
  getNamed? := getNamed?
  get? := get?
  size := size

/-! ## Values under numbers -/

variable {s s' : SharedStore} {vars : Variables} {name : String} {id : Handle} {i : Ident}
  {v : Value}

theorem mem_values_iff : id ∈ s.values ↔ (s.get? id).isSome :=
  Std.HashMap.mem_iff_isSome_getElem?

/-- The second store is the first one with a value bound to a number. -/
structure Binds (s : SharedStore) (id : Handle) (v : Value) (s' : SharedStore) : Prop where
  table : s'.table = s.table
  get? : ∀ j, s'.get? j = if j = id then some v else s.get? j
  size : s'.size = if id ∈ s.values then s.size else s.size + 1

theorem binds_insert (s : SharedStore) (id : Handle) (v : Value) :
    s.Binds id v { s with values := s.values.insert id v } where
  table := rfl
  get? j := by
    rw [get?, get?, Std.HashMap.getElem?_insert]
    exact if_congr (beq_iff_eq.trans eq_comm) rfl rfl
  size := Std.HashMap.size_insert

/-- To overwrite a value in its place comes to the same as to insert it. -/
theorem binds_set (s : SharedStore) (id : Handle) (v : Value) : s.Binds id v (s.set id v) := by
  rw [set]
  split_ifs with hmem
  · refine ⟨rfl, fun j => ?_, ?_⟩
    · rw [get?, get?, Std.HashMap.getElem?_modify]
      obtain ⟨w, hw⟩ := Option.isSome_iff_exists.1 (mem_values_iff.1 hmem)
      have hvalue : s.values[id]?.map (fun _ => v) = some v := by
        rw [show s.values[id]? = some w from hw]
        rfl
      exact if_congr (beq_iff_eq.trans eq_comm) hvalue rfl
    · rw [if_pos hmem]
      exact Std.HashMap.size_modify
  · exact binds_insert s id v

/-! ## The table -/

theorem intern_eq (s : SharedStore) (name : String) :
    s.intern name = ((s.table.intern name).1, { s with table := (s.table.intern name).2 }) := by
  rw [intern, Interner.internShared_eq]

theorem table_insert (s : SharedStore) (name : String) (v : Value) :
    (s.insert name v).table = (s.table.intern name).2 := by
  rw [insert, intern_eq]

theorem table_set (s : SharedStore) (id : Handle) (v : Value) : (s.set id v).table = s.table :=
  (s.binds_set id v).table

theorem table_remove (s : SharedStore) (name : String) : (s.remove name).2.table = s.table := by
  rw [remove]
  split <;> rfl

/-! ## Stores that work as `Variables` -/

/-- The store holds the same values under the same numbers, in 32 bits. -/
structure Represents (s : SharedStore) (vars : Variables) : Prop where
  table : s.table.Represents vars.names
  get? : ∀ id, s.get? id = vars.getIdent? ⟨id.index.toNat⟩
  size : s.size = vars.size

theorem represents_empty : empty.Represents .empty :=
  ⟨Interner.represents_empty, fun _ => Std.HashMap.getElem?_empty, Std.HashMap.size_empty⟩

namespace Represents

theorem lookup? (h : s.Represents vars) (name : String) :
    ops.lookup? s name = (Variables.ops.lookup? vars name).map Ident.handle :=
  h.table.lookup? name

theorem get?_handle (h : s.Represents vars) (hi : i.index < UInt32.size) :
    s.get? i.handle = vars.getIdent? i := by
  rw [h.get?, (Ident.mk_toNat_eq_iff hi _).2 rfl]

theorem mem_values_iff (h : s.Represents vars) (hi : i.index < UInt32.size) :
    i.handle ∈ s.values ↔ i ∈ vars.numbers := by
  rw [SharedStore.mem_values_iff, h.get?_handle hi, Variables.isSome_getIdent?_iff]

/-- The number of a name has 32 bits. -/
theorem index_lt (h : s.Represents vars) (hsize : s.table.size ≤ UInt32.size)
    (hi : vars.names.lookup? name = some i) : i.index < UInt32.size :=
  Nat.lt_of_lt_of_le (Names.index_lt_of_lookup? hi) (h.table.size ▸ hsize)

theorem getNamed? (h : s.Represents vars) (hsize : s.table.size ≤ UInt32.size) (name : String) :
    s.getNamed? name = vars.get? name := by
  rw [SharedStore.getNamed?, h.table.lookup?, Variables.get?]
  cases hi : vars.names.lookup? name with
  | none => rfl
  | some i => exact h.get?_handle (h.index_lt hsize hi)

/-- A value that is bound to a number of 32 bits is bound to that number. -/
theorem setIdent (h : s.Represents vars) (hi : i.index < UInt32.size) (hs : s.Binds i.handle v s') :
    s'.Represents (vars.setIdent i v) where
  table := hs.table ▸ h.table
  get? id := by
    rw [hs.get?, h.get?, Variables.getIdent?_setIdent]
    exact if_congr (Ident.mk_toNat_eq_iff hi id).symm rfl rfl
  size := by
    rw [hs.size, vars.size_setIdent, h.size, if_congr (h.mem_values_iff hi) rfl rfl]

/-- A name that is asked for gets the same number, as long as there is one left. -/
theorem intern (h : s.Represents vars) (hroom : (s.table.intern name).2.size ≤ UInt32.size) :
    (s.intern name).1 = (vars.intern name).1.handle ∧
      (s.intern name).2.Represents (vars.intern name).2 := by
  obtain ⟨hid, htable⟩ := h.table.intern hroom
  rw [intern_eq]
  exact ⟨hid, htable, h.get?, h.size⟩

theorem insert (h : s.Represents vars) (hroom : (s.insert name v).table.size ≤ UInt32.size) :
    (s.insert name v).Represents (vars.insert name v) := by
  have hbinds : (s.intern name).2.Binds (s.intern name).1 v (s.insert name v) := binds_insert _ _ v
  rw [table_insert] at hroom
  obtain ⟨hid, hstore⟩ := h.intern hroom
  have hsize : (s.intern name).2.table.size ≤ UInt32.size := by rwa [intern_eq]
  have hi : (vars.intern name).1.index < UInt32.size :=
    hstore.index_lt hsize (vars.names.lookup?_intern_self name)
  exact hstore.setIdent hi (hid ▸ hbinds)

theorem remove (h : s.Represents vars) (ht : vars.Tidy) (hsize : s.table.size ≤ UInt32.size)
    (name : String) :
    (s.remove name).1 = (vars.remove name).1 ∧
      (s.remove name).2.Represents (vars.remove name).2 := by
  cases hi : vars.names.lookup? name with
  | none =>
    have hid : s.table.lookup? name = none := by rw [h.table.lookup?, hi]; rfl
    rw [SharedStore.remove, hid, Variables.remove_of_none hi]
    exact ⟨rfl, h⟩
  | some i =>
    have hid : s.table.lookup? name = some i.handle := by rw [h.table.lookup?, hi]; rfl
    have hlt := h.index_lt hsize hi
    have hremove : s.remove name =
        (s.get? i.handle, { s with values := s.values.erase i.handle }) := by
      rw [SharedStore.remove, hid]
    have hget : s.get? i.handle = vars.get? name := by
      rw [h.get?_handle hlt, Variables.get?, hi]
      rfl
    rw [hremove]
    refine ⟨hget.trans (vars.fst_remove name).symm, ?_, fun id => ?_, ?_⟩
    · rw [Variables.names_remove]
      exact h.table
    · rw [Variables.getIdent?_remove hi, SharedStore.get?, Std.HashMap.getElem?_erase]
      have hcond : (i.handle == id) = true ↔ (⟨id.index.toNat⟩ : Ident) = i :=
        (beq_iff_eq.trans eq_comm).trans (Ident.mk_toNat_eq_iff hlt id).symm
      exact if_congr hcond rfl (h.get? id)
    · rw [ht.size_remove hi, SharedStore.size, Std.HashMap.size_erase]
      refine if_congr (h.mem_values_iff hlt) ?_ h.size
      exact congrArg (· - 1) h.size

end Represents

/-! ## A host at work -/

/-- A log of such a store that says the same as a log of `Variables`. -/
structure Mirrors (log : StoreLog SharedStore Handle) (other : StoreLog Variables Ident) :
    Prop where
  store : log.store.Represents other.store
  given : log.given = other.given.map fun p => (p.1, p.2.handle)
  writes : log.writes = other.writes

theorem mirrors_start : Mirrors ops.start Variables.ops.start := ⟨represents_empty, rfl, rfl⟩

variable {log : StoreLog SharedStore Handle} {other : StoreLog Variables Ident}

/-- A step leaves the table as it is, or asks it for a name. -/
theorem table_step (log : StoreLog SharedStore Handle) (step : StoreStep) :
    (ops.step log step).store.table = log.store.table ∨
      ∃ name, (ops.step log step).store.table = (log.store.table.intern name).2 := by
  cases step with
  | insert name v => exact .inr ⟨name, table_insert log.store name v⟩
  | set nth v =>
    refine .inl ?_
    cases hnth : log.given[nth]? with
    | none => rw [StoreOps.step_set_of_none hnth]
    | some p =>
      rw [StoreOps.step_set hnth]
      exact table_set log.store p.2 v
  | remove name => exact .inl (table_remove log.store name)
  | intern name => exact .inr ⟨name, congrArg (fun r => r.2.table) (log.store.intern_eq name)⟩
  | lookup name =>
    refine .inl ?_
    cases hid : ops.lookup? log.store name with
    | none => rw [StoreOps.step_lookup_of_none hid]
    | some id => rw [StoreOps.step_lookup hid]

/-- A step takes no name out. -/
theorem size_le_size_step (log : StoreLog SharedStore Handle) (step : StoreStep) :
    log.store.table.size ≤ (ops.step log step).store.table.size := by
  rcases table_step log step with h | ⟨name, h⟩
  · rw [h]
  · rw [h]
    exact Interner.size_le_size_intern _ name

/-- A step brings in no more than one name. -/
theorem size_step_le (log : StoreLog SharedStore Handle) (step : StoreStep) :
    (ops.step log step).store.table.size ≤ log.store.table.size + 1 := by
  rcases table_step log step with h | ⟨name, h⟩
  · rw [h]
    exact Nat.le_succ _
  · rw [h]
    exact Interner.size_intern_le _ name

/-- There are not more names than steps. -/
theorem size_run_le (steps : List StoreStep) :
    (ops.run steps).store.table.size ≤ steps.length := by
  induction steps using List.reverseRecOn with
  | nil => exact Nat.le_refl _
  | append_singleton steps step ih =>
    rw [StoreOps.run_concat, List.length_append]
    exact Nat.le_trans (size_step_le _ step) (Nat.succ_le_succ ih)

/-- One step on both keeps the logs the same, as long as there are numbers left. -/
theorem Mirrors.step (h : Mirrors log other) (hf : Variables.Follows other) {step : StoreStep}
    (hroom : (ops.step log step).store.table.size ≤ UInt32.size) :
    Mirrors (ops.step log step) (Variables.ops.step other step) := by
  have hsize : log.store.table.size ≤ UInt32.size := Nat.le_trans (size_le_size_step log step) hroom
  cases step with
  | insert name v => exact ⟨h.store.insert hroom, h.given, congrArg _ h.writes⟩
  | set nth v =>
    have hgiven : log.given[nth]? = other.given[nth]?.map fun p => (p.1, p.2.handle) := by
      rw [h.given, List.getElem?_map]
    cases hnth : other.given[nth]? with
    | none =>
      rw [hnth] at hgiven
      rwa [StoreOps.step_set_of_none hgiven, StoreOps.step_set_of_none hnth]
    | some p =>
      rw [hnth] at hgiven
      have hi := h.store.index_lt hsize (hf.given p (List.mem_of_getElem? hnth))
      rw [StoreOps.step_set hgiven, StoreOps.step_set hnth]
      exact ⟨h.store.setIdent hi (log.store.binds_set p.2.handle v), h.given, congrArg _ h.writes⟩
  | remove name =>
    exact ⟨(h.store.remove hf.tidy hsize name).2, h.given, congrArg _ h.writes⟩
  | intern name =>
    have hroom' : (log.store.table.intern name).2.size ≤ UInt32.size := by
      have htable := congrArg (fun r => r.2.table.size) (log.store.intern_eq name)
      exact htable ▸ hroom
    obtain ⟨hid, hstore⟩ := h.store.intern hroom'
    refine ⟨hstore, ?_, h.writes⟩
    show log.given ++ [(name, (log.store.intern name).1)] =
      (other.given ++ [(name, (other.store.intern name).1)]).map fun p => (p.1, p.2.handle)
    rw [List.map_append, ← h.given, hid]
    rfl
  | lookup name =>
    have hlook := h.store.lookup? name
    cases hi : Variables.ops.lookup? other.store name with
    | none =>
      rw [hi] at hlook
      rwa [StoreOps.step_lookup_of_none hlook, StoreOps.step_lookup_of_none hi]
    | some i =>
      rw [hi] at hlook
      rw [StoreOps.step_lookup hlook, StoreOps.step_lookup hi]
      refine ⟨h.store, ?_, h.writes⟩
      rw [List.map_append, ← h.given]
      rfl

/-- The same steps on a store of either kind leave logs that say the same. -/
theorem mirrors_run {steps : List StoreStep}
    (hsize : (ops.run steps).store.table.size ≤ UInt32.size) :
    Mirrors (ops.run steps) (Variables.ops.run steps) := by
  induction steps using List.reverseRecOn with
  | nil => exact mirrors_start
  | append_singleton steps step ih =>
    rw [StoreOps.run_concat] at hsize
    rw [StoreOps.run_concat, StoreOps.run_concat]
    exact (ih (Nat.le_trans (size_le_size_step _ step) hsize)).step (Variables.follows_run steps)
      hsize

theorem Mirrors.bound_eq (h : Mirrors log other) (name : String) :
    log.bound name = other.bound name := by
  rw [StoreLog.bound, h.writes, StoreLog.bound]

theorem Mirrors.isMap (h : Mirrors log other) (hf : Variables.Follows other)
    (hsize : log.store.table.size ≤ UInt32.size) : ops.IsMap log where
  getNamed? name := by
    rw [h.bound_eq, ← hf.get?]
    exact h.store.getNamed? hsize name
  get? name id hid := by
    rw [h.store.lookup?] at hid
    obtain ⟨i, hi, rfl⟩ := Option.map_eq_some_iff.1 hid
    rw [h.bound_eq, ← hf.isMap.get? name i hi]
    exact h.store.get?_handle (h.store.index_lt hsize hi)
  given p hp := by
    rw [h.given] at hp
    obtain ⟨q, hq, rfl⟩ := List.mem_map.1 hp
    rw [h.store.lookup?, hf.isMap.given q hq]
    rfl
  remove name := by
    rw [h.bound_eq, ← hf.isMap.remove name]
    exact (h.store.remove hf.tidy hsize name).1
  size := by
    simp only [h.bound_eq, hf.isMap.size]
    exact congrArg _ h.store.size.symm

/-- Whatever a host does with a store, and whatever other names come into its table in between, the
store is a map from names, as long as there are fewer names than numbers of 32 bits. What is done to
one name makes no difference to another, and names are bound as in `Variables`. -/
theorem isMap_run (steps : List StoreStep)
    (hnames : (ops.run steps).store.table.size < UInt32.size) :
    ops.IsMap (ops.run steps) ∧
      (∀ step name, (ops.run steps).target? step ≠ some name →
        (ops.step (ops.run steps) step).store.getNamed? name =
          (ops.run steps).store.getNamed? name) ∧
      ∀ name, (ops.run steps).store.getNamed? name =
        (Variables.ops.run steps).store.get? name := by
  have hmap : ∀ {steps}, (ops.run steps).store.table.size ≤ UInt32.size →
      ops.IsMap (ops.run steps) := fun {steps} h =>
    (mirrors_run h).isMap (Variables.follows_run steps) h
  refine ⟨hmap (Nat.le_of_lt hnames), fun step name htarget => ?_, fun name => ?_⟩
  · have hnext : (ops.run (steps ++ [step])).store.table.size ≤ UInt32.size := by
      rw [StoreOps.run_concat]
      exact Nat.le_trans (size_step_le _ step) hnames
    have hafter := (hmap hnext).getNamed? name
    rw [StoreOps.run_concat, StoreOps.bound_step htarget] at hafter
    exact hafter.trans ((hmap (Nat.le_of_lt hnames)).getNamed? name).symm
  · exact (mirrors_run (Nat.le_of_lt hnames)).store.getNamed? (Nat.le_of_lt hnames) name

/-- A variable that is bound by its name, taken away, and bound again by the number that was given
out for the name before, while other names come into the table. -/
def rebinding : List StoreStep :=
  [.intern "a", .insert "b" .null, .insert "a" (.integer 1), .remove "a", .intern "c",
    .set 0 (.integer 2)]

theorem isMap_run_rebinding :
    (ops.run rebinding).store.table.size < UInt32.size ∧ ops.IsMap (ops.run rebinding) ∧
      (ops.run rebinding).bound "a" = some (.integer 2) ∧
      (ops.run rebinding).target? (.remove "b") ≠ some "a" ∧
      (ops.step (ops.run rebinding) (.remove "b")).store.getNamed? "a" = some (.integer 2) := by
  have hnames : (ops.run rebinding).store.table.size < UInt32.size :=
    Nat.lt_of_le_of_lt (size_run_le rebinding) (by decide)
  obtain ⟨hmap, hothers, -⟩ := isMap_run rebinding hnames
  have hbound : (ops.run rebinding).bound "a" = some (.integer 2) := by rfl
  have htarget : (ops.run rebinding).target? (.remove "b") ≠ some "a" := by decide
  refine ⟨hnames, hmap, hbound, htarget, ?_⟩
  rw [hothers _ _ htarget, ← hbound]
  exact hmap.getNamed? "a"

end SharedStore

end Formula

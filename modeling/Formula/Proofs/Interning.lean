import Formula.Interner
import Formula.Proofs.Store

/-!
# Names and their numbers at work

The table of names of a process is kept in two parts, with numbers of 32 bits
(`Interner`). As long as it holds no more names than there are numbers, it does what `Names` does
(`Interner.Represents`), of which it is known by construction that no name is there twice.

So names and numbers stand for each other in it, whatever it was asked and however often it was
emptied (`Interner.bijective_run`). The numbers that it has given since it was emptied last are
those from zero to its size, in the order in which the names were first seen.
-/

namespace Formula

/-! ## Tables that work as lists of names -/

/-- The number in 32 bits. -/
def Ident.handle (id : Ident) : Handle := ⟨.ofNat id.index⟩

theorem Ident.toNat_handle {id : Ident} (h : id.index < UInt32.size) :
    id.handle.index.toNat = id.index :=
  UInt32.toNat_ofNat_of_lt' h

theorem Handle.handle_toNat (id : Handle) : Ident.handle ⟨id.index.toNat⟩ = id := by
  rw [Ident.handle, UInt32.ofNat_toNat]

/-- Numbers that fit into 32 bits are told apart there. -/
theorem Ident.mk_toNat_eq_iff {id : Ident} (h : id.index < UInt32.size) (handle : Handle) :
    (⟨handle.index.toNat⟩ : Ident) = id ↔ handle = id.handle := by
  constructor
  · rintro rfl
    exact handle.handle_toNat.symm
  · rintro rfl
    rw [Ident.toNat_handle h]

namespace Interner

variable {t : Interner} {n : Names} {name other : String} {id : Handle}

theorem intern_of_lookup? (h : t.lookup? name = some id) : t.intern name = (id, t) := by
  rw [intern, h]

theorem internShared_eq (t : Interner) (name : String) : t.internShared name = t.intern name := by
  rw [internShared]
  split
  · rename_i id h
    rw [intern_of_lookup? h]
  · rfl

theorem size_le_size_intern (t : Interner) (name : String) : t.size ≤ (t.intern name).2.size := by
  rw [intern]
  split
  · exact Nat.le_refl _
  · simp [size]

theorem size_intern_le (t : Interner) (name : String) : (t.intern name).2.size ≤ t.size + 1 := by
  rw [intern]
  split
  · exact Nat.le_succ _
  · simp [size]

/-- The table gives the same numbers as a list of names, in 32 bits. -/
structure Represents (t : Interner) (n : Names) : Prop where
  names : t.names.toList = n.list
  lookup? : ∀ name, t.lookup? name = (n.lookup? name).map Ident.handle

theorem represents_empty : empty.Represents .empty :=
  ⟨rfl, fun name => by simp [lookup?, Names.lookup?, empty, Names.empty]⟩

namespace Represents

theorem size (h : t.Represents n) : t.size = n.size := by
  rw [Interner.size, ← Array.length_toList, h.names, Names.size]

theorem resolve? (h : t.Represents n) (id : Handle) :
    t.resolve? id = n.resolve? ⟨id.index.toNat⟩ := by
  rw [Interner.resolve?, ← Array.getElem?_toList, h.names, Names.resolve?]

/-- A name that is asked for gets the same number, as long as there is one left. -/
theorem intern (h : t.Represents n) (hroom : (t.intern name).2.size ≤ UInt32.size) :
    (t.intern name).1 = (n.intern name).1.handle ∧
      (t.intern name).2.Represents (n.intern name).2 := by
  cases hn : n.lookup? name with
  | some i =>
    have ht : t.lookup? name = some i.handle := by rw [h.lookup?, hn]; rfl
    rw [Names.intern_of_lookup? hn, intern_of_lookup? ht]
    exact ⟨rfl, h⟩
  | none =>
    have ht : t.lookup? name = none := by rw [h.lookup?, hn]; rfl
    have hlist : (n.intern name).2.list = n.list ++ [name] := by
      rw [Names.list_intern, if_neg (Names.lookup?_eq_none_iff.1 hn)]
    have hintern : t.intern name =
        (t.nextHandle, ⟨t.ids.insert name t.nextHandle, t.names.push name⟩) := by
      rw [Interner.intern, ht]
    rw [hintern] at hroom ⊢
    have hfree : t.size < UInt32.size := by simpa [Interner.size] using hroom
    have hnext : t.nextHandle = (n.intern name).1.handle := by
      rw [nextHandle, if_pos hfree, Names.intern_of_lookup?_none hn, h.size]
      rfl
    refine ⟨hnext, ?_, fun other => ?_⟩
    · rw [Array.toList_push, h.names, hlist]
    · rw [Interner.lookup?, Std.HashMap.getElem?_insert, Names.lookup?_intern]
      by_cases ho : other = name
      · simp [ho, hnext]
      · have ho' : (name == other) = false := by simpa using Ne.symm ho
        rw [ho', if_neg ho]
        exact h.lookup? other

/-- Numbers and names of the table stand for each other. -/
theorem lookup?_eq_some_iff (h : t.Represents n) (hsize : t.size ≤ UInt32.size) :
    t.lookup? name = some id ↔ t.resolve? id = some name := by
  rw [h.lookup?, h.resolve?, ← Names.lookup?_eq_some_iff, Option.map_eq_some_iff]
  constructor
  · rintro ⟨i, hi, rfl⟩
    have hlt : i.index < UInt32.size :=
      Nat.lt_of_lt_of_le (Names.index_lt_of_lookup? hi) (h.size ▸ hsize)
    rwa [Ident.toNat_handle hlt]
  · exact fun hid => ⟨_, hid, id.handle_toNat⟩

end Represents

end Interner

/-! ## Without repetitions -/

section Distinct

variable {α β : Type} [BEq α] [LawfulBEq α] [BEq β] [LawfulBEq β]

theorem eraseDups_concat (l : List α) (a : α) :
    (l ++ [a]).eraseDups = if a ∈ l then l.eraseDups else l.eraseDups ++ [a] := by
  rw [List.eraseDups_append, List.removeAll]
  by_cases ha : a ∈ l
  · simp [ha]
  · simp [ha, List.eraseDups_cons]

/-- A function that tells the members of a list apart leaves the same repetitions. -/
theorem eraseDups_map {f : α → β} {l : List α} (hf : ∀ a ∈ l, ∀ b ∈ l, f a = f b → a = b) :
    (l.map f).eraseDups = l.eraseDups.map f := by
  induction l using List.reverseRecOn with
  | nil => rfl
  | append_singleton l a ih =>
    have hmem : f a ∈ l.map f ↔ a ∈ l := by
      refine ⟨fun h => ?_, List.mem_map_of_mem⟩
      obtain ⟨b, hb, hab⟩ := List.mem_map.1 h
      exact hf a (by simp) b (by simp [hb]) hab.symm ▸ hb
    have htail : (l.map f).eraseDups = l.eraseDups.map f :=
      ih fun b hb c hc => hf b (by simp [hb]) c (by simp [hc])
    rw [List.map_append, List.map_singleton, eraseDups_concat, eraseDups_concat, htail,
      apply_ite (List.map f)]
    simp [hmem]

end Distinct

/-- The places of the members of a list without repetitions, one after the other. -/
theorem map_idxOf_of_nodup {l : List String} (h : l.Nodup) :
    l.map l.idxOf = List.range l.length := by
  refine List.ext_getElem (by simp) fun i hi _ => ?_
  rw [List.getElem_map, List.getElem_range]
  exact h.idxOf_getElem i (by simpa using hi)

namespace Interner

/-! ## Runs -/

/-- What a table may be asked for. -/
inductive Step where
  | intern (name : String)
  | lookup (name : String)
  | resolve (id : Handle)
  | reset

/-- A table, and the names that it was asked to take in since it was emptied, each with the number
that it then gave. -/
structure Log where
  table : Interner
  issued : List (String × Handle)

namespace Log

/-- The table at the start. -/
def empty : Log := ⟨.empty, []⟩

/-- The names that were taken in, in the order in which they were first seen. -/
def names (log : Log) : List String := (log.issued.map Prod.fst).eraseDups

/-- Does what the table is asked for. -/
def step (log : Log) : Step → Log
  | .intern name =>
    let (id, table) := log.table.intern name
    ⟨table, log.issued ++ [(name, id)]⟩
  | .lookup _ | .resolve _ => log
  | .reset => ⟨log.table.reset, []⟩

/-- The log works as a list of names, which are those that were taken in. -/
structure Orderly (log : Log) (n : Names) : Prop where
  table : log.table.Represents n
  names : log.names = n.list
  lookup? : ∀ p ∈ log.issued, log.table.lookup? p.1 = some p.2

theorem orderly_empty : empty.Orderly .empty :=
  ⟨represents_empty, rfl, by simp [empty]⟩

variable {log : Log} {n : Names}

/-- Taking in a name leaves a log that works as the list with that name. -/
theorem Orderly.intern (h : log.Orderly n) {name : String}
    (hroom : (log.table.intern name).2.size ≤ UInt32.size) :
    (log.step (.intern name)).Orderly (n.intern name).2 := by
  obtain ⟨hid, htable⟩ := h.table.intern hroom
  have hmem : name ∈ log.issued.map Prod.fst ↔ name ∈ n.list := by
    rw [← h.names, Log.names, List.mem_eraseDups]
  refine ⟨htable, ?_, fun p hp => ?_⟩
  · have hnames : (log.step (.intern name)).names =
        (log.issued.map Prod.fst ++ [name]).eraseDups := by
      simp [Log.names, step]
    rw [hnames, eraseDups_concat, Names.list_intern, if_congr hmem rfl rfl, ← h.names, Log.names]
  · have hlookup : (log.step (.intern name)).table.lookup? p.1 =
        if p.1 = name then some (log.table.intern name).1 else log.table.lookup? p.1 := by
      rw [step, htable.lookup?, Names.lookup?_intern, apply_ite (Option.map Ident.handle), hid,
        h.table.lookup?]
      rfl
    rw [hlookup]
    rcases List.mem_append.1 hp with hp | hp
    · split_ifs with hname
      · rw [← hname, intern_of_lookup? (h.lookup? p hp)]
      · exact h.lookup? p hp
    · obtain rfl := List.mem_singleton.1 hp
      exact if_pos rfl

end Log

/-- The table after some steps, from the start. -/
def run (steps : List Step) : Log := steps.foldl Log.step .empty

theorem run_concat (steps : List Step) (s : Step) : run (steps ++ [s]) = (run steps).step s := by
  rw [run, List.foldl_append]
  rfl

theorem size_step_le (log : Log) (s : Step) :
    (log.step s).table.size ≤ log.table.size + 1 := by
  cases s with
  | intern name => exact size_intern_le log.table name
  | lookup | resolve => exact Nat.le_succ _
  | reset => exact Nat.zero_le _

/-- No step takes in more than one name. -/
theorem size_run_le (steps : List Step) : (run steps).table.size ≤ steps.length := by
  induction steps using List.reverseRecOn with
  | nil => exact Nat.le_refl _
  | append_singleton steps s ih =>
    rw [run_concat, List.length_append]
    exact Nat.le_trans (size_step_le _ s) (Nat.succ_le_succ ih)

/-- A table that has not more names than there are numbers works as a list of names. Emptying it
makes up for names that were too many before. -/
theorem orderly_run {steps : List Step} (hsize : (run steps).table.size ≤ UInt32.size) :
    ∃ n, (run steps).Orderly n := by
  induction steps using List.reverseRecOn with
  | nil => exact ⟨.empty, Log.orderly_empty⟩
  | append_singleton steps s ih =>
    rw [run_concat] at hsize ⊢
    cases s with
    | intern name =>
      obtain ⟨n, hn⟩ := ih (Nat.le_trans (size_le_size_intern _ name) hsize)
      exact ⟨_, hn.intern hsize⟩
    | lookup name => exact ih hsize
    | resolve id => exact ih hsize
    | reset => exact ⟨.empty, Log.orderly_empty⟩

/-- Names and numbers of a table stand for each other. -/
structure Bijective (log : Log) : Prop where
  /-- The numbers that were given are those from zero to the size, in this order. -/
  dense : (log.issued.map fun p => p.2.index.toNat).eraseDups = List.range log.table.size
  /-- The names come in the order in which they were first seen. -/
  order : ∀ id, log.table.resolve? id = log.names[id.index.toNat]?
  /-- The number of a name gives the name back. -/
  resolve? : ∀ p ∈ log.issued, log.table.resolve? p.2 = some p.1
  /-- A name has a number exactly if the number has the name. -/
  lookup?_iff : ∀ name id,
    log.table.lookup? name = some id ↔ log.table.resolve? id = some name
  /-- Different names have different numbers. -/
  distinct : ∀ p ∈ log.issued, ∀ q ∈ log.issued, p.1 ≠ q.1 → p.2 ≠ q.2
  /-- To take in a name once more makes no difference, and it keeps its number. -/
  again : ∀ p ∈ log.issued, log.table.intern p.1 = (p.2, log.table)

namespace Log.Orderly

variable {log : Log} {n : Names}

theorem resolve? (h : log.Orderly n) (hsize : log.table.size ≤ UInt32.size)
    {p : String × Handle} (hp : p ∈ log.issued) : log.table.resolve? p.2 = some p.1 :=
  (h.table.lookup?_eq_some_iff hsize).1 (h.lookup? p hp)

/-- The number that was given to a name is its place among the names. -/
theorem toNat_eq_idxOf (h : log.Orderly n) (hsize : log.table.size ≤ UInt32.size)
    {p : String × Handle} (hp : p ∈ log.issued) : p.2.index.toNat = n.list.idxOf p.1 := by
  have hget : n.list[p.2.index.toNat]? = some p.1 := by
    rw [← h.resolve? hsize hp, h.table.resolve?, Names.resolve?]
  obtain ⟨hlt, hget⟩ := List.getElem?_eq_some_iff.1 hget
  rw [← hget, n.nodup.idxOf_getElem]

theorem dense (h : log.Orderly n) (hsize : log.table.size ≤ UInt32.size) :
    (log.issued.map fun p => p.2.index.toNat).eraseDups = List.range log.table.size := by
  have hmap : (log.issued.map fun p => p.2.index.toNat) =
      (log.issued.map Prod.fst).map n.list.idxOf := by
    rw [List.map_map]
    exact List.map_congr_left fun p hp => h.toNat_eq_idxOf hsize hp
  have hmem : ∀ a ∈ log.issued.map Prod.fst, a ∈ n.list := fun a ha => by
    rwa [← h.names, Log.names, List.mem_eraseDups]
  have hinj : ∀ a ∈ log.issued.map Prod.fst, ∀ b ∈ log.issued.map Prod.fst,
      n.list.idxOf a = n.list.idxOf b → a = b :=
    fun a ha b _ => (List.idxOf_inj (hmem a ha)).1
  calc (log.issued.map fun p => p.2.index.toNat).eraseDups
      = n.list.map n.list.idxOf := by rw [hmap, eraseDups_map hinj, ← Log.names, h.names]
    _ = List.range log.table.size := by rw [map_idxOf_of_nodup n.nodup, h.table.size, Names.size]

theorem bijective (h : log.Orderly n) (hsize : log.table.size ≤ UInt32.size) : Bijective log where
  dense := h.dense hsize
  order id := by rw [h.table.resolve?, Names.resolve?, h.names]
  resolve? _ hp := h.resolve? hsize hp
  lookup?_iff _ _ := h.table.lookup?_eq_some_iff hsize
  distinct p hp q hq hne heq := by
    have hname := h.resolve? hsize hp
    rw [heq, h.resolve? hsize hq] at hname
    exact hne (Option.some.inj hname).symm
  again p hp := intern_of_lookup? (h.lookup? p hp)

end Log.Orderly

/-- Whatever a table of names is asked for, and however often it is emptied, names and numbers
stand for each other, as long as it has not more names than there are numbers of 32 bits. -/
theorem bijective_run (steps : List Step) (hsize : (run steps).table.size ≤ UInt32.size) :
    Bijective (run steps) := by
  obtain ⟨n, h⟩ := orderly_run hsize
  exact h.bijective hsize

/-- The table is emptied in between, and gives its numbers anew. -/
theorem bijective_run_reset :
    (run [.intern "a", .intern "b", .intern "a", .reset, .intern "b"]).table.size ≤ UInt32.size ∧
      Bijective (run [.intern "a", .intern "b", .intern "a", .reset, .intern "b"]) := by
  have hsize : (run [.intern "a", .intern "b", .intern "a", .reset,
      .intern "b"]).table.size ≤ UInt32.size :=
    Nat.le_trans (size_run_le _) (by decide)
  exact ⟨hsize, bijective_run _ hsize⟩

end Interner

end Formula

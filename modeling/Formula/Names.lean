/-!
# Tables of names

A table of names gives each name a number, counted from zero in the order in which the
names are first seen, so that a name can be kept and compared as a number. No name is in
the table twice, and hence numbers and names of the table stand for each other.
-/

namespace Formula

/-- The number of a name. It means something only to the table that gave it. -/
structure Ident where
  index : Nat
  deriving DecidableEq

/-- The names in the order in which they were first seen. -/
structure Names where
  list : List String
  nodup : list.Nodup

namespace Names

/-- The table without names. -/
def empty : Names := ⟨[], List.nodup_nil⟩

/-- How many names there are. -/
def size (t : Names) : Nat := t.list.length

/-- The number of a name, if the table has it. -/
def lookup? (t : Names) (name : String) : Option Ident := (t.list.idxOf? name).map Ident.mk

/-- The name with a number, if the table has given it. -/
def resolve? (t : Names) (id : Ident) : Option String := t.list[id.index]?

/-- The table with one more name, which it does not have. -/
def add (t : Names) (name : String) (h : name ∉ t.list) : Names :=
  ⟨t.list ++ [name], by
    rw [List.nodup_append]
    refine ⟨t.nodup, by simp, ?_⟩
    rintro a ha b hb rfl
    exact h (List.mem_singleton.1 hb ▸ ha)⟩

/-- The number of a name, which is the next free one if the table does not have it yet. -/
def intern (t : Names) (name : String) : Ident × Names :=
  if h : name ∈ t.list then (⟨t.list.idxOf name⟩, t) else (⟨t.size⟩, t.add name h)

end Names

end Formula

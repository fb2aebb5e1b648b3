import Std.Data.HashMap

/-!
# The table of names of a process

A process keeps one table of names for all that it compiles and for all its stores. The table is
two : a hash table that finds the number of a name, and an array that finds the name with a
number. `Names` says what they do together.

Numbers have 32 bits. A table that holds more names than there are numbers gives the last number
to all those that are left over.
-/

namespace Formula

/-- The number of a name, in 32 bits. It means something only to the table that gave it. -/
structure Handle where
  index : UInt32
  deriving DecidableEq, Hashable

/-- A table of names, to be searched by name and by number. -/
structure Interner where
  ids : Std.HashMap String Handle
  /-- The names in the order in which they were first seen. -/
  names : Array String

namespace Interner

/-- The table without names. -/
def empty : Interner := ⟨∅, #[]⟩

/-- How many names there are. -/
def size (t : Interner) : Nat := t.names.size

/-- Whether there are no names. -/
def isEmpty (t : Interner) : Bool := t.names.isEmpty

/-- The number of a name, if the table has it. -/
def lookup? (t : Interner) (name : String) : Option Handle := t.ids[name]?

/-- The name with a number, if the table has given it. -/
def resolve? (t : Interner) (id : Handle) : Option String := t.names[id.index.toNat]?

/-- The last number that there is. -/
def lastHandle : Handle := ⟨.ofNat (UInt32.size - 1)⟩

/-- The next free number, or the last one if none is free. -/
def nextHandle (t : Interner) : Handle :=
  if t.size < UInt32.size then ⟨.ofNat t.size⟩ else lastHandle

/-- The number of a name, which is the next one if the table does not have it yet. -/
def intern (t : Interner) (name : String) : Handle × Interner :=
  match t.lookup? name with
  | some id => (id, t)
  | none => (t.nextHandle, ⟨t.ids.insert name t.nextHandle, t.names.push name⟩)

/-- The number of a name in a table that others use, too. It is taken from them only if the name
was not there when it was looked up. -/
def internShared (t : Interner) (name : String) : Handle × Interner :=
  match t.lookup? name with
  | some id => (id, t)
  | none => t.intern name

/-- The table, without its names. Numbers that it has given mean nothing from then on. -/
def reset (t : Interner) : Interner := { t with ids := ∅, names := #[] }

end Interner

end Formula

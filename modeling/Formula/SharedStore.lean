import Formula.Interner
import Formula.Value.Basic

/-!
# Stores beside a shared table

A store keeps its values in a hash table, each under the number of its name. The names are in a
table that it shares with whatever else there is in the process : other names come into it between
two operations of the store, as where a formula is compiled. `Variables` says what the store and the
table do together.
-/

namespace Formula

/-- Values under the numbers of their names, and the table that numbers the names. -/
structure SharedStore where
  table : Interner
  values : Std.HashMap Handle Value

namespace SharedStore

/-- The store without variables, beside a table without names. -/
def empty : SharedStore := ⟨.empty, ∅⟩

/-- How many variables are bound. -/
def size (s : SharedStore) : Nat := s.values.size

/-- Whether no variable is bound. -/
def isEmpty (s : SharedStore) : Bool := s.values.isEmpty

/-! ## By number -/

/-- The value under a number. -/
def get? (s : SharedStore) (id : Handle) : Option Value := s.values[id]?

/-- Binds a value to a number. A value that is there is overwritten in its place. -/
def set (s : SharedStore) (id : Handle) (v : Value) : SharedStore :=
  if id ∈ s.values then { s with values := s.values.modify id fun _ => v }
  else { s with values := s.values.insert id v }

/-- The number of a name, which the table then has. -/
def intern (s : SharedStore) (name : String) : Handle × SharedStore :=
  let (id, table) := s.table.internShared name
  (id, { s with table })

/-! ## By name -/

/-- The value of a variable. -/
def getNamed? (s : SharedStore) (name : String) : Option Value :=
  (s.table.lookup? name).bind s.get?

/-- Binds a value to a name. -/
def insert (s : SharedStore) (name : String) (v : Value) : SharedStore :=
  let (id, s) := s.intern name
  { s with values := s.values.insert id v }

/-- Takes a variable away, and gives the value that it had. -/
def remove (s : SharedStore) (name : String) : Option Value × SharedStore :=
  match s.table.lookup? name with
  | none => (none, s)
  | some id => (s.get? id, { s with values := s.values.erase id })

end SharedStore

end Formula

import Formula.Names
import Formula.Value.Basic

/-!
# Variables

A store of variables binds names to values. It keeps the names in a table and the values
under their numbers, so a variable can be reached by its name or by the number of it. Asking
for a name that was never bound does not put it into the table.
-/

namespace Formula

/-- Names with their values. -/
structure Variables where
  names : Names
  /-- The values, each under the number of its name. -/
  bindings : List (Ident × Value)

namespace Variables

/-- The store without variables. -/
def empty : Variables := ⟨Names.empty, []⟩

/-- How many variables are bound. -/
def size (vars : Variables) : Nat := vars.bindings.length

/-- Whether no variable is bound. -/
def isEmpty (vars : Variables) : Bool := vars.bindings.isEmpty

/-! ## By number -/

/-- The value under a number. -/
def getIdent? (vars : Variables) (id : Ident) : Option Value := vars.bindings.lookup id

/-- Bindings in which a number has a value. A number that had one stays where it was. -/
def rebind (id : Ident) (v : Value) : List (Ident × Value) → List (Ident × Value)
  | [] => [(id, v)]
  | (i, w) :: rest => if i = id then (i, v) :: rest else (i, w) :: rebind id v rest

/-- Binds a value to a number. -/
def setIdent (vars : Variables) (id : Ident) (v : Value) : Variables :=
  { vars with bindings := rebind id v vars.bindings }

/-- The number of a name, which the table then has. -/
def intern (vars : Variables) (name : String) : Ident × Variables :=
  let (id, names) := vars.names.intern name
  (id, { vars with names })

/-! ## By name -/

/-- The value of a variable. -/
def get? (vars : Variables) (name : String) : Option Value :=
  (vars.names.lookup? name).bind vars.getIdent?

/-- Binds a value to a name. -/
def insert (vars : Variables) (name : String) (v : Value) : Variables :=
  let (id, vars) := vars.intern name
  vars.setIdent id v

/-- Takes a variable away, and gives the value that it had. -/
def remove (vars : Variables) (name : String) : Option Value × Variables :=
  match vars.names.lookup? name with
  | none => (none, vars)
  | some id =>
    (vars.getIdent? id, { vars with bindings := vars.bindings.filter fun b => b.1 ≠ id })

/-- The store with these variables, bound in order. -/
def ofList (bindings : List (String × Value)) : Variables :=
  bindings.foldl (fun vars b => vars.insert b.1 b.2) empty

end Variables

end Formula

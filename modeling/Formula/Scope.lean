import Formula.Variables

/-!
# Scopes

A formula is compiled and run in a scope. That is a store of variables, or one that can only
be read, as while compiling, or no store at all.
-/

namespace Formula

/-- Where a formula finds its variables. -/
inductive Scope where
  /-- A store that can be read and written. -/
  | store (vars : Variables)
  /-- A store that can be read. -/
  | sealed (vars : Variables)
  /-- No variables, and no room for any. -/
  | empty

namespace Scope

/-- The variables of the scope. -/
def vars : Scope → Variables
  | store vars | sealed vars => vars
  | empty => Variables.empty

/-- The value of a variable. -/
def get? (scope : Scope) (name : String) : Option Value := scope.vars.get? name

/-- Binds a value to a name, where that is possible. -/
def set (name : String) (v : Value) : Scope → Except Fault Scope
  | store vars => .ok (store (vars.insert name v))
  | sealed _ => .error (.runtime (.sealed name))
  | empty => .error (.runtime .noBindings)

/-- The same variables, only to be read. -/
def toSealed (scope : Scope) : Scope := sealed scope.vars

end Scope

end Formula

import Formula.Element.Postfix
import Formula.Function.Builtin
import Formula.Node.Build
import Formula.Node.Optimize
import Formula.Node.Render

/-!
# Expressions

A compiler turns the text of a formula into an expression : the text is split into tokens,
the tokens get their roles and are put into postfix order, a tree is built, and in strict
settings it is checked. `Compiler.compile` then optimizes the tree, and
`Compiler.compilePlain` leaves it as it is. The scope is only read.

An expression can be run any number of times, each time in other surroundings.
-/

namespace Formula

/-- A compiled formula, ready to be run. -/
structure Expression where
  root : Node
  /-- Whether it has been run. -/
  executed : Bool
  /-- Whether its calls keep their buffers. -/
  noAlloc : Bool

/-- What a run of an expression comes to. -/
structure Run where
  expression : Expression
  env : Env
  result : Except Fault Value

namespace Expression

/-- The expression of a tree. -/
def ofNode (root : Node) : Expression := ⟨root, false, false⟩

/-- Runs the expression. -/
def execute (e : Expression) (env : Env) : Run :=
  let o := e.root.execute env
  ⟨{ e with root := o.node, executed := true }, o.env, o.result⟩

/-- Makes the calls keep their buffers, which has to be asked for before the first run. -/
def configureNoAlloc (e : Expression) : Except Fault Expression :=
  if e.executed then .error (.config .alreadyExecuted)
  else if e.noAlloc then .ok e
  else .ok { e with root := e.root.keepBuffers, noAlloc := true }

/-- Finds the first clash of kinds that are known. -/
def validate (e : Expression) : Except Fault Unit := e.root.validate

/-- The kind of the result, if it is known. -/
def kind? (e : Expression) : Option Kind := e.root.kind?

/-- Whether the result is fixed while compiling. -/
def isPrecomputable (e : Expression) : Bool := e.root.isPrecomputable

/-- Whether the result is known to be a number. -/
def isNumeric (e : Expression) : Bool := e.root.isNumeric

/-- The result of the last successful run, and `null` before it. -/
def last (e : Expression) : Value := e.root.last

/-- What the root of the tree does. -/
def form (e : Expression) : Form := e.root.form

/-- The tree as text. -/
def text (e : Expression) : String := e.root.render

end Expression

/-- What texts are compiled with. -/
structure Compiler where
  settings : Settings
  registry : Registry

/-- What compiling comes to : an expression or a fault, and the calls made till then. -/
structure Compilation where
  result : Except Fault Expression
  history : History

namespace Compiler

/-- The compiler with the standard settings and the functions that are always there. -/
def standard : Compiler := ⟨Settings.standard, Registry.builtins⟩

/-- The tree of a text. -/
def build (c : Compiler) (source : String) (scope : Scope) : Except Fault Node := do
  let es ← Element.postfixOfText source
  let root ← Node.ofPostfix ⟨c.settings, c.registry, scope⟩ es
  if c.settings.strict then root.validate
  return root

/-- Compiles a text, without optimizing the tree. -/
def compilePlain (c : Compiler) (source : String) (scope : Scope) : Except Fault Expression :=
  (c.build source scope).map .ofNode

/-- Compiles a text. The functions that are called to fix values add to the history. -/
def compile (c : Compiler) (source : String) (scope : Scope) (history : History) :
    Compilation :=
  match c.build source scope with
  | .error e => ⟨.error e, history⟩
  | .ok root =>
    let r := root.optimize ⟨scope.toSealed, history⟩
    ⟨r.result.map .ofNode, r.env.history⟩

end Compiler

end Formula

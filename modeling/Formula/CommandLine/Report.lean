import Formula.CommandLine.Options
import Formula.CommandLine.Usage
import Formula.Expression
import Formula.Text.Trim

/-!
# What a command line comes to

The bindings are evaluated in order, each in the scope of those before it, and none of them
can refer to constants. Then the expression is compiled and run. What was printed before a
failure stays printed. A failure says what was being done and, if there is one, the cause
under it.
-/

namespace Formula.CommandLine

/-- What the program prints, and its exit code. -/
structure Report where
  exit : Nat
  stdout : String
  stderr : String
  deriving DecidableEq

/-- A failure while something was being done. -/
structure Failure where
  context : String
  cause : Option String

/-- The text with four blanks in front of each line. -/
def indent (s : String) : String :=
  String.intercalate "\n" ((s.splitOn "\n").map ("    " ++ ·))

/-- The failure in words. -/
def Failure.text (f : Failure) : String :=
  "Error: " ++ f.context ++
    match f.cause with
    | some cause => "\n\nCaused by:\n" ++ indent cause
    | none => ""

/-- A failure that a fault has caused. -/
def Failure.ofFault (context : String) (e : Fault) : Failure := ⟨context, some e.message⟩

/-- The report of wrong arguments. -/
def Report.wrong : Report := ⟨2, "", ""⟩

/-- The report of a success. -/
def Report.success (stdout : String) : Report := ⟨0, stdout, ""⟩

/-- The report of a failure after something was printed. -/
def Report.failure (stdout : String) (f : Failure) : Report := ⟨1, stdout, f.text ++ "\n"⟩

/-- How the text of a file is found, or why it is not. -/
abbrev Files := String → Except String String

/-- The settings in a file. -/
def settingsOfFile (files : Files) (path : String) : Except Failure Settings :=
  match files path with
  | .error cause => .error ⟨"read config '" ++ path ++ "'", some cause⟩
  | .ok text =>
    match Settings.ofText? text with
    | some s => .ok s
    | none => .error ⟨"parse config '" ++ path ++ "'", none⟩

/-- The settings that the options ask for. -/
def settings (files : Files) (o : Options) : Except Failure Settings := do
  let base ←
    match o.config with
    | some path => settingsOfFile files path
    | none => .ok Settings.standard
  let chosen :=
    { base with
      intPrecision := o.int.getD base.intPrecision
      floatPrecision := o.float.getD base.floatPrecision
      strict := base.strict || o.strict }
  return chosen.withConstants o.constants

/-- The name and the text of a binding. -/
def splitBinding? (spec : String) : Option (String × String) :=
  let cs := spec.toList
  match cs.dropWhile (· != '=') with
  | [] => none
  | _ :: source => some (String.ofList (cs.takeWhile (· != '=')), String.ofList source)

/-- Compiles a text and runs it once. -/
def evaluate (c : Compiler) (source : String) (env : Env) : Except Fault (Value × Env) := do
  let compiled := c.compile source env.scope env.history
  let e ← compiled.result
  let r := e.execute { env with history := compiled.history }
  let v ← r.result
  return (v, r.env)

/-- Evaluates one binding. -/
def bindOne (binder : Compiler) (env : Env) (spec : String) : Except Failure Env :=
  match splitBinding? spec with
  | none => .error ⟨"--var '" ++ spec ++ "' is not of the form NAME=EXPR", none⟩
  | some (name, source) =>
    let name := Text.trimBlanks name
    match evaluate binder source env with
    | .error e => .error (.ofFault ("evaluate --var '" ++ name ++ "'") e)
    | .ok (v, env) => .ok { env with scope := .store (env.scope.vars.insert name v) }

/-- Evaluates the bindings in order. -/
def bindAll (c : Compiler) (specs : List String) : Except Failure Env :=
  let binder : Compiler := { c with settings := { c.settings with constants := [] } }
  specs.foldlM (bindOne binder) ⟨.store Variables.empty, []⟩

/-- Runs an expression once, and then `n` times more, and gives the last result. -/
def runAgain (e : Expression) (env : Env) : Nat → Except Fault Value
  | 0 => (e.execute env).result
  | n + 1 =>
    let r := e.execute env
    match r.result with
    | .error fault => .error fault
    | .ok _ => runAgain r.expression r.env n

/-- Compiles the expression as the options ask for. -/
def compileFor (o : Options) (c : Compiler) (source : String) (env : Env) : Compilation :=
  if o.noOpt then ⟨c.compilePlain source env.scope, env.history⟩
  else c.compile source env.scope env.history

/-- The expression, with kept buffers if it is to run more than once. -/
def prepare (e : Expression) (count : Nat) : Except Fault Expression :=
  if 1 < count then e.configureNoAlloc else .ok e

/-- The line with the postfix form, if it is asked for. -/
def postfixLine (o : Options) (source : String) : Except Failure String :=
  if o.showPostfix then
    match Element.postfixLexemes source with
    | .error e => .error (.ofFault "parse expression" e)
    | .ok lexemes => .ok ("postfix: " ++ String.intercalate " " lexemes ++ "\n")
  else .ok ""

/-- Compiles and runs the expression, after something was printed. -/
def reportRun (o : Options) (c : Compiler) (source : String) (env : Env) (printed : String) :
    Report :=
  let compiled := compileFor o c source env
  match compiled.result with
  | .error e => .failure printed (.ofFault "compile expression" e)
  | .ok e =>
    let printed := if o.showTree then printed ++ "tree: " ++ e.text ++ "\n" else printed
    let count := o.count.getD 1
    match prepare e count with
    | .error e => .failure printed ⟨e.message, none⟩
    | .ok e =>
      match runAgain e { env with history := compiled.history } (count - 1) with
      | .error e => .failure printed (.ofFault "evaluate expression" e)
      | .ok v => .success (printed ++ v.text ++ "\n")

/-- What the evaluation of an expression comes to. -/
def reportEval (files : Files) (o : Options) (source : String) : Report :=
  match settings files o with
  | .error f => .failure "" f
  | .ok s =>
    let c : Compiler := ⟨s, Registry.builtins⟩
    match bindAll c o.vars with
    | .error f => .failure "" f
    | .ok env =>
      match postfixLine o source with
      | .error f => .failure "" f
      | .ok printed => reportRun o c source env printed

/-- What a command line comes to. -/
def report (p : Program) (files : Files) : List String → Report
  | "eval" :: args =>
    match takeArgs {} args with
    | .error .wrong => .wrong
    | .error .help => .success p.evalHelp
    | .ok o =>
      match o.expression with
      | none => .wrong
      | some source => reportEval files o source
  | ["help"] => .success p.help
  | ["help", "eval"] => .success p.evalHelp
  | arg :: _ =>
    if arg = "--help" ∨ "-h".isPrefixOf arg then .success p.help
    else if arg = "--version" ∨ "-V".isPrefixOf arg then .success p.versionText
    else .wrong
  | [] => .wrong

end Formula.CommandLine

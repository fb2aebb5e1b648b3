import Formula.Numeral
import Formula.Settings.Reading

/-!
# Options of the command line

The arguments are read from left to right. An option that takes a value has it after an
equals sign or as the next argument, which may not look like an option then. Options may
stand before and after the expression, and after `--` nothing is an option. The first
argument that is wrong ends the reading, and so does a call for help.
-/

namespace Formula.CommandLine

-- Powers are those of the core library, whatever else is in scope.
attribute [local instance (20000)] instPowNat

/-- What is asked for on the command line. -/
structure Options where
  expression : Option String := none
  /-- The bindings, in order. -/
  vars : List String := []
  /-- The path of the settings. -/
  config : Option String := none
  int : Option IntPrecision := none
  float : Option FloatPrecision := none
  constants : List String := []
  strict : Bool := false
  noOpt : Bool := false
  showPostfix : Bool := false
  showTree : Bool := false
  /-- How often to run, if it is said. -/
  count : Option Nat := none

/-- Why the reading of the arguments ended early. -/
inductive Stop where
  /-- The arguments are wrong. -/
  | wrong
  /-- Help is called for. -/
  | help
  deriving DecidableEq

/-- An option that takes a value. -/
inductive Valued where
  | var
  | config
  | int
  | float
  | const
  | count

/-- An option without a value. -/
inductive Switch where
  | strict
  | noOpt
  | showPostfix
  | showTree

/-- An option by its name. -/
inductive Named where
  | valued (v : Valued)
  | switch (s : Switch)
  | help

/-- The option with a name. -/
def Named.ofName? : String → Option Named
  | "var" => some (.valued .var)
  | "config" => some (.valued .config)
  | "int" => some (.valued .int)
  | "float" => some (.valued .float)
  | "const" => some (.valued .const)
  | "repeat" => some (.valued .count)
  | "strict" => some (.switch .strict)
  | "no-opt" => some (.switch .noOpt)
  | "postfix" => some (.switch .showPostfix)
  | "tree" => some (.switch .showTree)
  | "help" => some .help
  | _ => none

/-- A count of 32 bits : digits, and possibly a sign in front. -/
def count? (s : String) : Option Nat :=
  let (negative, digits) :=
    match s.toList with
    | '-' :: ds => (true, ds)
    | '+' :: ds => (false, ds)
    | ds => (false, ds)
  if digits.isEmpty || !digits.all Char.isDigit then none
  else
    let n := digitsValue digits
    if n < (if negative then 1 else 2 ^ (32 : Nat)) then some n else none

/-- Sets what has not been set. -/
def setOnce {α : Type} (old new : Option α) : Except Stop (Option α) :=
  match old, new with
  | none, some v => .ok (some v)
  | _, _ => .error .wrong

/-- Turns on what has not been turned on. -/
def turnOn (old : Bool) : Except Stop Bool := if old then .error .wrong else .ok true

namespace Options

/-- Takes in an option with its value. -/
def setValue (o : Options) (value : String) : Valued → Except Stop Options
  | .var => .ok { o with vars := o.vars ++ [value] }
  | .const => .ok { o with constants := o.constants ++ [value] }
  | .config => (setOnce o.config (if value.isEmpty then none else some value)).map
      fun config => { o with config }
  | .int => (setOnce o.int (IntPrecision.ofName? value)).map fun int => { o with int }
  | .float => (setOnce o.float (FloatPrecision.ofName? value)).map fun float => { o with float }
  | .count => (setOnce o.count (count? value)).map fun count => { o with count }

/-- Takes in an option without a value. -/
def setSwitch (o : Options) : Switch → Except Stop Options
  | .strict => (turnOn o.strict).map fun strict => { o with strict }
  | .noOpt => (turnOn o.noOpt).map fun noOpt => { o with noOpt }
  | .showPostfix => (turnOn o.showPostfix).map fun showPostfix => { o with showPostfix }
  | .showTree => (turnOn o.showTree).map fun showTree => { o with showTree }

/-- Takes in the expression. -/
def setExpression (o : Options) (s : String) : Except Stop Options :=
  (setOnce o.expression (some s)).map fun expression => { o with expression }

/-- Takes in arguments none of which is an option. -/
def takeOperands (o : Options) (args : List String) : Except Stop Options :=
  args.foldlM setExpression o

end Options

/-- An argument, by how it looks. -/
inductive Look where
  /-- The mark after which nothing is an option. -/
  | stop
  /-- A long option, with the value after its equals sign. -/
  | long (name : String) (value : Option String)
  /-- Short options. -/
  | short (letters : List Char)
  | operand (text : String)

/-- How an argument looks. A single hyphen is no option. -/
def Look.of (arg : String) : Look :=
  match arg.toList with
  | ['-', '-'] => .stop
  | '-' :: '-' :: cs =>
    let name := cs.takeWhile (· != '=')
    let value := cs.dropWhile (· != '=')
    .long (String.ofList name) (if value.isEmpty then none else some (String.ofList value.tail))
  | '-' :: c :: cs => .short (c :: cs)
  | _ => .operand arg

/-- Whether an argument can be the value of the option before it. -/
def Look.isOperand : Look → Bool
  | operand _ => true
  | _ => false

/-- Takes in the arguments one by one. -/
def takeArgs (o : Options) : List String → Except Stop Options
  | [] => .ok o
  | arg :: rest =>
    match Look.of arg with
    | .stop => o.takeOperands rest
    | .short letters => .error (if letters.head? = some 'h' then .help else .wrong)
    | .operand s => (o.setExpression s).bind fun o => takeArgs o rest
    | .long name value =>
      match Named.ofName? name, value with
      | some .help, none => .error .help
      | some (.switch s), none => (o.setSwitch s).bind fun o => takeArgs o rest
      | some (.valued v), some value => (o.setValue value v).bind fun o => takeArgs o rest
      | some (.valued v), none =>
        match rest with
        | value :: rest =>
          if (Look.of value).isOperand then
            (o.setValue value v).bind fun o => takeArgs o rest
          else .error .wrong
        | [] => .error .wrong
      | _, _ => .error .wrong

end Formula.CommandLine

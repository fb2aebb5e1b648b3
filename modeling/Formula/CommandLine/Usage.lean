/-!
# Help on the command line

What is printed when help or the version is called for.
-/

namespace Formula.CommandLine

/-- The program as it calls itself. -/
structure Program where
  name : String
  version : String

namespace Program

/-- The version. -/
def versionText (p : Program) : String := p.name ++ " " ++ p.version ++ "\n"

/-- Help on the program. -/
def help (p : Program) : String :=
  "Usage: " ++ p.name ++ " <COMMAND>\n\n" ++
    "Commands:\n" ++
    "  eval  Compile and evaluate one expression\n" ++
    "  help  Print this message or the help of the given subcommand(s)\n\n" ++
    "Options:\n" ++
    "  -h, --help     Print help\n" ++
    "  -V, --version  Print version\n"

/-- Help on the evaluation of an expression. -/
def evalHelp (p : Program) : String :=
  "Compile and evaluate one expression\n\n" ++
    "Usage: " ++ p.name ++ " eval [OPTIONS] <EXPR>\n\n" ++
    "Arguments:\n" ++
    "  <EXPR>  Expression source\n\n" ++
    "Options:\n" ++
    "      --var <NAME=EXPR>          " ++
    "Bind a variable before evaluation (`name=expr`, evaluated in order)\n" ++
    "      --config <CONFIG>          " ++
    "Engine configuration JSON. Flags below override its fields\n" ++
    "      --int <INT_PRECISION>      Integer literal width [possible values: i32, i64]\n" ++
    "      --float <FLOAT_PRECISION>  " ++
    "Float literal representation [possible values: f32, f64, decimal]\n" ++
    "      --const <NAME>             Treat a bound variable as a compile-time constant\n" ++
    "      --strict                   Reject statically known type conflicts at compile time\n" ++
    "      --no-opt                   Skip the optimizer\n" ++
    "      --postfix                  Print the postfix form before evaluating\n" ++
    "      --tree                     Print the (optimized) tree before evaluating\n" ++
    "      --repeat <REPEAT>          " ++
    "Execute this many times in no-allocation mode and report the last result [default: 1]\n" ++
    "  -h, --help                     Print help\n"

end Program

end Formula.CommandLine

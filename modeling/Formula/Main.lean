import Formula.CommandLine.Report

/-!
# The program

Reads the arguments and the file of the settings, prints the report, and exits with its
code.
-/

namespace Formula.CommandLine

/-- The text of the file that the options name, or why it cannot be read. -/
def readSettingsFile (args : List String) : IO Files := do
  match takeArgs {} (args.drop 1) with
  | .ok { config := some path, .. } =>
    try
      let text ← IO.FS.readFile path
      return fun _ => .ok text
    catch e => return fun _ => .error (toString e)
  | _ => return fun path => .error ("no file " ++ path)

end Formula.CommandLine

open Formula.CommandLine in
/-- Runs the program on its arguments. -/
def main (args : List String) : IO UInt32 := do
  let program : Program := ⟨"formula", "0.1.0"⟩
  let files ← readSettingsFile args
  let r := report program files args
  IO.print r.stdout
  IO.eprint r.stderr
  return r.exit.toUInt32

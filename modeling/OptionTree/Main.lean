import OptionTree.CommandLine

/-!
# The program

Prints what a command leads to and exits with its code.
-/

open OptionTree

/-- Runs the command that the arguments ask for. -/
def main (arguments : List String) : IO UInt32 := do
  let response := CommandLine.run arguments
  IO.print response.output
  IO.eprint response.report
  return response.exit.toUInt32

import WordMachine.Demo

/-!
# The command line

The program takes no arguments.  It runs the demonstration, writes its report and
exits with its status.
-/

/-- Runs the demonstration. -/
def main : IO UInt32 := do
  let report := WordMachine.Demo.report WordMachine.Demo.countdown
  IO.print report.out
  IO.eprint report.err
  pure report.status

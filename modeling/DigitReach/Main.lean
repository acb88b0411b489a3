import DigitReach.CommandLine

/-!
# The program

Runs the command line: shows the events and complaints on standard error, and prints the
report on standard output.
-/

/-- Runs the program on its arguments. -/
def main (arguments : List String) : IO UInt32 := do
  let outcome := DigitReach.CommandLine.run arguments
  for event in outcome.events do
    IO.eprintln ("[" ++ event.level.heading ++ "] " ++ event.message)
  IO.eprint outcome.complaint
  IO.print outcome.output
  return outcome.status

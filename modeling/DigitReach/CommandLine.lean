import DigitReach.CommandLine.Arguments
import DigitReach.Report
import DigitReach.Synthesis

/-!
# The command line

The program reads its arguments, searches, and prints the report. What it leaves is an
`Outcome`: a status, what goes to standard output and to standard error, and the events
to show there.

The status is `0` if there is a report, or if only help or the version was asked for,
`1` if the digits are refused, and `2` if the arguments are.
-/

namespace DigitReach.CommandLine

/-- What the program is asked to do. -/
structure Request where
  /-- The operands to combine. -/
  operands : List Nat
  /-- The level of the events to show. -/
  level : Level
  /-- How to search the orderings. -/
  mode : Mode
  /-- The targets that were not reached are to be listed. -/
  missing : Bool

/-- The request that the arguments make. -/
def Arguments.request (a : Arguments) : ExceptT DigitsError Journaled Request := do
  let operands ← readOperands a.digits
  return ⟨operands, a.level, if a.parallel then .apart else .inTurn, a.missing⟩

/-- What is said of digits that are refused. -/
def digitsComplaint (error : DigitsError) : String := s!"Invalid digit string: {error.message}"

/-- What is said of a search that failed. -/
def searchComplaint (error : SynthesisError) : String := s!"Synthesis failed: {error.message}"

/-- Searches, with the entries of the command line in the journal. -/
def Request.search (q : Request) : ExceptT SynthesisError Journaled Registry := do
  note (.combining q.operands)
  let registry ← synthesize q.mode q.operands
  if registry.size = 0 then
    note .nothingReached
  return registry

/-! ## Texts -/

/-- The name of the program with its version. -/
def versionText : String := "digitforge 0.1.0\n"

/-- How the program is called. -/
def usageText : String := "Usage: digitforge [OPTIONS] <DIGITS>\n"

/-- What the program does, and how it is called. -/
def helpText : String :=
  "List the lowest-rank expression for every integer from 0 to 100 reachable from the " ++
  "given digits\n\n" ++ usageText ++
  "\nArguments:\n" ++
  "  <DIGITS>  Digits to combine, each one used exactly once (e.g. 2567)\n" ++
  "\nOptions:\n" ++
  "  -l, --log-level <LOG_LEVEL>  Log level (default: warn) [default: warn] " ++
  "[possible values: error, warn, info, debug, trace]\n" ++
  "  -p, --parallel               Search permutations in parallel\n" ++
  "      --missing                Also list the values that could not be reached\n" ++
  "  -h, --help                   Print help\n" ++
  "  -V, --version                Print version\n"

/-- What is said of arguments that are refused. -/
def Stop.complaint : Stop → String
  | missingDigits => "the following required arguments were not provided: <DIGITS>"
  | unknownArgument => "unexpected argument found"
  | invalidLevel => "'--log-level <LOG_LEVEL>' needs one of: error, warn, info, debug, trace"
  | repeated => "an argument cannot be used multiple times"
  | unexpectedValue => "a flag takes no value"
  | help | version => ""

/-! ## Outcomes -/

/-- What a run of the program leaves. -/
structure Outcome where
  /-- The status that it ends with. -/
  status : UInt32
  /-- What it prints. -/
  output : String
  /-- What it says of a failure. -/
  complaint : String
  /-- The events to show, in order. -/
  events : List Event

/-- The outcome if reading the arguments has stopped. -/
def Stop.outcome : Stop → Outcome
  | help => ⟨0, helpText, "", []⟩
  | version => ⟨0, versionText, "", []⟩
  | stop =>
    ⟨2, "", "error: " ++ stop.complaint ++ "\n\n" ++ usageText ++
      "\nFor more information, try '--help'.\n", []⟩

/-- The outcome of a failure. -/
def failure (complaint : String) (events : List Event) : Outcome :=
  ⟨1, "", "Error: " ++ complaint ++ "\n", events⟩

/-- The outcome of a request. -/
def Request.outcome (q : Request) : Outcome :=
  let (result, journal) := q.search.run.run #[]
  let events := journal.toList.filter fun event => q.level.admits event.level
  match result with
  | .error error => failure (searchComplaint error) events
  | .ok registry => ⟨0, Report.text registry q.missing, "", events⟩

/-- Runs the program, the arguments being read by `read`. Events are shown from the time on
    that the request is known. -/
def runWith (read : List String → Except Stop Arguments) (arguments : List String) : Outcome :=
  match read arguments with
  | .error stop => stop.outcome
  | .ok arguments =>
    match (arguments.request.run.run #[]).1 with
    | .error error => failure (digitsComplaint error) []
    | .ok request => request.outcome

/-- Runs the program. -/
def run : List String → Outcome := runWith readArguments

end DigitReach.CommandLine

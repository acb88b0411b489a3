import DigitReach.Journal

/-!
# Arguments

The command line takes one text of digits, the flags `-p`, `--parallel` and
`--missing`, the option `-l`, `--log-level` with the name of a level, and the requests
`-h`, `--help`, `-V` and `--version`.

* A name of one letter may be followed by others in the same argument, `-pl warn`; the
  letters behind `l`, with or without `=`, are its value.
* The value of the option may also follow as the next argument, unless that looks like
  a flag. It is then checked only once the next flag, option or text of digits is met,
  or at the end: so an argument that is not known is refused first.
* Behind `--` every argument is taken as it stands. A lone `-` is no flag.
* No flag or option may be repeated, and a flag takes no value.

`readArguments` goes through the arguments from left to right, and stops at the first
reason to do so.
-/

namespace DigitReach.CommandLine

/-- What the arguments say. -/
structure Arguments where
  /-- The text of digits. -/
  digits : String
  /-- The level of the events to show. -/
  level : Level
  /-- The orderings are searched apart. -/
  parallel : Bool
  /-- The targets that were not reached are to be listed. -/
  missing : Bool
deriving DecidableEq, Repr

/-- Why reading the arguments stops before they are complete. -/
inductive Stop where
  /-- Help is asked for. -/
  | help
  /-- The version is asked for. -/
  | version
  /-- There is no text of digits. -/
  | missingDigits
  /-- A flag is not known, or there is a second text of digits. -/
  | unknownArgument
  /-- The level has no value, or one that names no level. -/
  | invalidLevel
  /-- A flag or option is repeated. -/
  | repeated
  /-- A flag has a value. -/
  | unexpectedValue
deriving DecidableEq, Repr

/-- What can be named by a flag. -/
inductive Flag where
  | level | parallel | missing | help | version
deriving DecidableEq, Repr

namespace Flag

/-- The flag of a long name. -/
def ofName? : String → Option Flag
  | "log-level" => some level
  | "parallel" => some parallel
  | "missing" => some missing
  | "help" => some help
  | "version" => some version
  | _ => none

/-- The flag of a letter. -/
def ofLetter? : Char → Option Flag
  | 'l' => some level
  | 'p' => some parallel
  | 'h' => some help
  | 'V' => some version
  | _ => none

end Flag

/-! ## Reading -/

/-- What has been read so far. -/
structure Reading where
  /-- The text of digits. -/
  digits : Option String
  /-- The level that was given. -/
  level : Option Level
  /-- The option whose value is still to be checked, with its value if it was met. -/
  pending : Option (Option String)
  /-- The flag was given. -/
  parallel : Bool
  /-- The flag was given. -/
  missing : Bool
  /-- No further argument is a flag. -/
  flagsEnded : Bool

namespace Reading

/-- Nothing has been read. -/
def start : Reading := ⟨none, none, none, false, false, false⟩

/-- Takes the value of the level. -/
def setLevel (r : Reading) (value : Option String) : Except Stop Reading :=
  match value with
  | none => .error .invalidLevel
  | some name =>
    if r.level.isSome then .error .repeated
    else match Level.ofName? name with
      | none => .error .invalidLevel
      | some level => .ok { r with level := some level }

/-- Checks the value of an option that is still to be checked. -/
def settle (r : Reading) : Except Stop Reading :=
  match r.pending with
  | none => .ok r
  | some value => { r with pending := none }.setLevel value

/-- Takes a text of digits, if it is the first. -/
def addDigits (r : Reading) (text : String) : Except Stop Reading := do
  if r.digits.isSome then throw .unknownArgument
  let r ← r.settle
  return { r with digits := some text }

/-- Takes a flag that has no value with it. -/
def addFlag (r : Reading) (flag : Flag) : Except Stop Reading := do
  let r ← r.settle
  match flag with
  | .level => return { r with pending := some none }
  | .parallel => if r.parallel then throw .repeated else return { r with parallel := true }
  | .missing => if r.missing then throw .repeated else return { r with missing := true }
  | .help => throw .help
  | .version => throw .version

/-- Takes a level with its value. -/
def addLevel (r : Reading) (value : String) : Except Stop Reading := do
  let r ← r.settle
  r.setLevel (some value)

/-- Takes a long name, which may have a value behind `=`. -/
def addName (r : Reading) (name : List Char) (value : Option String) : Except Stop Reading :=
  match Flag.ofName? (String.ofList name), value with
  | none, _ => .error .unknownArgument
  | some flag, none => r.addFlag flag
  | some .level, some value => r.addLevel value
  | some _, some _ => .error .unexpectedValue

/-- Takes letters, each of which names a flag. -/
def addLetters (r : Reading) : List Char → Except Stop Reading
  | [] => .ok r
  | c :: rest =>
    match Flag.ofLetter? c, rest with
    | none, _ => .error .unknownArgument
    | some .level, '=' :: value => r.addLevel (String.ofList value)
    | some .level, d :: value => r.addLevel (String.ofList (d :: value))
    | some flag, rest => do
      let r ← r.addFlag flag
      r.addLetters rest

/-- Takes an argument that does not look like a flag: the value of an option that has
    none yet, or else a text of digits. -/
def addPlain (r : Reading) (text : String) : Except Stop Reading :=
  match r.pending with
  | some none => .ok { r with pending := some (some text) }
  | _ => r.addDigits text

/-- Takes an argument. -/
def add (r : Reading) (argument : String) : Except Stop Reading :=
  if r.flagsEnded then r.addDigits argument
  else match argument.toList with
    | ['-', '-'] => .ok { r with flagsEnded := true }
    | '-' :: '-' :: text =>
      match text.dropWhile (· ≠ '=') with
      | [] => r.addName text none
      | _ :: value => r.addName (text.takeWhile (· ≠ '=')) (some (String.ofList value))
    | '-' :: c :: rest => r.addLetters (c :: rest)
    | _ => r.addPlain argument

/-- What was read, once no argument is left. -/
def finish (r : Reading) : Except Stop Arguments := do
  let r ← r.settle
  match r.digits with
  | none => throw .missingDigits
  | some digits => return ⟨digits, r.level.getD .warn, r.parallel, r.missing⟩

end Reading

/-- Reads the arguments. -/
def readArguments (arguments : List String) : Except Stop Arguments := do
  let r ← arguments.foldlM Reading.add .start
  r.finish

end DigitReach.CommandLine

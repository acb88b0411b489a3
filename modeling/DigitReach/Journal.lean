import DigitReach.Registry
import DigitReach.Text.Quoted

/-!
# The journal

A search keeps a journal of what it does. An entry is an *event*: what happened, and
not how it is worded. Each event has a level of severity, and a text
(`Event.level`, `Event.message`); a reader asks for the events down to a level
(`Level.admits`).

A computation that keeps a journal is `Journaled`, and adds to it by `note`.
-/

namespace DigitReach

/-- How severe an event is. -/
inductive Level where
  | error | warn | info | debug | trace
deriving DecidableEq, Repr

namespace Level

/-- All levels, the most severe first. -/
def all : List Level := [error, warn, info, debug, trace]

/-- The place of a level, `1` for the most severe. -/
def place : Level → Nat
  | error => 1
  | warn => 2
  | info => 3
  | debug => 4
  | trace => 5

/-- Who asks for the events down to a level also asks for the more severe ones. -/
def admits (limit level : Level) : Bool := level.place ≤ limit.place

/-- The name of a level. -/
def name : Level → String
  | error => "error"
  | warn => "warn"
  | info => "info"
  | debug => "debug"
  | trace => "trace"

/-- The level of a name. -/
def ofName? (name : String) : Option Level := all.find? (·.name == name)

/-- The heading of a level in a journal. -/
def heading (level : Level) : String := level.name.toUpper

end Level

/-! ## Events -/

/-- What happens in a search. -/
inductive Event where
  /-- A text is about to be read as digits. -/
  | checkingDigits (text : String)
  /-- The text has no characters. -/
  | noDigits
  /-- A character of the text is no digit. -/
  | foundNonDigit (text : String) (char : Char)
  /-- The text was read. -/
  | readOperands (text : String) (operands : List Nat)
  /-- A search from the command line begins. -/
  | combining (operands : List Nat)
  /-- There are no operands. -/
  | noOperands
  /-- An operand is no digit. -/
  | operandTooLarge (operand : Nat)
  /-- A search begins. -/
  | synthesizing (operands : List Nat)
  /-- The enumeration of orderings begins. -/
  | permuting (items : Nat)
  /-- The orderings are searched apart. -/
  | searchingApart (orderings : Nat)
  /-- A registry was changed. -/
  | changed (change : Change)
  /-- An ordering was searched. -/
  | searchedOrdering (index evaluated improved : Nat)
  /-- The search is over. -/
  | synthesized (evaluated improved reached : Nat)
  /-- No target was reached. -/
  | nothingReached

/-- The text of a list of operands. -/
def operandsText (operands : List Nat) : String :=
  "[" ++ ", ".intercalate (operands.map toString) ++ "]"

/-- The text of a change: of the first answer to a target, or of a better one. -/
def Change.message (c : Change) : String :=
  match c.former with
  | none => s!"Reached {c.target.val} at rank {c.answer.rank} via {c.answer.text}"
  | some former =>
    s!"Improved {c.target.val}: rank {former} -> {c.answer.rank} via {c.answer.text}"

namespace Event

/-- The level of an event. -/
def level : Event → Level
  | noDigits | foundNonDigit _ _ | noOperands | operandTooLarge _ | nothingReached => .warn
  | combining _ | synthesizing _ | searchingApart _ | synthesized _ _ _ => .info
  | readOperands _ _ | permuting _ | searchedOrdering _ _ _ => .debug
  | checkingDigits _ | changed _ => .trace

/-- The text of an event. -/
def message : Event → String
  | checkingDigits text => s!"Validating operand string '{text}'"
  | noDigits => "No operand digits given"
  | foundNonDigit text char =>
    s!"Operand string '{text}' contains non-digit {Text.quotedChar char}"
  | readOperands text operands => s!"Parsed '{text}' into operands {operandsText operands}"
  | combining operands => s!"Combining operands {operandsText operands}"
  | noOperands => "No operands supplied"
  | operandTooLarge operand => s!"Operand {operand} is not a single digit"
  | synthesizing operands =>
    s!"Synthesizing expressions from operands {operandsText operands}"
  | permuting items => s!"Permuting {items} items"
  | searchingApart orderings => s!"Searching {orderings} permutations in parallel"
  | changed change => change.message
  | searchedOrdering index evaluated improved =>
    s!"Permutation {index}: {evaluated} expressions, {improved} improvements"
  | synthesized evaluated improved reached =>
    s!"Evaluated {evaluated} expressions, {improved} improvements, {reached} results reached"
  | nothingReached => "No value in range is reachable"

end Event

/-! ## Keeping a journal -/

/-- A computation that keeps a journal. -/
abbrev Journaled := StateM (Array Event)

/-- Enters an event into the journal. -/
def note (event : Event) : Journaled Unit := modify (·.push event)

end DigitReach

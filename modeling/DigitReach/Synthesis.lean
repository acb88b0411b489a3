import DigitReach.Enumeration.Bracketings
import DigitReach.Enumeration.Orderings
import DigitReach.Enumeration.Recipe
import DigitReach.Operands

/-!
# Synthesis

A synthesis finds the best expression for every target that the operands can reach.
It goes through the orderings of the operands, through the bracketings of each
ordering, and through the expressions of each bracketing, and offers every expression
to a registry (`searchOrdering`).

The orderings are searched in turn, with one registry for all of them, or apart, each
with a registry of its own; then the registries are merged in the order of the
orderings. Since a merge keeps the earlier of two answers of equal rank, both ways
find the same answers. Searches apart do not depend on each other, and may go on at
the same time.
-/

namespace DigitReach

/-- Why there is no synthesis. -/
inductive SynthesisError where
  /-- There are no operands. -/
  | noOperands
  /-- An operand is no digit. -/
  | operandTooLarge (operand : Nat)
  /-- There is nothing to arrange. -/
  | enumeration (error : EnumerationError)
  /-- The operands cannot be read. -/
  | digits (error : DigitsError)
deriving DecidableEq, Repr

/-- The wording of an error. -/
def SynthesisError.message : SynthesisError → String
  | noOperands => "At least one operand is required"
  | operandTooLarge operand => s!"Operand {operand} is not a single digit (0-{maxOperand})"
  | enumeration error => s!"Enumeration error: {error.message}"
  | digits error => s!"Utils error: {error.message}"

/-- How many expressions were evaluated, and how many changed the registry. -/
structure Stats where
  /-- The expressions that were evaluated. -/
  evaluated : Nat
  /-- The expressions that changed the registry. -/
  improved : Nat
deriving DecidableEq, Repr

namespace Stats

/-- Nothing was evaluated. -/
def zero : Stats := ⟨0, 0⟩

/-- The counts of two searches together. -/
def add (s t : Stats) : Stats := ⟨s.evaluated + t.evaluated, s.improved + t.improved⟩

instance : Add Stats := ⟨add⟩

end Stats

/-! ## Searching one ordering -/

/-- What a search has found so far. -/
structure Findings where
  /-- The best answers. -/
  registry : Registry
  /-- What the search has evaluated and improved. -/
  stats : Stats
  /-- The changes it has made, in order. -/
  changes : Array Change

namespace Findings

/-- The start of a search that goes on from a registry. -/
def start (registry : Registry) : Findings := ⟨registry, .zero, #[]⟩

/-- Evaluates an expression and offers it. -/
def offer (f : Findings) (e : Expr) : Findings :=
  match f with
  | ⟨registry, stats, changes⟩ =>
    match registry.offer e with
    | (registry, none) => ⟨registry, stats + ⟨1, 0⟩, changes⟩
    | (registry, some change) => ⟨registry, stats + ⟨1, 1⟩, changes.push change⟩

/-- Offers all expressions of a recipe. -/
def offerAll (f : Findings) (recipe : Recipe) : Findings := recipe.expressions.foldl offer f

end Findings

/-- Searches one ordering of the operands: offers the expressions of all its
    bracketings. -/
def searchOrdering (registry : Registry) (ordering : List Recipe) :
    Except EnumerationError Findings := do
  let trees ← bracketings? Recipe.node ordering
  return trees.foldl Findings.offerAll (.start registry)

/-- Enters the changes of a search into the journal. -/
def noteChanges (changes : Array Change) : Journaled Unit :=
  modify (· ++ changes.map .changed)

/-! ## Searching all orderings -/

/-- The orderings of some items, with an entry in the journal. -/
def beginOrderings {α : Type} (items : List α) :
    ExceptT EnumerationError Journaled (Orderings α) := do
  let orderings ← Orderings.of? items
  note (.permuting items.length)
  return orderings

/-- Searches orderings in turn, the first of them having a given number, and each going
    on from what was found before. -/
def searchInTurn (index : Nat) (registry : Registry) (stats : Stats) :
    LazyList (List Recipe) → ExceptT EnumerationError Journaled (Registry × Stats)
  | .nil => return (registry, stats)
  | .cons ordering rest => do
    let found ← searchOrdering registry ordering
    noteChanges found.changes
    note (.searchedOrdering index found.stats.evaluated found.stats.improved)
    searchInTurn (index + 1) found.registry (stats + found.stats) (rest ())

/-- Searches orderings apart, and merges what was found in their order. -/
def searchApart (orderings : List (List Recipe)) :
    ExceptT EnumerationError Journaled (Registry × Stats) := do
  note (.searchingApart orderings.length)
  let parts ← orderings.mapM fun ordering =>
    (searchOrdering .empty ordering : Except EnumerationError Findings)
  noteChanges (parts.toArray.flatMap Findings.changes)
  return parts.foldl (fun (registry, stats) part =>
    (registry.merge part.registry, stats + part.stats)) (.empty, .zero)

/-! ## Synthesis -/

/-- How the orderings are searched. -/
inductive Mode where
  /-- In turn, with one registry. -/
  | inTurn
  /-- Apart, each with a registry of its own. -/
  | apart
deriving DecidableEq, Repr

/-- Refuses operands that are no digits, and an empty list of them. -/
def checkOperands (operands : List Nat) : ExceptT SynthesisError Journaled Unit := do
  if operands.isEmpty then
    note .noOperands
    throw .noOperands
  match operands.find? (maxOperand < ·) with
  | none => pure ()
  | some operand =>
    note (.operandTooLarge operand)
    throw (.operandTooLarge operand)

/-- Searches all orderings of some recipes. -/
def searchAll (mode : Mode) (leaves : List Recipe) :
    ExceptT EnumerationError Journaled (Registry × Stats) := do
  let orderings ← beginOrderings leaves
  match mode with
  | .inTurn => searchInTurn 0 .empty .zero orderings.remaining
  | .apart => searchApart orderings.remaining.toList

/-- The best expressions that use each operand once. -/
def synthesize (mode : Mode) (operands : List Nat) :
    ExceptT SynthesisError Journaled Registry := do
  checkOperands operands
  note (.synthesizing operands)
  let leaves := operands.map fun operand => Recipe.leaf (Float.ofNat operand)
  let (registry, stats) ← (searchAll mode leaves).adapt SynthesisError.enumeration
  note (.synthesized stats.evaluated stats.improved registry.size)
  return registry

/-- The best expressions that use each digit of a text once, the orderings being searched
    in turn. -/
def synthesizeDigits (text : String) : ExceptT SynthesisError Journaled Registry := do
  let operands ← (readOperands text).adapt SynthesisError.digits
  synthesize .inTurn operands

end DigitReach

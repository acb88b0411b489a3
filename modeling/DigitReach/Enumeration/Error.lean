/-!
# Nothing to enumerate

Orderings and bracketings are those of at least one thing.
-/

namespace DigitReach

/-- Why an enumeration is refused. -/
inductive EnumerationError where
  /-- There is nothing to arrange. -/
  | emptySequence
deriving DecidableEq, Repr

/-- The wording of a refusal. -/
def EnumerationError.message : EnumerationError → String
  | emptySequence => "Cannot enumerate an empty sequence"

end DigitReach

import DigitReach.Registry

/-!
# Reports

A report is a table of the targets that were reached, in ascending order, with the
rank and the text of the answer to each. Under it stands how many were reached and,
if asked for, which were not.

The columns are two blanks apart. Values and ranks are aligned to the right, and the
rule under the heading is as long as the longest line of the table.
-/

namespace DigitReach

namespace Report

/-- The width of the column of values. -/
def valueWidth : Nat := 5

/-- The width of the column of ranks. -/
def rankWidth : Nat := 4

/-- The heading of the column of texts. -/
def textHeading : String := "expression"

/-- A text with blanks in front, up to a width. -/
def alignRight (width : Nat) (text : String) : String :=
  "".pushn ' ' (width - text.length) ++ text

/-- A line of the table. -/
def row (value rank text : String) : String :=
  alignRight valueWidth value ++ "  " ++ alignRight rankWidth rank ++ "  " ++ text

/-- The line of a target and its answer. -/
def entryRow (target : Target) (answer : Answer) : String :=
  row (toString target.val) (toString answer.rank) answer.text

/-- The width of the column of texts. -/
def textWidth (r : Registry) : Nat :=
  (r.entries.map fun (_, answer) => answer.text.length).foldl max textHeading.length

/-- The rule under the heading. -/
def rule (r : Registry) : String :=
  "".pushn '-' (valueWidth + 2 + rankWidth + 2 + textWidth r)

/-- How many targets were reached. -/
def summary (r : Registry) : String := s!"{r.size} of {maxTarget + 1} values reachable"

/-- Which targets were not reached. -/
def missingLine (r : Registry) : String :=
  if r.missing.isEmpty then "missing: none"
  else "missing: " ++ ", ".intercalate (r.missing.map fun target => toString target.val)

/-- The lines of the report on a registry. -/
def lines (r : Registry) (showMissing : Bool) : List String :=
  [row "value" "rank" textHeading, rule r] ++
    (r.entries.map fun (target, answer) => entryRow target answer) ++
    [summary r] ++ if showMissing then [missingLine r] else []

/-- The report on a registry, each line with its end. -/
def text (r : Registry) (showMissing : Bool) : String :=
  String.join ((lines r showMissing).map (· ++ "\n"))

end Report

end DigitReach

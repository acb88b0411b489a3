import DigitReach.Numeral

/-!
# The shortest numeral of a double

Of the numerals that read back as a finite double, the shortest has the fewest
digits, and among those it is the nearest one; of two that are equally near it is
the greater in magnitude.

A numeral with few digits lies on a coarse decimal grid, one of the grids
`…, 100, 10, 1, 0.1, 0.01, …`. If any point of a grid reads back as `x`, so does
one of the two points next to `x`, since the values that read back as `x` form an
interval around it. So the search runs over the grids from the coarse to the fine,
and tests two points of each, unless both are further from `x` than the next double:

* a whole number below `2 ^ 53` is its own shortest numeral, for its neighbours
  are doubles as well;
* a greater whole number starts from a grid past its first digit, and ends at
  the latest on the grid `1`, which holds it;
* any other value, a number of steps of `2 ^ -bits`, has at least one place. It
  starts from a grid coarser than twice the value, so that no coarser grid has a
  point that reads as it, and ends at the latest on the grid `10 ^ -bits`, which
  holds it.

`decimal` is the text of a double: that of its shortest numeral, or the name of a
value that has none.
-/

namespace DigitReach

namespace Numeral

/-- The numeral reads as the double `x`. -/
def ReadsAs (n : Numeral) (x : Float) : Prop := n.toDouble.toBits = x.toBits

instance (n : Numeral) (x : Float) : Decidable (n.ReadsAs x) :=
  inferInstanceAs (Decidable (_ = _))

/-- Of the two grid points around `x`, the one that reads as `x`. If both do, it is
    the lower one exactly if that is the nearer. -/
def pick? (x : Float) (lower upper : Numeral) (lowerNearer : Bool) : Option Numeral :=
  if lower.ReadsAs x ∧ (lowerNearer ∨ ¬ upper.ReadsAs x) then some lower
  else if upper.ReadsAs x then some upper
  else none

/-- The shortest numeral of `x`, of magnitude `whole`, on the grids from `10 ^ zeros`
    down to `1`. A point reads as `x` only if it is within `step` of it, the spacing of
    the doubles above `x`. -/
def shortestWhole (x : Float) (whole step : Nat) : (zeros : Nat) → Numeral
  | 0 => ⟨Double.signed x, whole, 0⟩
  | zeros + 1 =>
    let grid := Nat.pow 10 (zeros + 1)
    let below := whole % grid
    let near := below ≤ step ∨ grid ≤ below + step
    let lower := ⟨Double.signed x, whole - below, 0⟩
    let upper := ⟨Double.signed x, whole - below + grid, 0⟩
    (if near then pick? x lower upper (2 * below < grid) else none).getD
      (shortestWhole x whole step zeros)

/-- The shortest numeral of `x`, of magnitude `steps / 2 ^ bits`, on the grids from
    `10 ^ -places`, each ten times finer than the one before. A point reads as `x` only if
    it is within a step of it, the spacing of the doubles above `x`. -/
def shortestFraction (x : Float) (steps bits : Nat) : (grids places : Nat) → Numeral
  | 0, places => ⟨Double.signed x, (steps * Nat.pow 10 places) >>> bits, places⟩
  | grids + 1, places =>
    let step := Nat.pow 10 places
    let scaled := steps * step
    let digits := scaled >>> bits
    let below := scaled - digits <<< bits
    let grid := Nat.pow 2 bits
    let near := below ≤ step ∨ grid ≤ below + step
    let lower := ⟨Double.signed x, digits, places⟩
    let upper := ⟨Double.signed x, digits + 1, places⟩
    (if near then pick? x lower upper (2 * below < grid) else none).getD
      (shortestFraction x steps bits grids (places + 1))

/-- The first grid `10 ^ -places` to search for a value of `steps / 2 ^ bits`. Ten bits
    are more than three places, so the grid is coarser than twice the value, unless it
    is the first with a place at all. -/
def firstPlaces (steps bits : Nat) : Nat := max 1 ((bits - steps.log2 - 2) * 3 / 10)

/-- The shortest numeral of a finite double. -/
def shortest (x : Float) : Numeral :=
  let steps := Double.significand x
  if Double.unitBits < Double.scale x then
    let above := Double.scale x - Double.unitBits
    let whole := steps <<< above
    shortestWhole x whole (Nat.pow 2 above) (digitsOf whole).length
  else
    let bits := Double.unitBits - Double.scale x
    let whole := steps >>> bits
    if whole <<< bits = steps then ⟨Double.signed x, whole, 0⟩
    else
      let places := firstPlaces steps bits
      shortestFraction x steps bits (bits - places) places

end Numeral

/-! ## The text of a double -/

/-- The text of a double, as characters: its shortest numeral, `inf` with its sign,
    or `NaN`. -/
def decimalChars (x : Float) : List Char :=
  if x.isNaN then ['N', 'a', 'N']
  else if x.isInf then (if Double.signed x then ['-'] else []) ++ ['i', 'n', 'f']
  else (Numeral.shortest x).chars

/-- The text of a double. -/
def decimal (x : Float) : String := String.ofList (decimalChars x)

end DigitReach

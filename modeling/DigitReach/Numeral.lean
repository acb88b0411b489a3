import DigitReach.Double
import DigitReach.Numeral.Digits

/-!
# Numerals

A numeral is a sign, a whole number of digits and the count of those that stand
behind the point: `-1.50` has the digits `150`, two of them behind the point. It
has no exponent, so its text is as long as its places demand.

* `Numeral.chars` writes a numeral: a minus sign if it has one, the digits before
  the point (at least one), and behind a point as many digits as it has places;
* `Numeral.read?` reads such a text, and nothing else. Zeros in front of the
  digits are allowed, so a value has more than one text;
* `Numeral.toDouble` is the double nearest to the value.
-/

namespace DigitReach

/-- The value `± digits / 10 ^ places`. -/
structure Numeral where
  /-- The numeral has a minus sign. -/
  negative : Bool
  /-- All digits, read as one number. -/
  digits : Nat
  /-- The digits that stand behind the point. -/
  places : Nat
deriving DecidableEq, Repr

namespace Numeral

/-! ## Writing -/

/-- The text of a numeral, as characters. -/
def chars (n : Numeral) : List Char :=
  let sign := if n.negative then ['-'] else []
  let whole := digitsOf (n.digits / Nat.pow 10 n.places)
  let fraction := if n.places = 0 then [] else '.' :: lowDigits n.digits n.places
  sign ++ whole ++ fraction

/-! ## Reading -/

/-- Reads digits, at least one, with an optional fraction of at least one digit. -/
def readUnsigned? (negative : Bool) (cs : List Char) : Option Numeral :=
  let whole := cs.takeWhile Char.isDigit
  match whole, cs.dropWhile Char.isDigit with
  | [], _ => none
  | _ :: _, [] => some ⟨negative, Nat.ofDigitChars 10 whole 0, 0⟩
  | _ :: _, '.' :: fraction =>
    if !fraction.isEmpty && fraction.all Char.isDigit then
      some ⟨negative, Nat.ofDigitChars 10 (whole ++ fraction) 0, fraction.length⟩
    else none
  | _ :: _, _ :: _ => none

/-- Reads the text of a numeral: an optional minus sign, digits, and an optional
    fraction. -/
def read? : List Char → Option Numeral
  | '-' :: cs => readUnsigned? true cs
  | cs => readUnsigned? false cs

/-! ## Value -/

/-- The double nearest to the value of a numeral. -/
def toDouble (n : Numeral) : Float := Double.ofRatio n.negative n.digits (Nat.pow 10 n.places)

end Numeral

end DigitReach

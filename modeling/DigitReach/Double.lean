/-!
# Doubles as whole numbers of the least one

Every finite double is a whole number of *units*, the unit being the least
positive double, `2 ^ -1074`. So questions about doubles and decimals become
questions about natural numbers: the magnitude of `x` is `units x / 2 ^ 1074`,
and the double nearest to a ratio is found by one division with remainder.

The magnitude bits of a double (all bits but the sign) grow with its magnitude.
Below `2 ^ 53` units they are the number of units itself; from there on, each
block of `2 ^ 52` bit patterns doubles the spacing:

* `units` reads the number of units off the magnitude bits, by way of the
  `significand` and the `scale`;
* `nearestBits` gives the magnitude bits of the double nearest to a ratio, a
  half going to the even significand, and those of infinity past the largest
  double;
* `ofRatio` is the double itself, with a sign.
-/

namespace DigitReach

namespace Double

/-- The units in one: `2 ^ unitBits` units make `1`. -/
def unitBits : Nat := 1074

/-- The bits of a significand behind its leading one. -/
def fractionBits : Nat := 52

/-- The magnitude bits of infinity. -/
def infinityBits : Nat := 0x7ff * Nat.pow 2 fractionBits

/-- The bit that holds the sign. -/
def signBit : Nat := Nat.pow 2 63

/-- All bits of `x` but its sign. -/
def magnitudeBits (x : Float) : Nat := x.toBits.toNat % signBit

/-- The sign bit of `x` is set. It is set for `-0`, and clear for `NaN`. -/
def signed (x : Float) : Bool := signBit ≤ x.toBits.toNat

/-- The significand of a finite double, a number below `2 ^ 53`. -/
def significand (x : Float) : Nat :=
  let bits := magnitudeBits x
  let leading := Nat.pow 2 fractionBits
  if bits < leading then bits else leading + bits % leading

/-- The scale of a finite double: its significand counts `2 ^ scale` units. -/
def scale (x : Float) : Nat := magnitudeBits x / Nat.pow 2 fractionBits - 1

/-- The units in the magnitude of a finite double. -/
def units (x : Float) : Nat := significand x <<< scale x

/-- The quotient of two numbers rounded to the nearest whole number, a half going
    to the even one. -/
def divideEven (num den : Nat) : Nat :=
  let quotient := num / den
  let twice := 2 * (num % den)
  if twice > den ∨ (twice = den ∧ quotient % 2 = 1) then quotient + 1 else quotient

/-- The magnitude bits of the double nearest to `num / den`, for a positive `den`.

    The spacing around the ratio is `2 ^ scale` units. The significand, which is the
    ratio in steps of that spacing, lands in the block of bit patterns that has it; if
    it is rounded up past the end of the block, it is the first of the next one. Of the
    two shifts that turn the ratio into such steps, one is by nothing. -/
def nearestBits (num den : Nat) : Nat :=
  let scale := ((num <<< unitBits) / den).log2 - fractionBits
  let significand := divideEven (num <<< (unitBits - scale)) (den <<< (scale - unitBits))
  min (scale <<< fractionBits + significand) infinityBits

/-- The double nearest to `num / den`, with its sign. -/
def ofRatio (negative : Bool) (num den : Nat) : Float :=
  let bits := nearestBits num den
  Float.ofBits (UInt64.ofNat (if negative then signBit + bits else bits))

/-- The value of what has none, such as the square root of a negative number. -/
def undefined : Float := Float.ofBits 0x7ff8000000000000

end Double

end DigitReach

import DigitReach.Expr.Basic
import DigitReach.Factorial
import DigitReach.Numeral.Shortest

/-!
# The value of an expression

Every expression has a value, a double: where arithmetic has none, it is `NaN` or
an infinity, which the enclosing expressions work on. The arithmetic is that of
doubles, with these additions:

* the factorial is that of a whole number up to `9`, and `NaN` otherwise;
* the power is that of IEEE 754 (`Double.pow`), where any base to the power zero,
  even `NaN`, is one. There one to any power, even `NaN`, would be one too; but a
  base of magnitude one has no power here if the exponent is not finite
  (`Double.power`), so that `NaN` in an exponent always yields `NaN`;
* a concatenation is the numeral that the texts of both values make side by side,
  and `NaN` if they make none (`2` and `-3`, `1.5` and `2.5`).
-/

namespace DigitReach

/-- The whole number in `0 … limit` that `x` is equal to, if there is one. -/
def wholeUpTo? (limit : Nat) (x : Float) : Option (Fin (limit + 1)) :=
  let n := x.toUInt64
  if h : n.toNat ≤ limit then
    if n.toFloat == x then some ⟨n.toNat, Nat.lt_succ_of_le h⟩ else none
  else none

/-- The largest number that has a factorial here. -/
def maxFactorial : Nat := 9

namespace Double

/-- The factorial of a whole number from `0` to `9`. -/
def factorial (x : Float) : Float :=
  match wholeUpTo? maxFactorial x with
  | some n => Float.ofNat (factorialNat n)
  | none => undefined

/-- The power of IEEE 754, which has special cases: any base to the power zero is one, and so
    is one to any power; and any other power of `NaN`, or with `NaN` for an exponent, is `NaN`. -/
def pow (base exponent : Float) : Float :=
  if exponent == 0 || base == 1 then 1
  else if base.isNaN || exponent.isNaN then undefined
  else Float.pow base exponent

/-- The power, undefined for a base of magnitude one with an exponent that is not
    finite. -/
def power (base exponent : Float) : Float :=
  if base.abs == 1 && !exponent.isFinite then undefined
  else pow base exponent

/-- The value of two numerals side by side. -/
def juxtapose (left right : Float) : Float :=
  match Numeral.read? (decimalChars left ++ decimalChars right) with
  | some n => n.toDouble
  | none => undefined

end Double

namespace Operator

/-- What an operator does to the values of its two sides. -/
def apply : Operator → Float → Float → Float
  | add => (· + ·)
  | subtract => (· - ·)
  | multiply => (· * ·)
  | divide => (· / ·)
  | power => Double.power

end Operator

namespace Expr

/-- The value of an expression. -/
def value : Expr → Float
  | constant x => x
  | concat l r => Double.juxtapose l.value r.value
  | sqrt e => e.value.sqrt
  | factorial e => Double.factorial e.value
  | binary o l r => o.apply l.value r.value

end Expr

end DigitReach

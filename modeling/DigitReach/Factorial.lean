/-!
# Factorials of natural numbers

The factorial counts the orderings of so many things, and is the value of a
factorial sign behind a digit.
-/

namespace DigitReach

/-- The product `1 * 2 * … * n`. -/
def factorialNat : Nat → Nat
  | 0 => 1
  | n + 1 => (n + 1) * factorialNat n

end DigitReach

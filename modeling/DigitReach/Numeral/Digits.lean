/-!
# Decimal digits

The digits of a number are written in blocks: the number is cut by a power of ten into
parts of `blockPlaces` digits, so that all but a few divisions are of small numbers.

* `lowDigits` writes the last digits of a number, as many as are asked for;
* `digitsOf` writes a number. By `digitsOf_eq` its digits are those that come from
  dividing by ten again and again, whatever the blocks.
-/

namespace DigitReach.Numeral

/-- The last `places` decimal digits of `n`, zeros included, in front of other
    characters. -/
def lowDigitsOnto (n : Nat) : (places : Nat) → List Char → List Char
  | 0, rest => rest
  | places + 1, rest => lowDigitsOnto (n / 10) places (Nat.digitChar (n % 10) :: rest)

/-- The last `places` decimal digits of `n`, zeros included. -/
def lowDigits (n places : Nat) : List Char := lowDigitsOnto n places []

theorem lowDigitsOnto_eq (n places : Nat) (rest : List Char) :
    lowDigitsOnto n places rest = lowDigits n places ++ rest := by
  induction places generalizing n rest with
  | zero => rfl
  | succ places ih =>
    rw [lowDigits, lowDigitsOnto, lowDigitsOnto, ih, ih (n / 10) [_], List.append_assoc]
    rfl

@[simp] theorem lowDigits_zero (n : Nat) : lowDigits n 0 = [] := rfl

theorem lowDigits_succ (n places : Nat) :
    lowDigits n (places + 1) = lowDigits (n / 10) places ++ [Nat.digitChar (n % 10)] := by
  rw [lowDigits, lowDigitsOnto, lowDigitsOnto_eq]

/-- The last digits do not depend on those in front of them. -/
theorem lowDigits_mod (n places : Nat) :
    lowDigits (n % Nat.pow 10 places) places = lowDigits n places := by
  induction places generalizing n with
  | zero => rfl
  | succ places ih =>
    have hpow : Nat.pow 10 (places + 1) = 10 * Nat.pow 10 places := Nat.mul_comm _ _
    rw [lowDigits_succ, lowDigits_succ, hpow, Nat.mod_mul_right_div_self, ih,
      Nat.mod_mul_right_mod]

/-- Written in two parts, a number has the digits it has as a whole, if there is anything
    in front of the last digits. -/
theorem toDigits_div_append_lowDigits {n places : Nat} (h : Nat.pow 10 places ≤ n) :
    Nat.toDigits 10 (n / Nat.pow 10 places) ++ lowDigits n places = Nat.toDigits 10 n := by
  induction places generalizing n with
  | zero => simp
  | succ places ih =>
    have hpow : Nat.pow 10 (places + 1) = 10 * Nat.pow 10 places := Nat.mul_comm _ _
    have hpos : 0 < Nat.pow 10 places := Nat.pow_pos (by decide)
    have hten : 10 ≤ n := by omega
    have hdiv : Nat.pow 10 places ≤ n / 10 := by omega
    rw [lowDigits_succ, hpow, ← Nat.div_div_eq_div_mul, ← List.append_assoc, ih hdiv,
      ← Nat.toDigits_of_base_le (by decide) hten]

/-! ## Blocks -/

/-- The digits of a block. -/
def blockPlaces : Nat := 18

/-- The decimal digits of `n`, in front of other characters: at most so many blocks from
    its end, and then what is left. -/
def digitsOnto : (blocks : Nat) → (n : Nat) → List Char → List Char
  | 0, n, rest => Nat.toDigits 10 n ++ rest
  | blocks + 1, n, rest =>
    if n < Nat.pow 10 blockPlaces then Nat.toDigits 10 n ++ rest
    else
      digitsOnto blocks (n / Nat.pow 10 blockPlaces)
        (lowDigitsOnto (n % Nat.pow 10 blockPlaces) blockPlaces rest)

/-- The decimal digits of `n`, the highest first. A block is more than `59` bits. -/
def digitsOf (n : Nat) : List Char := digitsOnto (n.log2 / 59) n []

theorem digitsOnto_eq (blocks n : Nat) (rest : List Char) :
    digitsOnto blocks n rest = Nat.toDigits 10 n ++ rest := by
  induction blocks generalizing n rest with
  | zero => rfl
  | succ blocks ih =>
    rw [digitsOnto]
    split
    · rfl
    · next h =>
      rw [ih, lowDigitsOnto_eq, lowDigits_mod, ← List.append_assoc,
        toDigits_div_append_lowDigits (Nat.le_of_not_lt h)]

theorem digitsOf_eq (n : Nat) : digitsOf n = Nat.toDigits 10 n := by
  rw [digitsOf, digitsOnto_eq, List.append_nil]

end DigitReach.Numeral

import DigitReach.Expr.Value
import DigitReach.Proofs.Accuracy
import DigitReach.Proofs.Numeral
import DigitReach.Proofs.Operands

/-!
# Whole numbers and their digits

The whole numbers below `2 ^ 53` are doubles, with their digits as the text
(`decimalChars_ofWhole`). So side by side they are read as the number that the digits of both
spell (`juxtapose_ofWhole`), and a number that is spelled by digits has these, but for zeros
in front.
-/

namespace DigitReach

open DigitReach.Numeral

namespace Double

/-- A whole number as a double, the nearest one if it is none. -/
def ofWhole (n : Nat) : Float := ofRatio false n 1

variable {x : Float} {n : Nat}

/-- The whole numbers below `2 ^ 53` are doubles. -/
theorem units_ofWhole (hn : n < 2 ^ 53) :
    (ofWhole n).isFinite ∧ units (ofWhole n) = n * 2 ^ unitBits := by
  obtain ⟨k, hbits, hle, hleading, hmany⟩ := exists_steps (n * 2 ^ unitBits) Nat.one_pos
  simp only [one_mul, mul_one] at hbits hle hleading hmany
  have hnearest : nearestBits n 1 = nearestBits (n * 2 ^ unitBits) (2 ^ unitBits) :=
    nearestBits_congr Nat.one_pos (by positivity) (mul_one _).symm
  -- The steps are not longer than a whole.
  have hk : k ≤ unitBits := by
    by_contra hlt
    have hlong : 2 ^ 53 * 2 ^ unitBits ≤ 2 ^ (k + 52) := by
      rw [← pow_add]
      exact pow_le_pow_right₀ one_le_two (by omega)
    have htotal := hlong.trans (hmany (by omega))
    exact absurd (Nat.le_of_mul_le_mul_right htotal (by positivity)) hn.not_ge
  have hsteps : divideEven (n * 2 ^ unitBits) (2 ^ k) = n * 2 ^ (unitBits - k) := by
    rw [← Nat.sub_add_cancel hk, pow_add, ← mul_assoc, divideEven_mul _ (by positivity),
      Nat.add_sub_cancel]
  have hfits : k * 2 ^ 52 + divideEven (n * 2 ^ unitBits) (2 ^ k) < infinityBits := by
    change _ < 2047 * 2 ^ 52
    change k ≤ 1074 at hk
    omega
  rw [min_eq_left hfits.le] at hbits
  have hmagnitude := (magnitudeBits_ofRatio false n 1).trans (hnearest.trans hbits)
  refine ⟨isFinite_iff.2 (hmagnitude ▸ hfits), ?_⟩
  rw [ofWhole, units_of_magnitudeBits hmagnitude hle hleading, hsteps, mul_assoc, ← pow_add,
    Nat.sub_add_cancel hk]

/-- Digits are whole numbers. -/
theorem ofNat_eq_ofWhole {d : Nat} (h : d ≤ maxOperand) : Float.ofNat d = ofWhole d := by
  have hall : ∀ d : Fin (maxOperand + 1), Float.ofNat d = ofWhole d := by decide +kernel
  exact hall ⟨d, Nat.lt_succ_of_le h⟩

end Double

open Double

/-! ## Texts -/

/-- A whole number below `2 ^ 53` is its own shortest numeral. -/
theorem Numeral.shortest_of_units {x : Float} {n : Nat} (h : units x = n * 2 ^ unitBits)
    (hn : n < 2 ^ 53) : shortest x = ⟨signed x, n, 0⟩ := by
  rw [units_eq] at h
  have hscale : scale x ≤ unitBits := by
    by_contra hlt
    have hleading := le_significand (x := x) (by omega)
    obtain ⟨k, hk⟩ := Nat.exists_eq_add_of_lt (not_le.1 hlt)
    have hn' : significand x * 2 ^ (k + 1) = n := by
      refine Nat.eq_of_mul_eq_mul_right (Nat.two_pow_pos unitBits) ?_
      rw [← h, mul_assoc, ← pow_add, hk, Nat.add_comm, Nat.add_assoc]
    have hlong := Nat.mul_le_mul hleading (Nat.pow_le_pow_right two_pos (Nat.le_add_left 1 k))
    omega
  have hsteps : significand x = n * 2 ^ (unitBits - scale x) := by
    refine Nat.eq_of_mul_eq_mul_right (Nat.two_pow_pos (scale x)) ?_
    rw [h, mul_assoc, ← pow_add, Nat.sub_add_cancel hscale]
  have hwhole : significand x >>> (unitBits - scale x) = n := by
    rw [hsteps, Nat.shiftRight_eq_div_pow, Nat.mul_div_cancel _ (by positivity)]
  rw [shortest]
  dsimp only
  rw [if_neg (by omega), hwhole, if_pos (by rw [hsteps, Nat.shiftLeft_eq])]

/-- The text of a whole number below `2 ^ 53` is its digits. -/
theorem decimalChars_ofWhole {n : Nat} (hn : n < 2 ^ 53) :
    decimalChars (ofWhole n) = digitsOf n := by
  obtain ⟨hfinite, hunits⟩ := units_ofWhole hn
  rw [decimalChars_of_isFinite hfinite, shortest_of_units hunits hn, ofWhole, signed_ofRatio,
    chars]
  simp

/-! ## Digits that spell a number -/

/-- Digits are read as the number that they spell. -/
theorem Numeral.read?_digits {cs : List Char} (hne : cs ≠ []) (hcs : ∀ c ∈ cs, c.isDigit) :
    read? cs = some ⟨false, Nat.ofDigitChars 10 cs 0, 0⟩ := by
  rw [read?, readUnsigned?_whole false hne hcs]
  rintro cs rfl
  exact absurd (hcs '-' List.mem_cons_self) (by decide)

theorem Numeral.digitsOf_of_lt_ten {d : Nat} (h : d < 10) : digitsOf d = [d.digitChar] := by
  rw [digitsOf_eq, Nat.toDigits_of_lt_base h]

/-- The digits of two numbers side by side are digits. -/
theorem Numeral.digitsOf_append_digitsOf (m n : Nat) :
    digitsOf m ++ digitsOf n ≠ [] ∧ ∀ c ∈ digitsOf m ++ digitsOf n, c.isDigit := by
  refine ⟨List.append_ne_nil_of_left_ne_nil (digitsOf_ne_nil m) _, ?_⟩
  rw [List.forall_mem_append]
  exact ⟨fun _ => isDigit_of_mem_digitsOf, fun _ => isDigit_of_mem_digitsOf⟩

/-- Whole numbers side by side are the number that the digits of both spell. -/
theorem Double.juxtapose_ofWhole {m n : Nat} (hm : m < 2 ^ 53) (hn : n < 2 ^ 53) :
    juxtapose (ofWhole m) (ofWhole n) =
      ofWhole (Nat.ofDigitChars 10 (digitsOf m ++ digitsOf n) 0) := by
  obtain ⟨hne, hdigits⟩ := digitsOf_append_digitsOf m n
  rw [juxtapose, decimalChars_ofWhole hm, decimalChars_ofWhole hn, read?_digits hne hdigits]
  rfl

end DigitReach

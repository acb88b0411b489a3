import DigitReach.Proofs.Double

/-!
# Rounding to the nearest double

The arithmetic of doubles computes a quotient `a / b` of natural numbers, in steps of some
power of two, together with what is left over, and rounds it. What comes out is the double
nearest to the quotient, as `nearestBits` has it, provided that the quotient was computed to
enough places:

* `nearestBits_congr`: the nearest double depends on the ratio only, and not on how it is
  given;
* `shiftRight_extended`: the bits that are kept of what is left over tell enough of it, so a
  quotient may be shifted to the right before it is rounded (`roundedMantissa_extended`);
* `toNat_pack_carry`: a significand that has been rounded is packed as the sum of its block
  and its place in the block, also if it was rounded up past the end of the block;
* `toNat_pack_roundWithAccuracy` puts them together.
-/

namespace DigitReach.Double

open Float.Model (Format totalExponent)
open Float.Model.UnpackedFloat

/-! ## The ratio -/

section

variable {a b a' b' num den num' den' : Nat}

theorem div_congr (hb : 0 < b) (hb' : 0 < b') (h : a * b' = a' * b) : a / b = a' / b' := by
  rw [← Nat.mul_div_mul_right a b hb', h, Nat.mul_comm b b', Nat.mul_div_mul_right a' b' hb]

/-- Rounding to a whole number depends on the ratio only. -/
theorem divideEven_congr (hb : 0 < b) (hb' : 0 < b') (h : a * b' = a' * b) :
    divideEven a b = divideEven a' b' := by
  have hrest : a % b * b' = a' % b' * b := by
    rw [← Nat.mul_mod_mul_right, h, Nat.mul_comm b b', Nat.mul_mod_mul_right]
  have hgt : 2 * (a % b) > b ↔ 2 * (a' % b') > b' := by
    rw [gt_iff_lt, gt_iff_lt, ← Nat.mul_lt_mul_right hb', ← Nat.mul_lt_mul_right hb (b := b'),
      Nat.mul_assoc, hrest, Nat.mul_assoc, Nat.mul_comm b b']
  have heq : 2 * (a % b) = b ↔ 2 * (a' % b') = b' := by
    rw [← Nat.mul_left_inj hb'.ne', ← Nat.mul_left_inj hb.ne' (b := 2 * (a' % b')),
      Nat.mul_assoc, hrest, Nat.mul_assoc, Nat.mul_comm b b']
  rw [divideEven, divideEven, div_congr hb hb' h]
  simp only [hgt, heq]

/-- The nearest double depends on the ratio only. -/
theorem nearestBits_congr (hden : 0 < den) (hden' : 0 < den') (h : num * den' = num' * den) :
    nearestBits num den = nearestBits num' den' := by
  have hunits : num <<< unitBits / den = num' <<< unitBits / den' := by
    refine div_congr hden hden' ?_
    rw [Nat.shiftLeft_eq, Nat.shiftLeft_eq, Nat.mul_right_comm, h, Nat.mul_right_comm]
  have hsignificand (scale : Nat) :
      divideEven (num <<< (unitBits - scale)) (den <<< (scale - unitBits)) =
        divideEven (num' <<< (unitBits - scale)) (den' <<< (scale - unitBits)) := by
    simp only [Nat.shiftLeft_eq]
    refine divideEven_congr (by positivity) (by positivity) ?_
    rw [Nat.mul_mul_mul_comm, h, Nat.mul_mul_mul_comm]
  rw [nearestBits, nearestBits, hunits]
  simp only [hsignificand]

end

/-! ## Mantissas with a rest -/

/-- The quotient of two numbers as a mantissa, with what is known of the rest. -/
def extended (a b : Nat) : ExtendedMantissa :=
  .ofMantissaAndAccuracy (a / b) (accuracyOfFraction (a % b) b)

section

variable {a b : Nat}

theorem extended_eq (a b : Nat) : extended a b =
    ⟨a / b, b ≤ 2 * (a % b) ∧ a % b ≠ 0, a % b ≠ 0 ∧ 2 * (a % b) ≠ b⟩ := by
  rw [extended, accuracyOfFraction]
  split
  · next h => simp [ExtendedMantissa.ofMantissaAndAccuracy, h]
  · next h =>
    rcases hcompare : compare (2 * (a % b)) b with _ | _ | _
    · have hlt := Nat.compare_eq_lt.1 hcompare
      simp [ExtendedMantissa.ofMantissaAndAccuracy, h, hlt.ne, hlt.not_ge]
    · have heq := Nat.compare_eq_eq.1 hcompare
      simp [ExtendedMantissa.ofMantissaAndAccuracy, h, heq]
    · have hgt := Nat.compare_eq_gt.1 hcompare
      simp [ExtendedMantissa.ofMantissaAndAccuracy, h, hgt.ne', hgt.le]

theorem roundedMantissa_extended (a : Nat) (hb : 0 < b) :
    (extended a b).roundedMantissa = divideEven a b := by
  rw [extended, divideEven, accuracyOfFraction]
  split
  · next h =>
    rw [h, if_neg (by omega)]
    rfl
  · next h =>
    rcases hcompare : compare (2 * (a % b)) b with _ | _ | _
    · have hlt := Nat.compare_eq_lt.1 hcompare
      rw [if_neg (by omega)]
      rfl
    · have heq := Nat.compare_eq_eq.1 hcompare
      change a / b + a / b % 2 = _
      split <;> omega
    · have hgt := Nat.compare_eq_gt.1 hcompare
      rw [if_pos (.inl hgt)]
      rfl

/-- A shift to the right divides once more. -/
theorem shiftRightOne_extended (a : Nat) (hb : 0 < b) :
    (extended a b).shiftRightOne = extended a (b * 2) := by
  have hrest : a % (b * 2) = a % b + b * (a / b % 2) := Nat.mod_mul
  have hlt := Nat.mod_lt a hb
  have hbits : (a / b % 2 ≠ 0 ↔ b * 2 ≤ 2 * (a % (b * 2)) ∧ a % (b * 2) ≠ 0) ∧
      ((b ≤ 2 * (a % b) ∧ a % b ≠ 0) ∨ (a % b ≠ 0 ∧ 2 * (a % b) ≠ b) ↔
        a % (b * 2) ≠ 0 ∧ 2 * (a % (b * 2)) ≠ b * 2) := by
    rcases Nat.mod_two_eq_zero_or_one (a / b) with heven | hodd
    · rw [hrest, heven]
      omega
    · rw [hrest, hodd]
      omega
  rw [extended_eq, extended_eq, ExtendedMantissa.shiftRightOne, Nat.div_div_eq_div_mul]
  simp only [← hbits.1, ← hbits.2, Bool.decide_or, ne_eq, decide_not]
  rfl

theorem shiftRight_extended (a : Nat) (hb : 0 < b) (n : Nat) :
    extended a b >>> n = extended a (b * 2 ^ n) := by
  change n.repeat ExtendedMantissa.shiftRightOne _ = _
  induction n with
  | zero => rw [Nat.repeat, pow_zero, Nat.mul_one]
  | succ n ih =>
    rw [Nat.repeat, ih, shiftRightOne_extended a (by positivity), pow_succ, Nat.mul_assoc]

end

/-! ## Packing -/

section

variable {s : Sign} {m : Nat} {e : Int}

theorem targetExponent_eq (e : Int) : Format.binary64.targetExponent e = max (e - 53) (-1074) :=
  rfl

/-- A double of a significand, which may be zero, and an exponent. -/
def ofSignificand (s : Sign) (m : Nat) (e : Int) : Float.Model.UnpackedFloat :=
  if h : m = 0 then .zero s else .finite s m e (Nat.pos_of_ne_zero h)

/-- The bits of a significand with an exponent: the significand is added to the blocks below
    it, and what is too great is infinity. -/
theorem toNat_pack_ofSignificand (hlt : m < 2 ^ 53) (k : Nat) (hk : e + 1074 = k)
    (hleading : m < 2 ^ 52 → k = 0) : (pack .binary64 (ofSignificand s m e)).toNat =
      s.toBitVec.toNat * 2 ^ 63 + min (k * 2 ^ 52 + m) infinityBits := by
  change _ = _ + min _ (2047 * 2 ^ 52)
  by_cases hzero : m = 0
  · have hk := hleading (by omega)
    rw [ofSignificand, dif_pos hzero, hzero, hk, pack, packedZero, toNat_packComponents]
    change _ + 0 * 2 ^ 52 + 0 = _
    omega
  have hlog : m.log2 = 52 ↔ 2 ^ 52 ≤ m := by
    rw [Nat.log2_eq_iff hzero]
    omega
  rw [ofSignificand, dif_neg hzero]
  by_cases hmax : k + 1 < 2047
  · rw [pack_finite _ (k + 1) (by omega) hmax, toNat_packComponents, BitVec.toNat_ofNat]
    by_cases hle : 2 ^ 52 ≤ m
    · rw [if_pos (hlog.2 hle), BitVec.toNat_ofNat]
      omega
    · have hzero := hleading (by omega)
      rw [if_neg (mt hlog.1 hle)]
      change _ + 0 * 2 ^ 52 + _ = _
      omega
  · have hbiased : (e + Format.binary64.exponentBias + (52 : Nat)).toNat = k + 1 := by
      change (e + 1023 + 52).toNat = _
      omega
    have hle : 2 ^ 11 ≤ k + 1 + 1 := by omega
    rw [pack, hbiased, if_pos hle, packedInfinity, toNat_packComponents]
    change _ + 2047 * 2 ^ 52 + 0 = _
    omega

/-- What is left to do with a rounded significand: if it has become too long, it is moved by
    one place. -/
def carry (s : Sign) (m : Nat) (e : Int) : Float.Model.UnpackedFloat :=
  let last := shiftToTargetExponent .binary64 m e .exact
  ofSignificand s last.1.mantissa last.2

theorem shiftToTargetExponent_of_lt (hlt : m < 2 ^ 53) (he : -1074 ≤ e) :
    shiftToTargetExponent .binary64 m e .exact = (⟨m, false, false⟩, e) := by
  have hlog : m.log2 ≤ 52 := by
    by_cases hzero : m = 0
    · rw [hzero, Nat.log2_zero]
      omega
    · have := (Nat.log2_lt hzero).2 hlt
      omega
  have hshift : (max ((m.log2 : Int) + 1 + e - 53) (-1074) - e).toNat = 0 := by omega
  rw [shiftToTargetExponent, targetExponent_eq, totalExponent, shiftToExponent, hshift]
  exact Prod.ext rfl (Int.add_zero e)

theorem shiftToTargetExponent_carry (he : -1074 ≤ e) :
    shiftToTargetExponent .binary64 (2 ^ 53) e .exact = (⟨2 ^ 52, false, false⟩, e + 1) := by
  have hshift : (max ((53 : Int) + 1 + e - 53) (-1074) - e).toNat = 1 := by omega
  have hlog : ((2 ^ 53 : Nat).log2 : Int) = 53 := congrArg Nat.cast Nat.log2_two_pow
  rw [shiftToTargetExponent, targetExponent_eq, totalExponent, shiftToExponent, hlog, hshift]
  rfl

theorem toNat_pack_carry (hle : m ≤ 2 ^ 53) (k : Nat) (hk : e + 1074 = k)
    (hleading : m < 2 ^ 52 → k = 0) : (pack .binary64 (carry s m e)).toNat =
      s.toBitVec.toNat * 2 ^ 63 + min (k * 2 ^ 52 + m) infinityBits := by
  rcases hle.lt_or_eq with hlt | rfl
  · rw [carry, shiftToTargetExponent_of_lt hlt (by omega),
      toNat_pack_ofSignificand hlt k hk hleading]
  · -- The next block begins where this one ends.
    have hnext : (k + 1) * 2 ^ 52 + 2 ^ 52 = k * 2 ^ 52 + 2 ^ 53 := by omega
    rw [carry, shiftToTargetExponent_carry (by omega)]
    change (pack _ (ofSignificand s (2 ^ 52) (e + 1))).toNat = _
    rw [toNat_pack_ofSignificand (by decide) (k + 1) (by omega) (by omega), hnext]

end

/-! ## Rounding -/

section

variable {a b num den : Nat} {e : Int}

/-- The exponent to which a quotient of two numbers is rounded, in steps of `2 ^ e`. -/
def target (a b : Nat) (e : Int) : Int :=
  Format.binary64.targetExponent (totalExponent (a / b) e)

theorem target_eq (a b : Nat) (e : Int) :
    target a b e = max ((a / b).log2 + 1 + e - 53) (-1074) := rfl

theorem log2_div_two_pow (m k : Nat) : (m / 2 ^ k).log2 = m.log2 - k := by
  rw [Nat.log2_eq_log_two, Nat.log2_eq_log_two, Nat.log_div_base_pow]

/-- The exponent of a quotient tells the block of the nearest double. -/
theorem scale_nearestBits (hb : 0 < b) (he : e ≤ target a b e) :
    ((a * 2 ^ e.toNat) <<< unitBits / (b * 2 ^ (-e).toNat)).log2 - fractionBits =
      (target a b e + 1074).toNat := by
  have hunitBits : unitBits = 1074 := rfl
  have hfractionBits : fractionBits = 52 := rfl
  rw [target_eq] at he ⊢
  rw [Nat.shiftLeft_eq]
  rcases Int.le_total (-1074) e with hle | hle
  · -- The quotient is a number of steps of `2 ^ i` units.
    obtain ⟨i, hi⟩ : ∃ i : Nat, e + 1074 = i := Int.eq_ofNat_of_zero_le (by omega)
    have hunits : a * 2 ^ e.toNat * 2 ^ unitBits / (b * 2 ^ (-e).toNat) = a * 2 ^ i / b := by
      have hsum : e.toNat + unitBits = i + (-e).toNat := by omega
      refine div_congr (by positivity) hb ?_
      rw [Nat.mul_assoc a, ← pow_add, hsum, pow_add]
      ring
    have hquotient : a * 2 ^ i / b / 2 ^ i = a / b := by
      rw [Nat.div_div_eq_div_mul, Nat.mul_div_mul_right _ _ (Nat.two_pow_pos i)]
    have hlog := log2_div_two_pow (a * 2 ^ i / b) i
    rw [hquotient] at hlog
    rw [hunits]
    by_cases hzero : a / b = 0
    · rw [hzero, Nat.log2_zero] at he hlog ⊢
      obtain rfl : i = 0 := by omega
      rw [pow_zero, Nat.mul_one, hzero, Nat.log2_zero]
      omega
    · have hle : 2 ^ i ≤ a * 2 ^ i / b := by
        by_contra hlt
        rw [← hquotient] at hzero
        exact hzero (Nat.div_eq_of_lt (Nat.lt_of_not_le hlt))
      have hge := (Nat.le_log2 ((Nat.two_pow_pos i).trans_le hle).ne').2 hle
      omega
  · -- A unit is a number of steps of the quotient.
    obtain ⟨j, hj⟩ : ∃ j : Nat, -e - 1074 = j := Int.eq_ofNat_of_zero_le (by omega)
    have hunits : a * 2 ^ e.toNat * 2 ^ unitBits / (b * 2 ^ (-e).toNat) = a / b / 2 ^ j := by
      have hsum : (-e).toNat = unitBits + j := by omega
      have hzero : e.toNat = 0 := by omega
      rw [Nat.div_div_eq_div_mul, hzero, hsum]
      refine div_congr (by positivity) (by positivity) ?_
      rw [pow_zero, pow_add]
      ring
    rw [hunits, log2_div_two_pow]
    omega

theorem div_le_divideEven (a b : Nat) : a / b ≤ divideEven a b := by
  rw [divideEven]
  split <;> omega

theorem divideEven_le (a b : Nat) : divideEven a b ≤ a / b + 1 := by
  rw [divideEven]
  split <;> omega

/-- The significand of the nearest double, before it is checked for its length. -/
def rounded (a b : Nat) (e : Int) : Nat := divideEven a (b * 2 ^ (target a b e - e).toNat)

/-- It has no more places than it should, but for the next power of two. -/
theorem rounded_le (he : e ≤ target a b e) : rounded a b e ≤ 2 ^ 53 := by
  rw [target_eq] at he
  have hlt : a / b < 2 ^ (target a b e - e).toNat * 2 ^ 53 := by
    rw [← pow_add]
    refine Nat.lt_log2_self.trans_le (Nat.pow_le_pow_right (by decide) ?_)
    rw [target_eq]
    omega
  have hlt := Nat.div_lt_of_lt_mul hlt
  rw [Nat.div_div_eq_div_mul] at hlt
  have hround := divideEven_le a (b * 2 ^ (target a b e - e).toNat)
  rw [rounded]
  omega

/-- It has as many places as it should, unless it is in the first block. -/
theorem target_of_rounded_lt (he : e ≤ target a b e) (hlt : rounded a b e < 2 ^ 52) :
    target a b e = -1074 := by
  by_contra hne
  have htarget := target_eq a b e
  obtain ⟨n, hn⟩ : ∃ n : Nat, target a b e - e = n := Int.eq_ofNat_of_zero_le (by omega)
  have hlog : (a / b).log2 = n + 52 := by omega
  have hzero : a / b ≠ 0 := by
    intro hzero
    rw [hzero, Nat.log2_zero] at hlog
    omega
  have hge : 2 ^ 52 ≤ a / b / 2 ^ n := by
    rw [Nat.le_div_iff_mul_le (by positivity), ← pow_add, Nat.add_comm, ← hlog]
    exact Nat.log2_self_le hzero
  rw [Nat.div_div_eq_div_mul] at hge
  rw [rounded, hn, Int.toNat_natCast] at hlt
  have hround := div_le_divideEven a (b * 2 ^ n)
  omega

/-- The nearest double to a quotient in steps of `2 ^ e`. -/
theorem nearestBits_eq (hb : 0 < b) (he : e ≤ target a b e) :
    nearestBits (a * 2 ^ e.toNat) (b * 2 ^ (-e).toNat) =
      min ((target a b e + 1074).toNat * 2 ^ 52 + rounded a b e) infinityBits := by
  have hunitBits : unitBits = 1074 := rfl
  have htarget := target_eq a b e
  rw [nearestBits, scale_nearestBits hb he, rounded, Nat.shiftLeft_eq, Nat.shiftLeft_eq,
    Nat.shiftLeft_eq]
  generalize target a b e = t at he htarget ⊢
  obtain ⟨k, hk⟩ : ∃ k : Nat, t + 1074 = k := Int.eq_ofNat_of_zero_le (by omega)
  obtain ⟨n, hn⟩ : ∃ n : Nat, t - e = n := Int.eq_ofNat_of_zero_le (by omega)
  rw [hk, hn, Int.toNat_natCast, Int.toNat_natCast]
  have hsum : e.toNat + (unitBits - k) + n = (-e).toNat + (k - unitBits) := by omega
  have hratio : a * 2 ^ e.toNat * 2 ^ (unitBits - k) * (b * 2 ^ n) =
      a * (b * 2 ^ (-e).toNat * 2 ^ (k - unitBits)) := by
    calc _ = a * b * 2 ^ (e.toNat + (unitBits - k) + n) := by
          rw [pow_add, pow_add]
          ring
      _ = _ := by
          rw [hsum, pow_add]
          ring
  rw [divideEven_congr (by positivity) (by positivity) hratio]
  rfl

theorem roundWithAccuracy_eq (s : Sign) (hb : 0 < b) (he : e ≤ target a b e) :
    roundWithAccuracy .binary64 s (a / b) e (accuracyOfFraction (a % b) b) =
      carry s (rounded a b e) (target a b e) := by
  change carry s ((extended a b >>> (target a b e - e).toNat).roundedMantissa)
    (e + (target a b e - e).toNat) = _
  rw [shiftRight_extended a hb, roundedMantissa_extended a (by positivity), rounded]
  congr 1
  omega

/-- A quotient that was computed to enough places is rounded to the nearest double. -/
theorem toNat_pack_roundWithAccuracy (s : Sign) (hb : 0 < b) (he : e ≤ target a b e)
    (hden : 0 < den) (hratio : a * 2 ^ e.toNat * den = num * (b * 2 ^ (-e).toNat)) :
    (pack .binary64
      (roundWithAccuracy .binary64 s (a / b) e (accuracyOfFraction (a % b) b))).toNat =
        s.toBitVec.toNat * 2 ^ 63 + nearestBits num den := by
  have htarget := target_eq a b e
  rw [roundWithAccuracy_eq s hb he, ← nearestBits_congr (by positivity) hden hratio,
    nearestBits_eq hb he]
  refine toNat_pack_carry (rounded_le he) _ (by omega) fun hlt => ?_
  rw [target_of_rounded_lt he hlt]
  rfl

end

end DigitReach.Double

import DigitReach.Proofs.Arithmetic

/-!
# The error of rounding

The double nearest to a number is not far from it: by at most one part in `2 ^ 53`, and half
the least double (`abs_nearest_sub_le`). So a result that is known to be a whole number may be
known by its error alone. This is what happens to `x * (y / z)`: if `x`, `z` and `x * y` are
whole, a whole number that it is near to is the only one, and `x * y / z` is this number too
(`mul_div_assoc_of_whole`), although `y / z` has been rounded.
-/

namespace DigitReach.Double

/-! ## The nearest double is near -/

section

variable {x : Float} {k m num den : Nat}

/-- Rounding to a whole number changes a ratio by at most a half. -/
theorem abs_divideEven_sub_le (a : Nat) {b : Nat} (hb : 0 < b) :
    |(divideEven a b : ℚ) - a / b| ≤ 1 / 2 := by
  have hrest := Nat.div_add_mod' a b
  have hlt := Nat.mod_lt a hb
  have hbound : 2 * (divideEven a b * b) ≤ 2 * a + b ∧ 2 * a ≤ 2 * (divideEven a b * b) + b := by
    rw [divideEven]
    split
    · rw [Nat.add_mul, Nat.one_mul]
      omega
    · omega
  have hlower : (2 * (divideEven a b * b) : ℚ) ≤ 2 * a + b := by exact_mod_cast hbound.1
  have hupper : (2 * a : ℚ) ≤ 2 * (divideEven a b * b) + b := by exact_mod_cast hbound.2
  have hpos : (0 : ℚ) < b := Nat.cast_pos.2 hb
  have hdiff : (divideEven a b : ℚ) - a / b = (divideEven a b * b - a) / b := by
    field_simp
  rw [hdiff, abs_div, abs_of_pos hpos, div_le_iff₀ hpos, abs_le]
  constructor <;> linarith

/-- A block, and a place in the block or the first one of the next block, tell the units. -/
theorem units_of_magnitudeBits (h : magnitudeBits x = k * 2 ^ 52 + m) (hle : m ≤ 2 ^ 53)
    (hleading : m < 2 ^ 52 → k = 0) : units x = m * 2 ^ k := by
  have hplace := scale_add_significand x
  have hlt := significand_lt x
  have hfull := le_significand (x := x)
  rw [units_eq]
  rcases hle.lt_or_eq with hlt' | rfl
  · obtain ⟨hscale, hsignificand⟩ : scale x = k ∧ significand x = m := by omega
    rw [hscale, hsignificand]
  · obtain ⟨hscale, hsignificand⟩ : scale x = k + 1 ∧ significand x = 2 ^ 52 := by omega
    rw [hscale, hsignificand, pow_succ']
    ring

/-- A ratio, given in units, is rounded to steps of `2 ^ k` of them: to single units, or to
    steps that are so long because there are enough of them. -/
theorem exists_steps (a : Nat) (hden : 0 < den) : ∃ k : Nat,
    let m := divideEven a (den * 2 ^ k)
    nearestBits a (den * 2 ^ unitBits) = min (k * 2 ^ 52 + m) infinityBits ∧
      m ≤ 2 ^ 53 ∧ (m < 2 ^ 52 → k = 0) ∧ (k ≠ 0 → 2 ^ (k + 52) * den ≤ a) := by
  obtain ⟨e, he⟩ : ∃ e : Int, e = -unitBits := ⟨_, rfl⟩
  have hleast : e = -1074 := he
  have htarget := target_eq a den e
  obtain ⟨k, hk⟩ : ∃ k : Nat, target a den e - e = k := Int.eq_ofNat_of_zero_le (by omega)
  have hle : e ≤ target a den e := by omega
  have hrounded : rounded a den e = divideEven a (den * 2 ^ k) := by
    rw [rounded, hk, Int.toNat_natCast]
  refine ⟨k, ?_, hrounded ▸ rounded_le hle, fun hlt => ?_, fun hne => ?_⟩
  · have hblock : (target a den e + 1074).toNat = k := by omega
    have hexponents : e.toNat = 0 ∧ (-e).toNat = unitBits := by
      rw [he]
      exact ⟨rfl, rfl⟩
    have hbits := nearestBits_eq hden hle
    rwa [hexponents.1, hexponents.2, pow_zero, mul_one, hblock, hrounded] at hbits
  · have hfirst := target_of_rounded_lt hle (hrounded ▸ hlt)
    omega
  · have hlog : (a / den).log2 = k + 52 := by omega
    have hquotient : a / den ≠ 0 := by
      intro hzero
      rw [hzero, Nat.log2_zero] at hlog
      omega
    rw [← Nat.le_div_iff_mul_le hden, ← hlog]
    exact Nat.log2_self_le hquotient

/-- In units, the nearest double is as far from the ratio as rounding moves it. -/
theorem abs_units_sub_le {a : Nat} (hden : 0 < den)
    (h : magnitudeBits x = nearestBits a (den * 2 ^ unitBits)) (hfinite : x.isFinite) :
    |(units x : ℚ) - a / den| ≤ a / den / 2 ^ 53 + 1 / 2 := by
  obtain ⟨k, hbits, hle, hleading, hmany⟩ := exists_steps a hden
  have hplace : magnitudeBits x = k * 2 ^ 52 + divideEven a (den * 2 ^ k) := by
    have hlt := isFinite_iff.1 hfinite
    rw [h, hbits] at hlt ⊢
    omega
  have hscaled : ((divideEven a (den * 2 ^ k) * 2 ^ k : Nat) : ℚ) - a / den =
      (divideEven a (den * 2 ^ k) - a / (den * 2 ^ k : Nat)) * 2 ^ k := by
    push_cast
    field_simp
  have hstep : (2 : ℚ) ^ k / 2 ≤ a / den / 2 ^ 53 + 1 / 2 := by
    have hnonneg : (0 : ℚ) ≤ a / den / 2 ^ 53 := by positivity
    by_cases hk : k = 0
    · rw [hk, pow_zero]
      linarith
    · have hmany : (2 : ℚ) ^ (k + 52) * den ≤ a := by exact_mod_cast hmany hk
      rw [← le_div_iff₀ (Nat.cast_pos.2 hden), pow_add] at hmany
      linarith
  rw [units_of_magnitudeBits hplace hle hleading]
  calc _ = |(divideEven a (den * 2 ^ k) : ℚ) - a / (den * 2 ^ k : Nat)| * 2 ^ k := by
        rw [hscaled, abs_mul, abs_of_pos (by positivity : (0 : ℚ) < 2 ^ k)]
    _ ≤ 1 / 2 * 2 ^ k := by
        gcongr
        exact abs_divideEven_sub_le a (by positivity)
    _ = 2 ^ k / 2 := by ring
    _ ≤ _ := hstep

end

section

variable {negativeZero : Bool} {q : ℚ}

/-- The nearest double differs from the number by at most one part in `2 ^ 53` of it and half
    a unit. -/
theorem abs_nearest_sub_le (h : (nearest negativeZero q).isFinite) :
    |toRat (nearest negativeZero q) - q| ≤ |q| / 2 ^ 53 + 1 / 2 / 2 ^ unitBits := by
  have habs : |q| = q.num.natAbs / q.den := by
    rw [Nat.cast_natAbs, Int.cast_abs, ← Nat.abs_cast q.den, ← abs_div, Rat.num_div_den]
  have hratio : q.num.natAbs * (q.den * 2 ^ unitBits) =
      q.num.natAbs * 2 ^ unitBits * q.den := by ring
  have hbits := (magnitudeBits_ofRatio (if q = 0 then negativeZero else q < 0) _ _).trans
    (nearestBits_congr q.den_pos (by positivity) hratio)
  have hunits := abs_units_sub_le q.den_pos hbits h
  have hsign : q = signum (signed (nearest negativeZero q)) * |q| := by
    rw [signed_nearest]
    rcases lt_trichotomy q 0 with hlt | rfl | hgt
    · rw [if_neg hlt.ne, decide_eq_true hlt, abs_of_neg hlt, signum, if_pos rfl, neg_one_mul,
        neg_neg]
    · rw [abs_zero, mul_zero]
    · rw [if_neg hgt.ne', decide_eq_false hgt.not_gt, abs_of_pos hgt, signum,
        if_neg Bool.false_ne_true, one_mul]
  have hdiff : toRat (nearest negativeZero q) - q = signum (signed (nearest negativeZero q)) *
      (units (nearest negativeZero q) / 2 ^ unitBits - |q|) := by
    rw [mul_sub, ← hsign]
    rfl
  have hsignum (negative : Bool) : |signum negative| = 1 := by
    cases negative <;> simp [signum]
  have hpos : (0 : ℚ) < 2 ^ unitBits := by positivity
  have hscaled : ((q.num.natAbs * 2 ^ unitBits : Nat) : ℚ) / q.den = |q| * 2 ^ unitBits := by
    rw [habs, Nat.cast_mul, Nat.cast_pow, Nat.cast_ofNat]
    ring
  change |(units (nearest negativeZero q) : ℚ) - _| ≤ _ at hunits
  rw [hscaled] at hunits
  rw [hdiff, abs_mul, hsignum, one_mul, ← mul_le_mul_iff_of_pos_right hpos]
  calc _ = |(units (nearest negativeZero q) : ℚ) - |q| * 2 ^ unitBits| := by
        rw [← abs_of_pos hpos, ← abs_mul, abs_of_pos hpos, sub_mul, div_mul_cancel₀ _ hpos.ne']
    _ ≤ |q| * 2 ^ unitBits / 2 ^ 53 + 1 / 2 := hunits
    _ = _ := by
        rw [add_mul, div_mul_cancel₀ _ hpos.ne']
        ring

end

/-! ## Whole quotients -/

/-- A whole number below `2 ^ 51`, with or without a sign. -/
structure Whole (x : Float) : Prop where
  finite : x.isFinite
  den_eq : (toRat x).den = 1
  lt : |toRat x| < 2 ^ 51

instance (x : Float) : Decidable (Whole x) :=
  decidable_of_iff (x.isFinite ∧ (toRat x).den = 1 ∧ |toRat x| < 2 ^ 51)
    ⟨fun ⟨h, h', h''⟩ => ⟨h, h', h''⟩, fun ⟨h, h', h''⟩ => ⟨h, h', h''⟩⟩

section

variable {x y z : Float}

theorem Whole.eq (h : Whole x) : toRat x = (toRat x).num := ((Rat.den_eq_one_iff _).1 h.den_eq).symm

/-- How far a product with a rounded quotient is from the exact one, if it is rounded too. -/
theorem abs_mul_sub_lt {p q r d k u η : ℚ} (hr : r ≠ 0) (hu : u = 1 / 2 ^ 53) (hη : 0 ≤ η)
    (hp : |p| < 2 ^ 51) (hr' : |r| < 2 ^ 51) (hpq : |p * q| < 2 ^ 51) (hsmall : η * 2 ^ 105 ≤ 1)
    (hd : |d - q / r| ≤ |q / r| * u + η) (hk : |k - p * d| ≤ |p * d| * u + η) :
    |k * r - p * q| < 1 := by
  have hunit : 0 ≤ u := by rw [hu]; positivity
  have hcancel : |r| * |p| * |q / r| = |p * q| := by
    rw [abs_div, abs_mul]
    field_simp [abs_ne_zero.2 hr]
  have htiny : |r| * |p| * η ≤ 1 / 8 ∧ |r| * η ≤ 1 / 8 := by
    have hrp : |r| * |p| ≤ 2 ^ 51 * 2 ^ 51 := by gcongr
    constructor
    · nlinarith [mul_le_mul_of_nonneg_right hrp hη]
    · nlinarith [mul_le_mul_of_nonneg_right hr'.le hη]
  -- What is left of the error of the quotient, in the product with `p` and `r`.
  have hfirst : |r * p * (d - q / r)| ≤ |p * q| * u + |r| * |p| * η := by
    calc |r * p * (d - q / r)| = |r| * |p| * |d - q / r| := by rw [abs_mul, abs_mul]
      _ ≤ |r| * |p| * (|q / r| * u + η) := by gcongr
      _ = |p * q| * u + |r| * |p| * η := by rw [← hcancel]; ring
  have hproduct : |r * (p * d)| ≤ |p * q| + (|p * q| * u + |r| * |p| * η) := by
    have hsplit : r * (p * d) = p * q + r * p * (d - q / r) := by
      field_simp
      ring
    rw [hsplit]
    exact (abs_add_le _ _).trans (by gcongr)
  -- The error of the product.
  have hsecond : |r * (k - p * d)| ≤ |r * (p * d)| * u + |r| * η := by
    calc |r * (k - p * d)| = |r| * |k - p * d| := abs_mul _ _
      _ ≤ |r| * (|p * d| * u + η) := by gcongr
      _ = |r * (p * d)| * u + |r| * η := by rw [abs_mul r]; ring
  have hsplit : k * r - p * q = r * (k - p * d) + r * p * (d - q / r) := by
    field_simp
    ring
  have htotal := (abs_add_le (r * (k - p * d)) (r * p * (d - q / r))).trans
    (add_le_add hsecond hfirst)
  rw [← hsplit] at htotal
  have hbound : |r * (p * d)| * u ≤ (|p * q| + (|p * q| * u + |r| * |p| * η)) * u := by gcongr
  rw [hu] at htotal hbound
  linarith [htiny.1, htiny.2]

/-- A quotient that is multiplied, and comes out whole, is the exact one, if the product with
    what is divided is whole, and the divisor is whole. -/
theorem toRat_mul_div_of_whole (hx : Whole x) (hy : y.isFinite) (hz : Whole z)
    (hne : toRat z ≠ 0) (hyz : (y / z).isFinite) (hxy : Whole (x * y))
    (hxyExact : toRat (x * y) = toRat x * toRat y) (hxyz : Whole (x * (y / z))) :
    toRat (x * (y / z)) = toRat (x * y) / toRat z := by
  have hquotient := abs_nearest_sub_le (div_eq hy hz.finite hne ▸ hyz)
  rw [← div_eq hy hz.finite hne, div_eq_mul_one_div |_|] at hquotient
  have hproduct := abs_nearest_sub_le (mul_eq hx.finite hyz ▸ hxyz.finite)
  rw [← mul_eq hx.finite hyz, div_eq_mul_one_div |_|] at hproduct
  have hsmall : (1 / 2 / 2 ^ unitBits : ℚ) * 2 ^ 105 ≤ 1 := by
    have hle : (2 : ℚ) ^ 105 ≤ 2 ^ unitBits := pow_le_pow_right₀ one_le_two (by decide)
    rw [div_div, div_mul_eq_mul_div, one_mul, div_le_one (by positivity)]
    linarith
  have hlt := abs_mul_sub_lt hne rfl (by positivity) hx.lt hz.lt (hxyExact ▸ hxy.lt) hsmall
    hquotient hproduct
  -- The difference is a whole number.
  rw [← hxyExact, hxy.eq, hz.eq, hxyz.eq] at hlt
  have hzero : (toRat (x * (y / z))).num * (toRat z).num - (toRat (x * y)).num = 0 :=
    Int.abs_lt_one_iff.1 (by exact_mod_cast hlt)
  rw [eq_div_iff hne, hxyz.eq, hz.eq, hxy.eq]
  exact_mod_cast sub_eq_zero.1 hzero

/-- A product may be divided after it is made or before, if the result is whole, and the
    product and the divisor are. -/
theorem mul_div_assoc_of_whole (hx : Whole x) (hy : y.isFinite) (hz : Whole z)
    (hne : toRat z ≠ 0) (hyz : (y / z).isFinite) (hxy : Whole (x * y))
    (hxyExact : toRat (x * y) = toRat x * toRat y) (hxyz : Whole (x * (y / z))) :
    x * y / z = x * (y / z) := by
  rw [div_eq hxy.finite hz.finite hne, ← toRat_mul_div_of_whole hx hy hz hne hyz hxy hxyExact hxyz,
    signed_mul hx.finite hy, Bool.xor_assoc, ← signed_div hy hz.finite hne,
    ← signed_mul hx.finite hyz]
  exact (eq_nearest hxyz.finite).symm

end

end DigitReach.Double

import DigitReach.Proofs.Rounding

/-!
# The arithmetic of doubles

A finite double is a number (`Double.toRat`), and what arithmetic does to finite doubles is
to round: the result is the double nearest to the sum, the difference, the product or the
quotient of the numbers (`add_eq`, `sub_eq`, `mul_eq`, `div_eq`). Only if this is zero, there
is more to say, since there are two zeros: the sign of a product or a quotient is made of the
signs of its sides, and a sum is `-0` only if both sides are.

* `Unpacks` says which unpacked double stands for a number, and `unpacks` that a finite double
  is unpacked to such a one. The operations are computed on these (`Unpacks.add`,
  `Unpacks.sub`, `Unpacks.mul`, `Unpacks.div`);
* `add_assoc_of_exact`, `add_sub_assoc_of_exact`, `mul_assoc_of_exact` and
  `mul_div_assoc_of_exact`: three doubles may be grouped either way if the first operation of
  either grouping is exact. For then both round the same number.
-/

namespace DigitReach.Double

open Float.Model (Format totalExponent)
open Float.Model.UnpackedFloat

/-! ## Numbers and doubles -/

/-- `-1` or `1`. -/
def signum (negative : Bool) : ℚ := if negative then -1 else 1

/-- The number that a finite double is. -/
def toRat (x : Float) : ℚ := signum (signed x) * (units x / 2 ^ unitBits)

/-- The double nearest to a number. If the number is zero, the sign of the double is given. -/
def nearest (negativeZero : Bool) (q : ℚ) : Float :=
  ofRatio (if q = 0 then negativeZero else q < 0) q.num.natAbs q.den

/-- The sign that is kept with an unpacked double. -/
def signOf (negative : Bool) : Sign := if negative then .negative else .positive

section

variable {negative negativeZero : Bool} {q r : ℚ} {a b num den : Nat} {e : Int}

theorem nearest_zero (negativeZero : Bool) : nearest negativeZero 0 = ofRatio negativeZero 0 1 :=
  congrArg₂ (ofRatio · · 1) (if_pos rfl) rfl

/-- If the number is not zero, its sign is that of the double. -/
theorem nearest_of_pos (hr : 0 < r) (hq : q = signum negative * r) (negativeZero : Bool) :
    nearest negativeZero q = ofRatio negative q.num.natAbs q.den := by
  have hsign : (if q = 0 then negativeZero else decide (q < 0)) = negative := by
    cases negative with
    | false =>
      have hpos : 0 < q := by rw [hq, signum, if_neg Bool.false_ne_true, one_mul]; exact hr
      rw [if_neg hpos.ne', decide_eq_false hpos.not_gt]
    | true =>
      have hneg : q < 0 := by rw [hq, signum, if_pos rfl, neg_one_mul, neg_lt_zero]; exact hr
      rw [if_neg hneg.ne, decide_eq_true hneg]
  rw [nearest, hsign]

/-- The ratio of a number to a power of two, in whole numbers. -/
theorem ratio_eq (hb : 0 < b) (hq : q = signum negative * (a / b * 2 ^ e)) :
    a * 2 ^ e.toNat * q.den = q.num.natAbs * (b * 2 ^ (-e).toNat) := by
  have habs : (q.num.natAbs : ℚ) / q.den = a / b * 2 ^ e := by
    rw [Nat.cast_natAbs, Int.cast_abs, ← Nat.abs_cast q.den, ← abs_div, Rat.num_div_den, hq,
      abs_mul, abs_of_nonneg (by positivity : (0 : ℚ) ≤ a / b * 2 ^ e)]
    cases negative <;> simp [signum]
  have hpow : (2 : ℚ) ^ e * 2 ^ (-e).toNat = 2 ^ e.toNat := by
    rw [← zpow_natCast, ← zpow_natCast, ← zpow_add₀ two_ne_zero]
    congr 1
    omega
  have hden : (q.den : ℚ) ≠ 0 := Nat.cast_ne_zero.2 q.den_ne_zero
  have hb : (b : ℚ) ≠ 0 := Nat.cast_ne_zero.2 hb.ne'
  have hcast : (a * 2 ^ e.toNat * q.den : ℚ) = q.num.natAbs * (b * 2 ^ (-e).toNat) := by
    rw [← hpow, (div_eq_iff hden).1 habs]
    field_simp
  exact_mod_cast hcast

end

/-! ## Packed doubles -/

section

variable {u : Float.Model.UnpackedFloat} {negative negativeZero : Bool} {q : ℚ}
  {a b m num den : Nat} {e : Int}

/-- Also the bits of an infinity are packed again. -/
theorem pack_unpack_of_le (b : BitVec Format.binary64.numBits)
    (h : b.toNat % signBit ≤ infinityBits) : pack .binary64 (unpack .binary64 b) = b := by
  by_cases hfinite : unpackExponent b = -1#_
  · have hmantissa : unpackMantissa b = 0#_ := by
      have hexponent := toNat_unpackExponent b
      rw [hfinite] at hexponent
      apply BitVec.eq_of_toNat_eq
      rw [toNat_unpackMantissa]
      change 2047 = _ at hexponent
      change _ % 2 ^ 63 ≤ 2047 * 2 ^ 52 at h
      change _ = 0
      omega
    have hcomponents := packComponents_unpack b
    rw [hfinite, hmantissa] at hcomponents
    rw [unpack, if_pos hfinite, if_pos hmantissa]
    exact hcomponents
  · exact pack_unpack b hfinite

theorem ofBits_toBits {x : Float} (h : magnitudeBits x ≤ infinityBits) :
    Float.ofBits x.toBits = x :=
  eq_of_toBits (congrArg UInt64.ofBitVec (pack_unpack_of_le x.toBits.toBitVec h))

theorem nearestBits_le (num den : Nat) : nearestBits num den ≤ infinityBits := Nat.min_le_right _ _

theorem toNat_signOf (negative : Bool) :
    (signOf negative).toBitVec.toNat * 2 ^ 63 = if negative then signBit else 0 := by
  cases negative <;> rfl

/-- A double with the bits of a nearest one is this one. -/
theorem ofModel_pack_eq (h : (pack .binary64 u).toNat =
    (signOf negative).toBitVec.toNat * 2 ^ 63 + nearestBits num den) :
    Float.ofModel (.pack u) = ofRatio negative num den := by
  have hle := nearestBits_le num den
  have hsignBit : signBit = 2 ^ 63 := rfl
  have hinfinityBits : infinityBits = 2047 * 2 ^ 52 := rfl
  rw [toNat_signOf] at h
  have hbits : (Float.ofModel (.pack u)).toBits =
      UInt64.ofNat (if negative then signBit + nearestBits num den else nearestBits num den) := by
    have htoNat : (Float.ofModel (.pack u)).toBits.toNat = (pack .binary64 u).toNat := rfl
    rw [← UInt64.ofNat_toNat (x := (Float.ofModel (.pack u)).toBits), htoNat, h]
    refine congrArg UInt64.ofNat ?_
    cases negative <;> simp
  have hmagnitude : magnitudeBits (Float.ofModel (.pack u)) ≤ infinityBits := by
    change (pack .binary64 u).toNat % signBit ≤ _
    rw [h, hsignBit]
    split <;> omega
  rw [ofRatio, ← hbits, ofBits_toBits hmagnitude]

/-- A quotient that was computed to enough places is rounded to the nearest double. -/
theorem ofModel_roundWithAccuracy (ha : 0 < a) (hb : 0 < b) (he : e ≤ target a b e)
    (hq : q = signum negative * (a / b * 2 ^ e)) (negativeZero : Bool) :
    Float.ofModel (.pack (roundWithAccuracy .binary64 (signOf negative) (a / b) e
      (accuracyOfFraction (a % b) b))) = nearest negativeZero q := by
  rw [nearest_of_pos (by positivity) hq]
  exact ofModel_pack_eq (toNat_pack_roundWithAccuracy _ hb he q.den_pos (ratio_eq hb hq))

theorem ofModel_roundWithAccuracy_exact (hm : 0 < m) (he : e ≤ target m 1 e)
    (hq : q = signum negative * (m * 2 ^ e)) (negativeZero : Bool) :
    Float.ofModel (.pack (roundWithAccuracy .binary64 (signOf negative) m e .exact)) =
      nearest negativeZero q := by
  have hquotient : q = signum negative * (m / (1 : Nat) * 2 ^ e) := by
    rw [hq, Nat.cast_one, div_one]
  have hround := ofModel_roundWithAccuracy hm Nat.one_pos he hquotient negativeZero
  rwa [Nat.div_one, Nat.mod_one] at hround

theorem log2_mul_two_pow (hm : 0 < m) (k : Nat) : (m * 2 ^ k).log2 = m.log2 + k := by
  rw [Nat.log2_eq_iff (by positivity), pow_add, Nat.add_right_comm, pow_add]
  exact ⟨Nat.mul_le_mul_right _ (Nat.log2_self_le hm.ne'),
    Nat.mul_lt_mul_of_pos_right Nat.lt_log2_self (by positivity)⟩

/-- A number of steps of any power of two is rounded to the nearest double. -/
theorem ofModel_round (hm : 0 < m) (hq : q = signum negative * (m * 2 ^ e)) (negativeZero : Bool) :
    Float.ofModel (.pack (round .binary64 (signOf negative) m e)) = nearest negativeZero q := by
  obtain ⟨k, hk⟩ : ∃ k : Nat, (e - target m 1 e).toNat = k := ⟨_, rfl⟩
  have hround : round .binary64 (signOf negative) m e =
      roundWithAccuracy .binary64 (signOf negative) (m * 2 ^ k) (e - k) .exact := by
    have htarget : Format.binary64.targetExponent (totalExponent m e) = target m 1 e := by
      rw [target, Nat.div_one]
    rw [Float.Model.UnpackedFloat.round, htarget, decreaseExponent, hk, Nat.shiftLeft_eq]
  rw [hround]
  refine ofModel_roundWithAccuracy_exact (by positivity) ?_ ?_ negativeZero
  · rw [target_eq, Nat.div_one] at hk ⊢
    rw [log2_mul_two_pow hm]
    omega
  · rw [hq, Nat.cast_mul, Nat.cast_pow, zpow_sub₀ two_ne_zero, zpow_natCast, Nat.cast_ofNat]
    field_simp

theorem normalize_eq {z : Int} (hz : z ≠ 0) (e : Int) :
    Float.Model.UnpackedFloat.normalize .binary64 z e .positive =
      round .binary64 (signOf (decide (z < 0))) z.natAbs e := by
  rw [Float.Model.UnpackedFloat.normalize]
  rcases hcompare : compare z 0 with _ | _ | _
  · have hlt := Int.compare_eq_lt.1 hcompare
    have habs : (-z).toNat = z.natAbs := by omega
    rw [decide_eq_true hlt, ← habs]
    rfl
  · exact absurd (Int.compare_eq_eq.1 hcompare) hz
  · have hgt := Int.compare_eq_gt.1 hcompare
    have habs : z.toNat = z.natAbs := by omega
    rw [decide_eq_false hgt.not_gt, ← habs]
    rfl

theorem signum_mul_natAbs (z : Int) : signum (decide (z < 0)) * z.natAbs = z := by
  rw [Nat.cast_natAbs]
  by_cases hlt : z < 0
  · rw [decide_eq_true hlt, abs_of_neg hlt, signum, if_pos rfl, Int.cast_neg, neg_one_mul, neg_neg]
  · rw [decide_eq_false hlt, abs_of_nonneg (not_lt.1 hlt), signum, if_neg Bool.false_ne_true,
      one_mul]

/-- A signed number of steps of any power of two is rounded to the nearest double. -/
theorem ofModel_normalize {z : Int} (hz : z ≠ 0) (hq : q = z * 2 ^ e) (negativeZero : Bool) :
    Float.ofModel (.pack (Float.Model.UnpackedFloat.normalize .binary64 z e .positive)) =
      nearest negativeZero q := by
  rw [normalize_eq hz]
  refine ofModel_round (Int.natAbs_pos.2 hz) ?_ negativeZero
  rw [hq, ← mul_assoc, signum_mul_natAbs]

/-- What a finite double is unpacked to: it has the sign, and it is the number. -/
inductive Unpacks (negative : Bool) (q : ℚ) : Float.Model.UnpackedFloat → Prop
  | zero : q = 0 → Unpacks negative q (.zero (signOf negative))
  | finite {m : Nat} {e : Int} (hm : 0 < m) : m < 2 ^ 53 → -1074 ≤ e → 2 ^ 52 ≤ m ∨ e = -1074 →
    q = signum negative * (m * 2 ^ e) → Unpacks negative q (.finite (signOf negative) m e hm)

/-- Packed again, it is the nearest double. -/
theorem Unpacks.ofModel_pack (h : Unpacks negative q u) :
    Float.ofModel (.pack u) = nearest negative q := by
  cases h with
  | zero hq =>
    rw [hq, nearest_zero]
    exact ofModel_pack_eq (by cases negative <;> decide +kernel)
  | @finite m e hm hlt hmin hfull hq =>
    have hlog : m.log2 ≤ 52 := Nat.le_of_lt_succ ((Nat.log2_lt hm.ne').2 hlt)
    have htarget : target m 1 e = e := by
      rw [target_eq, Nat.div_one]
      rcases hfull with hfull | hfull
      · have hge := (Nat.le_log2 hm.ne').2 hfull
        omega
      · omega
    have hrounded : rounded m 1 e = m := by
      have hmul := divideEven_mul m Nat.one_pos
      rw [rounded, htarget, Int.sub_self, Int.toNat_zero, pow_zero]
      rwa [Nat.mul_one] at hmul ⊢
    have hquotient : q = signum negative * (m / (1 : Nat) * 2 ^ e) := by
      rw [hq, Nat.cast_one, div_one]
    rw [nearest_of_pos (by positivity) hq]
    refine ofModel_pack_eq ?_
    have hpack : pack .binary64 (.finite (signOf negative) m e hm) =
        pack .binary64 (ofSignificand (signOf negative) m e) := by
      rw [ofSignificand, dif_neg hm.ne']
    rw [← nearestBits_congr (by positivity) q.den_pos (ratio_eq Nat.one_pos hquotient),
      nearestBits_eq Nat.one_pos htarget.ge, htarget, hrounded, hpack]
    exact toNat_pack_ofSignificand hlt _ (by omega) (by omega)

end

section

variable {x y : Float}

/-- The bits of a double, as they are unpacked. -/
def bitsOf (x : Float) : BitVec Format.binary64.numBits := x.toBits.toBitVec

theorem ofBitVec_unpackSign (x : Float) :
    Sign.ofBitVec (unpackSign (bitsOf x)) = signOf (signed x) := by
  have hsign := toNat_unpackSign (bitsOf x)
  have hlt := toNat_lt (bitsOf x)
  have hsigned : signed x = decide (2 ^ 63 ≤ (bitsOf x).toNat) := rfl
  have hzero : unpackSign (bitsOf x) = 0#1 ↔ ¬ 2 ^ 63 ≤ (bitsOf x).toNat := by
    rw [← BitVec.toNat_inj, hsign]
    change _ = 0 ↔ _
    omega
  rw [hsigned, Sign.ofBitVec]
  by_cases hle : 2 ^ 63 ≤ (bitsOf x).toNat
  · rw [if_neg (mt hzero.1 (not_not_intro hle)), decide_eq_true hle]
    rfl
  · rw [if_pos (hzero.2 hle), decide_eq_false hle]
    rfl

theorem toRat_eq (x : Float) :
    toRat x = signum (signed x) * (significand x * 2 ^ ((scale x : Int) - unitBits)) := by
  rw [toRat, units_eq, zpow_sub₀ two_ne_zero, zpow_natCast, zpow_natCast]
  push_cast
  rw [mul_div_assoc]

theorem unpacks (h : x.isFinite) : Unpacks (signed x) (toRat x) x.toModel.unpack := by
  have hunitBits : unitBits = 1074 := rfl
  have hexponent := toNat_unpackExponent (bitsOf x)
  have hmantissa := toNat_unpackMantissa (bitsOf x)
  have hlt : (unpackMantissa (bitsOf x)).toNat < 2 ^ 52 := BitVec.isLt _
  have hmagnitude : magnitudeBits x = (bitsOf x).toNat % 2 ^ 63 := rfl
  have hsignificand : significand x =
      if magnitudeBits x < 2 ^ 52 then magnitudeBits x else 2 ^ 52 + magnitudeBits x % 2 ^ 52 := rfl
  have hscale : scale x = magnitudeBits x / 2 ^ 52 - 1 := rfl
  change Unpacks _ _ (unpack .binary64 (bitsOf x))
  rw [unpack, if_neg ((isFinite_unpack (bitsOf x)).1 h), ofBitVec_unpackSign]
  split
  · next hzero =>
    rw [hzero] at hexponent
    change 0 = _ at hexponent
    have hsmall : magnitudeBits x < 2 ^ 52 := by omega
    rw [if_pos hsmall] at hsignificand
    have heq : significand x = (unpackMantissa (bitsOf x)).toNat := by omega
    rw [toRat_eq, heq]
    split
    · next hm =>
      refine .zero ?_
      rw [hm, BitVec.toNat_zero, Nat.cast_zero, zero_mul, mul_zero]
    · next hm =>
      have hleast : (scale x : Int) - unitBits = -1074 := by omega
      rw [hzero, hleast]
      exact .finite _ (by omega) le_rfl (.inr rfl) rfl
  · next hne =>
    have hpos : (unpackExponent (bitsOf x)).toNat ≠ 0 := mt (fun h => BitVec.eq_of_toNat_eq h) hne
    have hlarge : ¬ magnitudeBits x < 2 ^ 52 := by omega
    rw [if_neg hlarge] at hsignificand
    have heq : significand x = (1#1 ++ unpackMantissa (bitsOf x)).toNat := by
      rw [toNat_append_one]
      omega
    rw [toRat_eq, heq]
    have hscale : ((unpackExponent (bitsOf x)).toNat : Int) - (1023 + 52) = scale x - unitBits := by
      omega
    refine .finite _ ?_ ?_ (.inl ?_) ?_
    · rw [← heq]
      exact significand_lt x
    · change _ ≤ ((unpackExponent (bitsOf x)).toNat : Int) - (1023 + 52)
      omega
    · rw [toNat_append_one]
      omega
    · rw [← hscale]
      rfl

end

/-! ## Operations -/

theorem nearest_congr {q : ℚ} (hq : q ≠ 0) (negative negative' : Bool) :
    nearest negative q = nearest negative' q := by
  rw [nearest, nearest, if_neg hq, if_neg hq]

namespace Unpacks

variable {n n' : Bool} {q q' : ℚ} {u u' : Float.Model.UnpackedFloat}

theorem signOf_xor (n n' : Bool) : signOf (n ^^ n') = signOf n * signOf n' := by
  cases n <;> cases n' <;> rfl

theorem signOf_not (n : Bool) : signOf (!n) = -signOf n := by
  cases n <;> rfl

theorem signum_xor (n n' : Bool) : signum (n ^^ n') = signum n * signum n' := by
  cases n <;> cases n' <;> norm_num [signum]

theorem signum_div (n n' : Bool) : signum n / signum n' = signum (n ^^ n') := by
  cases n <;> cases n' <;> norm_num [signum]

theorem signum_ne_zero (n : Bool) : signum n ≠ 0 := by
  cases n <;> norm_num [signum]

theorem signum_not (n : Bool) : signum (!n) = -signum n := by
  cases n <;> norm_num [signum]

/-- The steps of a power of two in a number of steps of a greater one. -/
theorem apply_shiftLeft (n : Bool) (m : Nat) {e t : Int} (h : t ≤ e) :
    ((signOf n).apply (m <<< (e - t).toNat : Nat) : ℚ) * 2 ^ t = signum n * (m * 2 ^ e) := by
  have hpow : (2 : ℚ) ^ (e - t).toNat * 2 ^ t = 2 ^ e := by
    rw [← zpow_natCast, ← zpow_add₀ two_ne_zero]
    congr 1
    omega
  have happly (k : Nat) : ((signOf n).apply k : ℚ) = signum n * k := by
    cases n <;> simp [signOf, signum, Sign.apply]
  rw [happly, Nat.shiftLeft_eq, Nat.cast_mul, Nat.cast_pow, Nat.cast_ofNat, ← hpow]
  ring

theorem neg (h : Unpacks n q u) : Unpacks (!n) (-q) u.neg := by
  cases h with
  | zero hq =>
    rw [hq, neg_zero, Float.Model.UnpackedFloat.neg, ← signOf_not]
    exact .zero rfl
  | finite hm hlt hmin hfull hq =>
    rw [hq, Float.Model.UnpackedFloat.neg, ← signOf_not]
    refine .finite hm hlt hmin hfull ?_
    rw [signum_not, neg_mul]

/-- Numbers that cancel out have different signs. -/
theorem and_eq_false_of_add_eq_zero {m m' : Nat} {e e' : Int} (hm : 0 < m) (hm' : 0 < m')
    (h : signum n * (m * 2 ^ e) + signum n' * (m' * 2 ^ e') = 0) : (n && n') = false := by
  by_contra hboth
  obtain ⟨rfl, rfl⟩ := (Bool.and_eq_true_iff).1 (Bool.eq_true_of_not_eq_false hboth)
  have hneg (m : Nat) (e : Int) (hm : 0 < m) : signum true * (m * 2 ^ e) < 0 := by
    rw [signum, if_pos rfl, neg_one_mul, neg_lt_zero]
    positivity
  exact (add_neg (hneg m e hm) (hneg m' e' hm')).ne h

/-- The sum is the double nearest to the sum of the numbers. A zero has a sign only if both
    sides have. -/
theorem add (h : Unpacks n q u) (h' : Unpacks n' q' u') :
    Float.ofModel (.pack (Float.Model.UnpackedFloat.add .binary64 u u')) =
      nearest (n && n') (q + q') := by
  cases h with
  | zero hq =>
    cases h' with
    | zero hq' =>
      have hadd : Float.Model.UnpackedFloat.add .binary64 (.zero (signOf n)) (.zero (signOf n')) =
          .zero (signOf (n && n')) := by cases n <;> cases n' <;> rfl
      rw [hadd, hq, hq', add_zero]
      exact (Unpacks.zero rfl).ofModel_pack
    | @finite m e hm hlt hmin hfull hq' =>
      have hne : q' ≠ 0 := by
        rw [hq']
        exact mul_ne_zero (signum_ne_zero n') (by positivity)
      have hadd : Float.Model.UnpackedFloat.add .binary64 (.zero (signOf n))
          (.finite (signOf n') m e hm) = .finite (signOf n') m e hm := rfl
      rw [hadd, hq, zero_add, nearest_congr hne _ n']
      exact (Unpacks.finite hm hlt hmin hfull hq').ofModel_pack
  | @finite m e hm hlt hmin hfull hq =>
    have hne : q ≠ 0 := by
      rw [hq]
      exact mul_ne_zero (signum_ne_zero n) (by positivity)
    cases h' with
    | zero hq' =>
      have hadd : Float.Model.UnpackedFloat.add .binary64 (.finite (signOf n) m e hm)
          (.zero (signOf n')) = .finite (signOf n) m e hm := rfl
      rw [hadd, hq', add_zero, nearest_congr hne _ n]
      exact (Unpacks.finite hm hlt hmin hfull hq).ofModel_pack
    | @finite m' e' hm' hlt' hmin' hfull' hq' =>
      have hsum : q + q' = (((signOf n).apply (m <<< (e - min e e').toNat : Nat) +
          (signOf n').apply (m' <<< (e' - min e e').toNat : Nat) : Int) : ℚ) * 2 ^ min e e' := by
        rw [Int.cast_add, add_mul, apply_shiftLeft n m (min_le_left _ _),
          apply_shiftLeft n' m' (min_le_right _ _), hq, hq']
      rw [Float.Model.UnpackedFloat.add, decreaseExponent, decreaseExponent]
      dsimp only
      generalize (signOf n).apply _ + (signOf n').apply _ = z at hsum ⊢
      by_cases hz : z = 0
      · rw [hz, Int.cast_zero, zero_mul] at hsum
        rw [hz, hsum, and_eq_false_of_add_eq_zero hm hm' (hq ▸ hq' ▸ hsum)]
        exact (@Unpacks.zero false 0 rfl).ofModel_pack
      · exact ofModel_normalize hz hsum _

theorem sub_eq (h : Unpacks n q u) (h' : Unpacks n' q' u') :
    Float.Model.UnpackedFloat.sub .binary64 u u' =
      Float.Model.UnpackedFloat.add .binary64 u u'.neg := by
  cases h with
  | zero _ => cases h' <;> rfl
  | finite _ _ _ _ _ =>
    cases h' with
    | zero _ => rfl
    | finite _ _ _ _ _ =>
      have happly (k : Int) : (-signOf n').apply k = -(signOf n').apply k := by
        cases n'
        · rfl
        · exact (neg_neg k).symm
      rw [Float.Model.UnpackedFloat.neg, Float.Model.UnpackedFloat.sub,
        Float.Model.UnpackedFloat.add]
      dsimp only
      rw [happly, ← Int.sub_eq_add_neg]

/-- The difference is the double nearest to the difference of the numbers. -/
theorem sub (h : Unpacks n q u) (h' : Unpacks n' q' u') :
    Float.ofModel (.pack (Float.Model.UnpackedFloat.sub .binary64 u u')) =
      nearest (n && !n') (q - q') := by
  rw [sub_eq h h', h.add h'.neg, sub_eq_add_neg]

/-- The product is the double nearest to the product of the numbers. -/
theorem mul (h : Unpacks n q u) (h' : Unpacks n' q' u') :
    Float.ofModel (.pack (Float.Model.UnpackedFloat.mul .binary64 u u')) =
      nearest (n ^^ n') (q * q') := by
  have hzero (heq : Float.Model.UnpackedFloat.mul .binary64 u u' = .zero (signOf n * signOf n'))
      (hq : q * q' = 0) : Float.ofModel (.pack (Float.Model.UnpackedFloat.mul .binary64 u u')) =
        nearest (n ^^ n') (q * q') := by
    rw [heq, hq, ← signOf_xor]
    exact (Unpacks.zero rfl).ofModel_pack
  cases h with
  | zero hq => exact hzero (by cases h' <;> rfl) (by rw [hq, zero_mul])
  | @finite m e hm hlt hmin hfull hq =>
    cases h' with
    | zero hq' => exact hzero rfl (by rw [hq', mul_zero])
    | @finite m' e' hm' hlt' hmin' hfull' hq' =>
      -- The product has enough places, or it is far below the least double.
      have hplaces : e + e' ≤ target (m * m') 1 (e + e') := by
        rw [target_eq, Nat.div_one]
        rcases hfull with hfull | hfull
        · have hlog := (Nat.le_log2 (by positivity)).2
            (hfull.trans (Nat.le_mul_of_pos_right m hm'))
          omega
        · rcases hfull' with hfull' | hfull'
          · have hlog := (Nat.le_log2 (by positivity)).2
              (hfull'.trans (Nat.le_mul_of_pos_left m' hm))
            omega
          · omega
      have hproduct : q * q' = signum (n ^^ n') * ((m * m' : Nat) * 2 ^ (e + e')) := by
        rw [hq, hq', signum_xor, zpow_add₀ two_ne_zero, Nat.cast_mul]
        ring
      rw [Float.Model.UnpackedFloat.mul, ← signOf_xor]
      exact ofModel_roundWithAccuracy_exact (by positivity) hplaces hproduct _

/-- A quotient of numbers that are far enough apart has at least `53` places. -/
theorem le_quotient {m m' k : Nat} (hm : 0 < m) (hm' : 0 < m')
    (h : 52 + (m'.log2 + 1) ≤ m.log2 + k) : 2 ^ 52 ≤ m * 2 ^ k / m' := by
  rw [Nat.le_div_iff_mul_le hm']
  calc 2 ^ 52 * m' ≤ 2 ^ 52 * 2 ^ (m'.log2 + 1) := Nat.mul_le_mul_left _ Nat.lt_log2_self.le
    _ = 2 ^ (52 + (m'.log2 + 1)) := (pow_add ..).symm
    _ ≤ 2 ^ (m.log2 + k) := Nat.pow_le_pow_right (by decide) h
    _ = 2 ^ m.log2 * 2 ^ k := pow_add ..
    _ ≤ m * 2 ^ k := Nat.mul_le_mul_right _ (Nat.log2_self_le hm.ne')

/-- The quotient is the double nearest to the quotient of the numbers. -/
theorem div (h : Unpacks n q u) (h' : Unpacks n' q' u') (hne : q' ≠ 0) :
    Float.ofModel (.pack (Float.Model.UnpackedFloat.div .binary64 u u')) =
      nearest (n ^^ n') (q / q') := by
  cases h' with
  | zero hq' => exact absurd hq' hne
  | @finite m' e' hm' hlt' hmin' hfull' hq' =>
    have hsign : signOf n / signOf n' = signOf (n ^^ n') := by cases n <;> cases n' <;> rfl
    cases h with
    | zero hq =>
      have hdiv : Float.Model.UnpackedFloat.div .binary64 (.zero (signOf n))
          (.finite (signOf n') m' e' hm') = .zero (signOf n / signOf n') := rfl
      rw [hdiv, hsign, hq, zero_div]
      exact (Unpacks.zero rfl).ofModel_pack
    | @finite m e hm hlt hmin hfull hq =>
      rw [Float.Model.UnpackedFloat.div, divCore, hsign]
      dsimp only
      generalize ht : min (e - e') (Format.binary64.targetExponent
        (totalExponent m e - totalExponent m' e')) = t
      rw [targetExponent_eq, totalExponent, totalExponent] at ht
      obtain ⟨k, hk⟩ : ∃ k : Nat, e - e' - t = k := Int.eq_ofNat_of_zero_le (by omega)
      rw [hk, Int.toNat_natCast, Nat.shiftLeft_eq]
      have hplaces : t ≤ target (m * 2 ^ k) m' t := by
        rw [target_eq]
        by_cases hsmall : t ≤ -1074
        · omega
        · have hle := le_quotient (k := k) hm hm' (by omega)
          have hlog := (Nat.le_log2 ((Nat.two_pow_pos 52).trans_le hle).ne').2 hle
          omega
      have hquotient : q / q' = signum (n ^^ n') * ((m * 2 ^ k : Nat) / m' * 2 ^ t) := by
        have hpow : (2 : ℚ) ^ e = 2 ^ e' * (2 ^ k * 2 ^ t) := by
          rw [← zpow_natCast, ← zpow_add₀ two_ne_zero, ← zpow_add₀ two_ne_zero]
          congr 1
          omega
        have hm' : (m' : ℚ) ≠ 0 := Nat.cast_ne_zero.2 hm'.ne'
        rw [hq, hq', mul_div_mul_comm, signum_div, hpow, Nat.cast_mul, Nat.cast_pow, Nat.cast_ofNat]
        field_simp
      exact ofModel_roundWithAccuracy (by positivity) hm' hplaces hquotient _

end Unpacks

section

variable {x y : Float}

/-- A finite double is the one nearest to the number that it is. -/
theorem eq_nearest (h : x.isFinite) : x = nearest (signed x) (toRat x) := by
  rw [← (unpacks h).ofModel_pack]
  have hle : magnitudeBits x ≤ infinityBits := (isFinite_iff.1 h).le
  exact (ofBits_toBits hle).symm

theorem add_eq (hx : x.isFinite) (hy : y.isFinite) :
    x + y = nearest (signed x && signed y) (toRat x + toRat y) :=
  (unpacks hx).add (unpacks hy)

theorem sub_eq (hx : x.isFinite) (hy : y.isFinite) :
    x - y = nearest (signed x && !signed y) (toRat x - toRat y) :=
  (unpacks hx).sub (unpacks hy)

theorem mul_eq (hx : x.isFinite) (hy : y.isFinite) :
    x * y = nearest (signed x ^^ signed y) (toRat x * toRat y) :=
  (unpacks hx).mul (unpacks hy)

theorem div_eq (hx : x.isFinite) (hy : y.isFinite) (hne : toRat y ≠ 0) :
    x / y = nearest (signed x ^^ signed y) (toRat x / toRat y) :=
  (unpacks hx).div (unpacks hy) hne

/-! ## Signs -/

/-- The bits of the double nearest to a ratio are those of its magnitude, with the sign. -/
theorem toNat_toBits_ofRatio (negative : Bool) (num den : Nat) :
    (ofRatio negative num den).toBits.toNat =
      if negative then signBit + nearestBits num den else nearestBits num den := by
  have hle := nearestBits_le num den
  have hsignBit : signBit = 2 ^ 63 := rfl
  have hinfinityBits : infinityBits = 2047 * 2 ^ 52 := rfl
  generalize hbits :
    (if negative then signBit + nearestBits num den else nearestBits num den) = bits
  have hlt : bits < 2 ^ 64 ∧ bits % 2 ^ 63 ≤ infinityBits := by
    rw [← hbits, hsignBit]
    split <;> omega
  have htoNat : (UInt64.ofNat bits).toNat = bits := UInt64.toNat_ofNat_of_lt hlt.1
  have htoBits : (ofRatio negative num den).toBits = UInt64.ofNat bits := by
    rw [ofRatio, hbits]
    refine congrArg UInt64.ofBitVec (pack_unpack_of_le (UInt64.ofNat bits).toBitVec ?_)
    change (UInt64.ofNat bits).toNat % 2 ^ 63 ≤ _
    rw [htoNat]
    exact hlt.2
  rw [htoBits, htoNat]

theorem signed_ofRatio (negative : Bool) (num den : Nat) :
    signed (ofRatio negative num den) = negative := by
  have hle := nearestBits_le num den
  have hsignBit : signBit = 2 ^ 63 := rfl
  have hinfinityBits : infinityBits = 2047 * 2 ^ 52 := rfl
  rw [signed, toNat_toBits_ofRatio]
  cases negative
  · exact decide_eq_false (by rw [if_neg Bool.false_ne_true]; omega)
  · exact decide_eq_true (by rw [if_pos rfl]; omega)

theorem magnitudeBits_ofRatio (negative : Bool) (num den : Nat) :
    magnitudeBits (ofRatio negative num den) = nearestBits num den := by
  have hle := nearestBits_le num den
  have hsignBit : signBit = 2 ^ 63 := rfl
  have hinfinityBits : infinityBits = 2047 * 2 ^ 52 := rfl
  rw [magnitudeBits, toNat_toBits_ofRatio, hsignBit]
  split <;> omega

theorem signed_nearest (negativeZero : Bool) (q : ℚ) :
    signed (nearest negativeZero q) = if q = 0 then negativeZero else decide (q < 0) := by
  rw [nearest, signed_ofRatio]

/-- A finite double that is not zero has the sign of its number. -/
theorem signed_eq (h : x.isFinite) (hne : toRat x ≠ 0) : signed x = decide (toRat x < 0) := by
  have hsigned := signed_nearest (signed x) (toRat x)
  rwa [← eq_nearest h, if_neg hne] at hsigned

end

/-! ## Regrouping -/

section

variable {x y z : Float}

/-- The sign of a zero that is the sum of three numbers does not depend on how they are
    grouped: it has one only if all three have. -/
theorem sign_assoc {nx ny nz : Bool} {qx qy qz : ℚ} (hx : qx ≠ 0 → nx = decide (qx < 0))
    (hy : qy ≠ 0 → ny = decide (qy < 0)) (hz : qz ≠ 0 → nz = decide (qz < 0))
    (hsum : qx + qy + qz = 0) :
    ((if qx + qy = 0 then nx && ny else decide (qx + qy < 0)) && nz) =
      (nx && if qy + qz = 0 then ny && nz else decide (qy + qz < 0)) := by
  -- Of two numbers that cancel out, one is positive.
  have hcancel {n n' : Bool} {q q' : ℚ} (hn : n = decide (q < 0)) (hn' : n' = decide (q' < 0))
      (hzero : q + q' = 0) : (n && n') = false := by
    rw [hn, hn', ← Bool.decide_and, decide_eq_false]
    rintro ⟨hlt, hlt'⟩
    exact (add_neg hlt hlt').ne hzero
  have hsum' : qx + (qy + qz) = 0 := by rwa [← add_assoc]
  by_cases hxy : qx + qy = 0
  · have hqz : qz = 0 := by linarith
    by_cases hqx : qx = 0
    · have hyz : qy + qz = 0 := by linarith
      rw [if_pos hxy, if_pos hyz, Bool.and_assoc]
    · have hqy : qy ≠ 0 := fun h => hqx (by linarith)
      have hyz : qy + qz ≠ 0 := fun h => hqx (by linarith)
      rw [if_pos hxy, if_neg hyz, hcancel (hx hqx) (hy hqy) hxy, hcancel (hx hqx) rfl hsum',
        Bool.false_and]
  · have hqz : qz ≠ 0 := fun h => hxy (by linarith)
    rw [if_neg hxy, hcancel rfl (hz hqz) hsum]
    by_cases hyz : qy + qz = 0
    · have hqy : qy ≠ 0 := fun h => hqz (by linarith)
      rw [if_pos hyz, hcancel (hy hqy) (hz hqz) hyz, Bool.and_false]
    · have hqx : qx ≠ 0 := fun h => hyz (by linarith)
      rw [if_neg hyz, hcancel (hx hqx) rfl hsum']

/-- A sum of three doubles does not depend on how they are grouped, if the first sum of each
    grouping is exact. -/
theorem add_assoc_of_exact (hx : x.isFinite) (hy : y.isFinite) (hz : z.isFinite)
    (hxy : (x + y).isFinite) (hyz : (y + z).isFinite) (hxyExact : toRat (x + y) = toRat x + toRat y)
    (hyzExact : toRat (y + z) = toRat y + toRat z) : x + y + z = x + (y + z) := by
  rw [add_eq hxy hz, add_eq hx hyz, hxyExact, hyzExact, add_assoc]
  by_cases hsum : toRat x + (toRat y + toRat z) = 0
  · have hsign := sign_assoc (signed_eq hx) (signed_eq hy) (signed_eq hz) (by rwa [add_assoc])
    rw [← signed_nearest, ← signed_nearest, ← add_eq hx hy, ← add_eq hy hz] at hsign
    rw [hsign]
  · exact nearest_congr hsum _ _

theorem add_sub_assoc_of_exact (hx : x.isFinite) (hy : y.isFinite) (hz : z.isFinite)
    (hxy : (x + y).isFinite) (hyz : (y - z).isFinite) (hxyExact : toRat (x + y) = toRat x + toRat y)
    (hyzExact : toRat (y - z) = toRat y - toRat z) : x + y - z = x + (y - z) := by
  rw [sub_eq hxy hz, add_eq hx hyz, hxyExact, hyzExact, add_sub_assoc]
  by_cases hsum : toRat x + (toRat y - toRat z) = 0
  · have hnot : -toRat z ≠ 0 → (!signed z) = decide (-toRat z < 0) := by
      intro hne
      rw [signed_eq hz (neg_ne_zero.1 hne), ← decide_not, decide_eq_decide, neg_lt_zero, not_lt]
      exact (neg_ne_zero.1 hne).symm.le_iff_lt
    have hsign := sign_assoc (signed_eq hx) (signed_eq hy) hnot
      (by rwa [add_assoc, ← sub_eq_add_neg])
    rw [← sub_eq_add_neg, ← signed_nearest, ← signed_nearest, ← add_eq hx hy,
      ← sub_eq hy hz] at hsign
    rw [hsign]
  · exact nearest_congr hsum _ _

theorem decide_mul_neg {q r : ℚ} (hq : q ≠ 0) (hr : r ≠ 0) :
    decide (q * r < 0) = (decide (q < 0) ^^ decide (r < 0)) := by
  rcases hq.lt_or_gt with hq | hq <;> rcases hr.lt_or_gt with hr | hr
  · simp [hq, hr, (mul_pos_of_neg_of_neg hq hr).not_gt]
  · simp [hq, hr.not_gt, mul_neg_of_neg_of_pos hq hr]
  · simp [hq.not_gt, hr, mul_neg_of_pos_of_neg hq hr]
  · simp [hq.not_gt, hr.not_gt, (mul_pos hq hr).not_gt]

theorem signed_mul (hx : x.isFinite) (hy : y.isFinite) :
    signed (x * y) = (signed x ^^ signed y) := by
  rw [mul_eq hx hy, signed_nearest]
  split
  · rfl
  · next hne =>
    obtain ⟨hqx, hqy⟩ := mul_ne_zero_iff.1 hne
    rw [decide_mul_neg hqx hqy, ← signed_eq hx hqx, ← signed_eq hy hqy]

theorem signed_div (hx : x.isFinite) (hy : y.isFinite) (hne : toRat y ≠ 0) :
    signed (x / y) = (signed x ^^ signed y) := by
  rw [div_eq hx hy hne, signed_nearest]
  split
  · rfl
  · next hquotient =>
    have hqx := (div_ne_zero_iff.1 hquotient).1
    have hinv : decide ((toRat y)⁻¹ < 0) = decide (toRat y < 0) := decide_eq_decide.2 inv_lt_zero
    rw [div_eq_mul_inv, decide_mul_neg hqx (inv_ne_zero hne), hinv, ← signed_eq hx hqx,
      ← signed_eq hy hne]

theorem mul_assoc_of_exact (hx : x.isFinite) (hy : y.isFinite) (hz : z.isFinite)
    (hxy : (x * y).isFinite) (hyz : (y * z).isFinite) (hxyExact : toRat (x * y) = toRat x * toRat y)
    (hyzExact : toRat (y * z) = toRat y * toRat z) : x * y * z = x * (y * z) := by
  rw [mul_eq hxy hz, mul_eq hx hyz, hxyExact, hyzExact, mul_assoc, signed_mul hx hy,
    signed_mul hy hz, Bool.xor_assoc]

theorem mul_div_assoc_of_exact (hx : x.isFinite) (hy : y.isFinite) (hz : z.isFinite)
    (hne : toRat z ≠ 0) (hxy : (x * y).isFinite) (hyz : (y / z).isFinite)
    (hxyExact : toRat (x * y) = toRat x * toRat y) (hyzExact : toRat (y / z) = toRat y / toRat z) :
    x * y / z = x * (y / z) := by
  rw [div_eq hxy hz hne, mul_eq hx hyz, hxyExact, hyzExact, mul_div_assoc, signed_mul hx hy,
    signed_div hy hz hne, Bool.xor_assoc]

end

end DigitReach.Double

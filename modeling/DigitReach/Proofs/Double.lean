import DigitReach.Double
import Mathlib

/-!
# Doubles and their bits

A double is its bits, of which the highest is the sign, the next `11` are the exponent and
the last `52` the mantissa. The doubles that are finite are those whose exponent is not all
ones, and for these nothing is lost on the way from the bits to the double and back.

* `isFinite_iff`: a double is finite exactly if its magnitude bits are below those of
  infinity;
* `toBits_ofBits`: the bits of a finite double are the ones that it was made of;
* `log2_units`: the magnitude of a finite double is its significand, moved by the scale;
* `ofRatio_of_eq`: the double nearest to a ratio that is equal to a double is this double.
-/

namespace DigitReach.Double

open Float.Model (Format)
open Float.Model.UnpackedFloat

/-! ## The parts of the bits -/

section

variable (b : BitVec Format.binary64.numBits)

theorem toNat_lt : b.toNat < 2 ^ 64 := b.isLt

theorem toNat_unpackMantissa : (unpackMantissa b).toNat = b.toNat % 2 ^ 52 := by
  simp [unpackMantissa]

theorem toNat_unpackExponent :
    (unpackExponent b).toNat = b.toNat / 2 ^ 52 % 2 ^ 11 := by
  simp [unpackExponent, Nat.shiftRight_eq_div_pow]

theorem toNat_unpackSign : (unpackSign b).toNat = b.toNat / 2 ^ 63 := by
  have hlt := toNat_lt b
  simp only [unpackSign, BitVec.extractLsb, BitVec.toNat_cast, BitVec.extractLsb'_toNat,
    Nat.shiftRight_eq_div_pow]
  omega

theorem toBitVec_ofBitVec (s : BitVec 1) : (Sign.ofBitVec s).toBitVec = s := by
  revert s
  decide

theorem toNat_packComponents (s : Sign) (e : BitVec 11) (m : BitVec 52) :
    (packComponents .binary64 s e m).toNat =
      s.toBitVec.toNat * 2 ^ 63 + e.toNat * 2 ^ 52 + m.toNat := by
  have he := e.isLt
  have hm := m.isLt
  rw [packComponents, BitVec.toNat_append, BitVec.toNat_append, ← Nat.shiftLeft_add_eq_or_of_lt hm,
    ← Nat.shiftLeft_add_eq_or_of_lt he]
  simp only [Nat.shiftLeft_eq]
  ring

/-- The parts make up the bits that they were taken from. -/
theorem packComponents_unpack :
    packComponents .binary64 (Sign.ofBitVec (unpackSign b)) (unpackExponent b)
      (unpackMantissa b) = b := by
  have hlt := toNat_lt b
  apply BitVec.eq_of_toNat_eq
  rw [toNat_packComponents, toBitVec_ofBitVec, toNat_unpackSign, toNat_unpackExponent,
    toNat_unpackMantissa]
  omega

/-! ## From bits to doubles and back -/

/-- A significand of `53` bits has a leading one in front of its mantissa. -/
theorem toNat_append_one (m : BitVec 52) : (1#1 ++ m).toNat = 2 ^ 52 + m.toNat := by
  have hm := m.isLt
  rw [BitVec.toNat_append, ← Nat.shiftLeft_add_eq_or_of_lt hm]
  rfl

/-- A significand of fewer than `53` bits is packed with the exponent `0`. -/
theorem pack_finite {s : Sign} {m : Nat} {e : Int} (hm : 0 < m) (biased : Nat)
    (he : e + 1075 = biased) (hlt : biased < 2047) :
    pack .binary64 (.finite s m e hm) =
      packComponents .binary64 s (if m.log2 = 52 then BitVec.ofNat 11 biased else 0)
        (BitVec.ofNat 52 m) := by
  have hbiased : (e + Format.binary64.exponentBias + (52 : Nat)).toNat = biased := by
    change (e + 1023 + 52).toNat = biased
    omega
  have hbits : Format.binary64.mantissaBits = 53 := rfl
  have hle : ¬ 2 ^ 11 ≤ biased + 1 := by omega
  rw [pack, hbiased, if_neg hle, hbits]
  by_cases hlog : m.log2 = 52
  · rw [if_pos hlog, if_pos (congrArg (· + 1) hlog)]
  · rw [if_neg hlog, if_neg (mt Nat.succ.inj hlog)]
    rfl

/-- Packing the double that finite bits stand for gives the bits. -/
theorem pack_unpack (hfinite : unpackExponent b ≠ -1#_) :
    pack .binary64 (unpack .binary64 b) = b := by
  have hbias : (Format.binary64.exponentBias : Int) = 1023 := rfl
  have hbits : (Format.binary64.mantissaBitsWithoutImplicit : Int) = 52 := rfl
  have hcomponents := packComponents_unpack b
  have hlt : (unpackMantissa b).toNat < 2 ^ 52 := BitVec.isLt _
  have hmax : (unpackExponent b).toNat < 2047 := by
    have hne := mt BitVec.eq_of_toNat_eq hfinite
    have hle : (unpackExponent b).toNat < 2048 := BitVec.isLt _
    change _ ≠ 2047 at hne
    omega
  rw [unpack, if_neg hfinite]
  split
  · next hzero =>
    -- A zero, or a significand without a leading one.
    rw [hzero] at hcomponents
    split
    · next hm =>
      rw [hm] at hcomponents
      exact hcomponents
    · next hm =>
      have hpos : (unpackMantissa b).toNat ≠ 0 :=
        mt (fun h => BitVec.eq_of_toNat_eq h) hm
      have hlog : (unpackMantissa b).toNat.log2 ≠ 52 := by
        rw [Ne, Nat.log2_eq_iff hpos]
        omega
      have hexponent : (unpackExponent b).toNat = 0 := by
        rw [hzero]
        rfl
      rw [pack_finite _ 1 (by omega) (by decide), if_neg hlog,
        BitVec.ofNat_toNat, BitVec.setWidth_eq]
      exact hcomponents
  · -- A leading one, which is not packed.
    have hlog : (1#1 ++ unpackMantissa b).toNat.log2 = 52 := by
      rw [toNat_append_one, Nat.log2_eq_iff (by omega)]
      omega
    have hlow : BitVec.ofNat 52 (1#1 ++ unpackMantissa b).toNat =
        unpackMantissa b := by
      apply BitVec.eq_of_toNat_eq
      rw [toNat_append_one, BitVec.toNat_ofNat, Nat.add_mod_left, Nat.mod_eq_of_lt hlt]
    rw [pack_finite _ (unpackExponent b).toNat (by omega) hmax, if_pos hlog,
      hlow, BitVec.ofNat_toNat, BitVec.setWidth_eq]
    exact hcomponents

theorem isFinite_unpack : (unpack .binary64 b).isFinite ↔
    unpackExponent b ≠ -1#_ := by
  rw [unpack]
  split
  · next h =>
    split
    · exact iff_of_false Bool.false_ne_true (not_not_intro h)
    · exact iff_of_false Bool.false_ne_true (not_not_intro h)
  · next h =>
    split
    · split
      · exact iff_of_true rfl h
      · exact iff_of_true rfl h
    · exact iff_of_true rfl h

/-- The bits of `NaN` are behind those of infinity. -/
theorem lt_of_isNaN_unpack (h : (unpack .binary64 b).isNaN) :
    infinityBits < b.toNat % signBit := by
  have hlt := toNat_lt b
  have hexponent := toNat_unpackExponent b
  have hmantissa := toNat_unpackMantissa b
  rw [unpack] at h
  split at h
  · next hmax =>
    split at h
    · exact absurd h Bool.false_ne_true
    · next hne =>
      have hpos : (unpackMantissa b).toNat ≠ 0 := mt (fun h => BitVec.eq_of_toNat_eq h) hne
      rw [hmax] at hexponent
      change 2047 = _ at hexponent
      change 2047 * 2 ^ 52 < _ % 2 ^ 63
      omega
  · split at h
    · split at h <;> exact absurd h Bool.false_ne_true
    · exact absurd h Bool.false_ne_true

theorem exponent_ne_iff : unpackExponent b ≠ -1#_ ↔
    b.toNat % signBit < infinityBits := by
  have hlt := toNat_lt b
  rw [Ne, ← BitVec.toNat_inj, toNat_unpackExponent]
  change ¬ _ = 2047 ↔ _ % 2 ^ 63 < 0x7ff * 2 ^ 52
  omega

end

variable {x y : Float}

theorem isFinite_iff : x.isFinite ↔ magnitudeBits x < infinityBits :=
  (isFinite_unpack _).trans (exponent_ne_iff _)

theorem isNaN_of_isFinite (h : x.isFinite) : x.isNaN = false := by
  change (Float.Model.unpack _).isFinite = true at h
  change (Float.Model.unpack _).isNaN = false
  rcases hx : x.toModel.unpack with _ | _ | _ | _ <;> rw [hx] at h
  · rfl
  · exact absurd h Bool.false_ne_true
  · rfl
  · rfl

theorem infinityBits_lt_of_isNaN (h : x.isNaN) : infinityBits < magnitudeBits x :=
  lt_of_isNaN_unpack _ h

theorem isInf_of_isFinite (h : x.isFinite) : x.isInf = false := by
  change (Float.Model.unpack _).isFinite = true at h
  change (Float.Model.unpack _).isInf = false
  rcases hx : x.toModel.unpack with _ | _ | _ | _ <;> rw [hx] at h
  · exact absurd h Bool.false_ne_true
  · rfl
  · rfl
  · rfl

/-- A double that is neither `NaN` nor infinite is finite. -/
theorem isFinite_of_not (hnan : ¬ x.isNaN) (hinf : ¬ x.isInf) : x.isFinite := by
  change ¬ (Float.Model.unpack _).isNaN = true at hnan
  change ¬ (Float.Model.unpack _).isInf = true at hinf
  change (Float.Model.unpack _).isFinite = true
  rcases hx : x.toModel.unpack with _ | _ | _ | _ <;> rw [hx] at hnan hinf
  · exact absurd rfl hinf
  · exact absurd rfl hnan
  · rfl
  · rfl

/-- Finite bits are those of the double that they make. -/
theorem toBits_ofBits {bits : UInt64} (h : bits.toNat % signBit < infinityBits) :
    (Float.ofBits bits).toBits = bits :=
  congrArg UInt64.ofBitVec (pack_unpack bits.toBitVec ((exponent_ne_iff _).2 h))

theorem eq_of_toBits (h : x.toBits = y.toBits) : x = y := by
  obtain ⟨⟨bits, _⟩⟩ := x
  obtain ⟨⟨bits', _⟩⟩ := y
  obtain rfl : bits = bits' := h
  rfl

/-! ## Units -/

/-- The magnitude bits count the blocks up to a double, and the steps within its block. -/
theorem scale_add_significand (x : Float) :
    scale x * 2 ^ 52 + significand x = magnitudeBits x := by
  rw [scale, significand]
  change (_ / 2 ^ 52 - 1) * 2 ^ 52 +
    (if magnitudeBits x < 2 ^ 52 then _ else 2 ^ 52 + _ % 2 ^ 52) = _
  split <;> omega

theorem significand_lt (x : Float) : significand x < 2 ^ 53 := by
  rw [significand]
  change (if magnitudeBits x < 2 ^ 52 then _ else 2 ^ 52 + _ % 2 ^ 52) < _
  split <;> omega

theorem le_significand (h : scale x ≠ 0) : 2 ^ 52 ≤ significand x := by
  rw [scale] at h
  change _ / 2 ^ 52 - 1 ≠ 0 at h
  rw [significand]
  change _ ≤ if magnitudeBits x < 2 ^ 52 then _ else 2 ^ 52 + _ % 2 ^ 52
  split <;> omega

theorem units_eq (x : Float) : units x = significand x * 2 ^ scale x := Nat.shiftLeft_eq _ _

/-- The number of units tells the block of the double. -/
theorem log2_units (x : Float) : (units x).log2 - fractionBits = scale x := by
  rw [units_eq]
  change _ - 52 = _
  have hlt := significand_lt x
  by_cases hscale : scale x = 0
  · -- In the first block the significand need not have a leading one.
    rw [hscale, pow_zero, mul_one]
    by_cases hzero : significand x = 0
    · rw [hzero, Nat.log2_zero]
    · have hlog := (Nat.log2_lt hzero).2 hlt
      omega
  · have hle := le_significand hscale
    have hlog : (significand x * 2 ^ scale x).log2 = 52 + scale x := by
      rw [Nat.log2_eq_iff (by positivity), pow_add, Nat.add_right_comm, pow_add]
      exact ⟨Nat.mul_le_mul_right _ hle, Nat.mul_lt_mul_of_pos_right hlt (by positivity)⟩
    omega

theorem divideEven_mul (q : Nat) {den : Nat} (h : 0 < den) : divideEven (q * den) den = q := by
  rw [divideEven, Nat.mul_div_cancel _ h, Nat.mul_mod_left]
  exact if_neg (by omega)

variable {num den : Nat}

/-- The double nearest to the magnitude of a finite double has the same magnitude. -/
theorem nearestBits_of_eq (hfinite : magnitudeBits x < infinityBits) (hden : 0 < den)
    (h : num * 2 ^ unitBits = units x * den) : nearestBits num den = magnitudeBits x := by
  have hunits : (num <<< unitBits) / den = units x := by
    rw [Nat.shiftLeft_eq, h, Nat.mul_div_cancel _ hden]
  have hratio : num <<< (unitBits - scale x) = significand x * den <<< (scale x - unitBits) := by
    -- The equation is `h`, without the smaller of the two powers on both sides.
    have hsum : unitBits + (scale x - unitBits) = scale x + (unitBits - scale x) := by omega
    have hpow : 2 ^ unitBits * 2 ^ (scale x - unitBits) =
        2 ^ scale x * 2 ^ (unitBits - scale x) := by
      rw [← pow_add, ← pow_add, hsum]
    rw [Nat.shiftLeft_eq, Nat.shiftLeft_eq]
    refine Nat.eq_of_mul_eq_mul_right (Nat.two_pow_pos (scale x)) ?_
    calc num * 2 ^ (unitBits - scale x) * 2 ^ scale x
        = num * (2 ^ unitBits * 2 ^ (scale x - unitBits)) := by
          rw [hpow]
          ring
      _ = significand x * (den * 2 ^ (scale x - unitBits)) * 2 ^ scale x := by
          rw [← mul_assoc, h, units_eq]
          ring
  have hstep : 0 < den <<< (scale x - unitBits) := by
    rw [Nat.shiftLeft_eq]
    positivity
  rw [nearestBits, hunits, log2_units, hratio, divideEven_mul _ hstep, Nat.shiftLeft_eq]
  change min (scale x * 2 ^ 52 + _) _ = _
  rw [scale_add_significand, min_eq_left hfinite.le]

/-- The bits are the sign and those of the magnitude. -/
theorem toNat_toBits (x : Float) :
    x.toBits.toNat = if signed x then signBit + magnitudeBits x else magnitudeBits x := by
  have hlt : x.toBits.toNat < 2 ^ 64 := UInt64.toNat_lt _
  change _ = if signed x then 2 ^ 63 + _ % 2 ^ 63 else _ % 2 ^ 63
  split
  · next h =>
    have hle : 2 ^ 63 ≤ x.toBits.toNat := of_decide_eq_true h
    omega
  · next h =>
    have hgt : ¬ 2 ^ 63 ≤ x.toBits.toNat := mt decide_eq_true h
    omega

/-- The double nearest to the value of a finite double is this double. -/
theorem ofRatio_of_eq (hfinite : x.isFinite) (hden : 0 < den)
    (h : num * 2 ^ unitBits = units x * den) : ofRatio (signed x) num den = x := by
  rw [isFinite_iff] at hfinite
  rw [ofRatio, nearestBits_of_eq hfinite hden h]
  have hbits : UInt64.ofNat (if signed x then signBit + magnitudeBits x else magnitudeBits x) =
      x.toBits := by
    rw [← toNat_toBits]
    exact UInt64.ofNat_toNat
  rw [hbits]
  exact eq_of_toBits (toBits_ofBits hfinite)

end DigitReach.Double

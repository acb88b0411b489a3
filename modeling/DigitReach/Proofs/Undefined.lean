import DigitReach.Proofs.Numeral
import DigitReach.Proofs.Arithmetic
import DigitReach.Proofs.Surroundings

/-!
# How far `NaN` is passed on

Where arithmetic has no value, there is `NaN`, and what is made of it is `NaN` too, with one
exception: any base to the power zero is one. So on its way to the root of an expression,
`NaN` is stopped by the frames that hold a base whose exponent is zero, and by no others
(`Frame.Stops`).

* `Double.isNaN_apply`: the arithmetic of doubles passes `NaN` on from either side;
* `Double.power_of_eq_zero` and `Double.isNaN_power`: a power passes it on unless the exponent
  is zero, so always from the exponent. The power of IEEE 754 alone does not, over the base `1`
  (`Double.isNaN_pow`): it does here because that base is kept from exponents that are not
  finite;
* `Double.isNaN_juxtapose`: a concatenation passes it on, since the text of `NaN` is part of no
  numeral, nor is that of an infinity;
* `nan_passes`: so it goes for all ways from a place in an expression to the root.
-/

namespace DigitReach

open Float.Model (UnpackedFloat)

/-! ## Doubles -/

namespace Double

variable {x y : Float}

theorem isNaN_undefined : undefined.isNaN := by decide +kernel

theorem isNaN_pack : (Float.ofModel (.pack .notANumber)).isNaN := by decide +kernel

theorem unpack_of_isNaN (h : x.isNaN) : x.toModel.unpack = .notANumber := by
  change x.toModel.unpack.isNaN = true at h
  rcases hx : x.toModel.unpack with _ | _ | _ | _ <;> rw [hx] at h
  all_goals exact absurd h Bool.false_ne_true

theorem isNaN_sqrt (h : x.isNaN) : x.sqrt.isNaN := by
  change (Float.ofModel (.pack (UnpackedFloat.sqrt .binary64 x.toModel.unpack))).isNaN
  rw [unpack_of_isNaN h]
  exact isNaN_pack

/-- An operator other than the power is an operation on unpacked doubles, which passes `NaN`
    on from either side. -/
theorem exists_unpacked {o : Operator} (ho : o ≠ .power) :
    ∃ f : UnpackedFloat → UnpackedFloat → UnpackedFloat,
      (∀ u, f .notANumber u = .notANumber ∧ f u .notANumber = .notANumber) ∧
      ∀ x y, o.apply x y = .ofModel (.pack (f x.toModel.unpack y.toModel.unpack)) := by
  cases o with
  | add => exact ⟨.add .binary64, fun u => by cases u <;> exact ⟨rfl, rfl⟩, fun _ _ => rfl⟩
  | subtract => exact ⟨.sub .binary64, fun u => by cases u <;> exact ⟨rfl, rfl⟩, fun _ _ => rfl⟩
  | multiply => exact ⟨.mul .binary64, fun u => by cases u <;> exact ⟨rfl, rfl⟩, fun _ _ => rfl⟩
  | divide => exact ⟨.div .binary64, fun u => by cases u <;> exact ⟨rfl, rfl⟩, fun _ _ => rfl⟩
  | power => exact absurd rfl ho

/-- The arithmetic of doubles passes `NaN` on from either side. -/
theorem isNaN_apply {o : Operator} (ho : o ≠ .power) (h : x.isNaN ∨ y.isNaN) :
    (o.apply x y).isNaN := by
  obtain ⟨f, hf, happly⟩ := exists_unpacked ho
  rw [happly]
  rcases h with h | h
  · rw [unpack_of_isNaN h, (hf _).1]
    exact isNaN_pack
  · rw [unpack_of_isNaN h, (hf _).2]
    exact isNaN_pack

/-! ### Equality -/

theorem beq_eq (x y : Float) : (x == y) = x.toModel.unpack.beq y.toModel.unpack := rfl

/-- Nothing is equal to `NaN`. -/
theorem beq_of_isNaN (h : y.isNaN) (x : Float) : (x == y) = false := by
  rw [beq_eq, unpack_of_isNaN h]
  cases x.toModel.unpack <;> rfl

theorem not_isFinite_of_isNaN (h : x.isNaN) : ¬ x.isFinite := fun hfinite =>
  Bool.false_ne_true ((isNaN_of_isFinite hfinite).symm.trans h)

/-- A finite double is what its parts are packed to. -/
theorem eq_of_unpack {u : UnpackedFloat} (h : x.toModel.unpack = u) (hu : u.isFinite) :
    x = .ofModel (.pack u) := by
  have hfinite : x.isFinite := by
    change x.toModel.unpack.isFinite = true
    rw [h]
    exact hu
  have hpacked : .ofModel (.pack x.toModel.unpack) = x := ofBits_toBits (isFinite_iff.1 hfinite).le
  rw [← hpacked, h]

theorem exists_eq_zero_of_beq {u : UnpackedFloat} (h : u.beq (.zero .positive)) :
    ∃ s, u = .zero s := by
  cases u with
  | infinity s => cases s <;> exact absurd h Bool.false_ne_true
  | notANumber => exact absurd h Bool.false_ne_true
  | zero s => exact ⟨s, rfl⟩
  | finite s => cases s <;> exact absurd h Bool.false_ne_true

/-- The doubles that are equal to zero are the two zeros. -/
theorem beq_zero_iff : x == 0 ↔ x = 0 ∨ x = -0 := by
  constructor
  · intro h
    have hzero : (0 : Float).toModel.unpack = .zero .positive := rfl
    rw [beq_eq, hzero] at h
    obtain ⟨s, hs⟩ := exists_eq_zero_of_beq h
    rw [eq_of_unpack hs rfl]
    cases s <;> decide +kernel
  · rintro (rfl | rfl)
    · decide +kernel
    · decide +kernel

theorem not_beq_zero_of_isNaN (h : x.isNaN) : ¬ x == 0 := by
  intro hzero
  rcases beq_zero_iff.1 hzero with rfl | rfl
  · exact absurd h (by decide +kernel)
  · exact absurd h (by decide +kernel)

theorem eq_finite_of_beq {u : UnpackedFloat} {m : Nat} {e : Int} {hm : 0 < m}
    (h : u.beq (.finite .positive m e hm)) : u = .finite .positive m e hm := by
  cases u with
  | infinity s => cases s <;> exact absurd h Bool.false_ne_true
  | notANumber | zero s => exact absurd h Bool.false_ne_true
  | finite s m' e' hm' =>
    cases s with
    | negative => exact absurd h Bool.false_ne_true
    | positive =>
      change (some ((compare e' e).then (compare m' m)) == some .eq) = true at h
      simp only [Option.some_beq_some, beq_iff_eq, Ordering.then_eq_eq,
        Std.LawfulEqCmp.compare_eq_iff_eq] at h
      obtain ⟨rfl, rfl⟩ := h
      rfl

/-- One is the only double that is equal to it. -/
theorem eq_one_of_beq (h : x == 1) : x = 1 := by
  have hone : (1 : Float).toModel.unpack = .finite .positive (2 ^ 52) (-52) (by decide) := rfl
  rw [beq_eq, hone] at h
  rw [eq_of_unpack (eq_finite_of_beq h) rfl]
  decide +kernel

/-! ### Powers -/

/-- Any base to the power zero is one: zero is finite, so no base is kept from it. -/
theorem power_of_eq_zero (h : y = 0 ∨ y = -0) (x : Float) : power x y = 1 := by
  have hfinite : y.isFinite := by
    rcases h with rfl | rfl
    · decide +kernel
    · decide +kernel
  have hzero : y == 0 := beq_zero_iff.2 h
  have hunit : ¬ (x.abs == 1 && !y.isFinite) := by simp [hfinite]
  rw [power, if_neg hunit, pow, hzero, Bool.true_or, if_pos rfl]

/-- The power of IEEE 754 passes `NaN` on from either side, but for its two special cases. -/
theorem isNaN_pow (h : x.isNaN ∨ y.isNaN) (hx : ¬ x == 1) (hy : ¬ y == 0) : (pow x y).isNaN := by
  rw [pow, if_neg (by simp [hx, hy]), if_pos (by simpa using h)]
  exact isNaN_undefined

theorem isNaN_power (h : x.isNaN ∨ y.isNaN) (hy : ¬ (y = 0 ∨ y = -0)) : (power x y).isNaN := by
  rw [power]
  split
  · exact isNaN_undefined
  · next hkept =>
    -- One to the power `NaN` would be one, but the base one is kept from such an exponent.
    have hone : ¬ x == 1 := by
      intro hx
      obtain rfl := eq_one_of_beq hx
      have hnan : y.isNaN := h.resolve_left (by decide +kernel)
      have hunit : (1 : Float).abs == 1 := by decide +kernel
      exact hkept (by simp [hunit, not_isFinite_of_isNaN hnan])
    exact isNaN_pow h hone (mt beq_zero_iff.1 hy)

example : pow 1 undefined = 1 ∧ (power 1 undefined).isNaN := by decide +kernel

/-! ### Factorials and concatenations -/

theorem isNaN_factorial (h : x.isNaN) : (factorial x).isNaN := by
  have hnone : wholeUpTo? maxFactorial x = none := by
    rw [wholeUpTo?]
    simp only [beq_of_isNaN h, Bool.false_eq_true, if_false, dite_eq_right_iff, implies_true]
  rw [factorial, hnone]
  exact isNaN_undefined

/-- The text of a double that is not finite has letters. -/
theorem exists_letter_of_not_isFinite (h : ¬ x.isFinite) :
    ∃ c ∈ decimalChars x, ¬ (c.isDigit ∨ c = '.' ∨ c = '-') := by
  by_cases hnan : x.isNaN
  · rw [decimalChars, if_pos hnan]
    exact ⟨'N', List.mem_cons_self, by decide⟩
  · have hinf : x.isInf := by_contra fun hinf => h (isFinite_of_not hnan hinf)
    rw [decimalChars, if_neg hnan, if_pos hinf]
    exact ⟨'i', List.mem_append_right _ List.mem_cons_self, by decide⟩

/-- Only finite doubles are read side by side. -/
theorem isNaN_juxtapose (h : ¬ x.isFinite ∨ ¬ y.isFinite) : (juxtapose x y).isNaN := by
  have hletter : ∃ c ∈ decimalChars x ++ decimalChars y, ¬ (c.isDigit ∨ c = '.' ∨ c = '-') := by
    rcases h with h | h
    · obtain ⟨c, hc, hother⟩ := exists_letter_of_not_isFinite h
      exact ⟨c, List.mem_append_left _ hc, hother⟩
    · obtain ⟨c, hc, hother⟩ := exists_letter_of_not_isFinite h
      exact ⟨c, List.mem_append_right _ hc, hother⟩
  obtain ⟨c, hc, hother⟩ := hletter
  rw [juxtapose]
  split
  · next n hread => exact absurd (Numeral.isDigit_or_of_mem_of_read? hread hc) hother
  · exact isNaN_undefined

end Double

/-! ## From a place to the root -/

namespace Expr

/-- The frame holds a base whose exponent is zero, so that its value is one. -/
def Frame.Stops : Frame → Prop
  | .left .power exponent => exponent.value = 0 ∨ exponent.value = -0
  | _ => False

variable {e : Expr} {f : Frame}

theorem Frame.stops_iff : f.Stops ↔ ∃ exponent, f = .left .power exponent ∧
    (exponent.value = 0 ∨ exponent.value = -0) := by
  constructor
  · intro h
    cases f with
    | left o exponent =>
      cases o with
      | power => exact ⟨exponent, rfl, h⟩
      | add | subtract | multiply | divide => exact h.elim
    | sqrt | factorial | concatLeft _ | concatRight _ | right _ _ => exact h.elim
  · rintro ⟨exponent, rfl, h⟩
    exact h

/-- A frame that stops `NaN` has the value one, whatever is in it. -/
theorem Frame.Stops.value_around (h : f.Stops) (e : Expr) : (f.around e).value = 1 := by
  obtain ⟨exponent, rfl, hzero⟩ := Frame.stops_iff.1 h
  exact Double.power_of_eq_zero hzero e.value

/-- All other frames pass it on. -/
theorem isNaN_around (h : e.value.isNaN) (hf : ¬ f.Stops) : (f.around e).value.isNaN := by
  cases f with
  | sqrt => exact Double.isNaN_sqrt h
  | factorial => exact Double.isNaN_factorial h
  | concatLeft r => exact Double.isNaN_juxtapose (.inl (Double.not_isFinite_of_isNaN h))
  | concatRight l => exact Double.isNaN_juxtapose (.inr (Double.not_isFinite_of_isNaN h))
  | left o r =>
    by_cases ho : o = .power
    · subst ho
      exact Double.isNaN_power (.inl h) hf
    · exact Double.isNaN_apply ho (.inl h)
  | right o l =>
    by_cases ho : o = .power
    · subst ho
      exact Double.isNaN_power (.inr h) (mt Double.beq_zero_iff.2 (Double.not_beq_zero_of_isNaN h))
    · exact Double.isNaN_apply ho (.inr h)

/-- On a way without frames that stop it, `NaN` is passed on to the root. -/
theorem isNaN_surrounded {frames : List Frame} (h : e.value.isNaN)
    (hframes : ∀ f ∈ frames, ¬ f.Stops) : (e.surrounded frames).value.isNaN := by
  induction frames generalizing e with
  | nil => exact h
  | cons f frames ih =>
    rw [List.forall_mem_cons] at hframes
    rw [surrounded_cons]
    exact ih (isNaN_around h hframes.1) hframes.2

end Expr

open DigitReach.Expr

/-- Wherever `NaN` is the value of what stands in an expression, it is the value of the
    expression too, unless a frame on the way to the root stops it: one that holds a base,
    with an exponent that is one of the two zeros. Whatever is in such a frame, its value is
    one, and the expression has the value that it has with `1` in place of the frame. All else
    passes `NaN` on: a power from its exponent, over any base, and whatever is no power from
    any side. -/
theorem nan_passes {p e : Expr} {frames : List Frame} (hplace : p.surrounded frames = e)
    (hnan : p.value.isNaN) :
    (e.value.isNaN ∨ ∃ f ∈ frames, f.Stops) ∧
      (∀ inner f outer, frames = inner ++ f :: outer → f.Stops →
        (f.around (p.surrounded inner)).value = 1 ∧
          e.value = ((Expr.constant 1).surrounded outer).value) ∧
      (∀ base, (Expr.binary .power base p).value.isNaN) ∧
      ∀ f : Frame, (∀ exponent, f ≠ .left .power exponent) → (f.around p).value.isNaN := by
  refine ⟨?_, fun inner f outer hframes hstops => ?_, fun base => ?_, fun f hf => ?_⟩
  · by_cases hstops : ∃ f ∈ frames, f.Stops
    · exact .inr hstops
    · push Not at hstops
      exact .inl (hplace ▸ isNaN_surrounded hnan hstops)
  · have hone : (f.around (p.surrounded inner)).value = (Expr.constant 1).value :=
      hstops.value_around _
    refine ⟨hone, ?_⟩
    rw [← hplace, hframes, surrounded_append]
    exact value_surrounded_congr hone outer
  · exact isNaN_around (f := .right .power base) hnan id
  · refine isNaN_around hnan fun hstops => ?_
    obtain ⟨exponent, rfl, -⟩ := Frame.stops_iff.1 hstops
    exact hf exponent rfl

/-- In `9 - (0 / 0 + 1)^0` the quotient is `NaN`, and so is the sum; but the power is `1`, and
    the value of the whole is `8`. -/
theorem nan_passes_difference :
    let digit (d : Nat) : Expr := .constant (Float.ofNat d)
    let p := Expr.binary .divide (digit 0) (digit 0)
    let power := Expr.binary .power (.binary .add p (digit 1)) (digit 0)
    let e := Expr.binary .subtract (digit 9) power
    let frames := [.left .add (digit 1), .left .power (digit 0), .right .subtract (digit 9)]
    p.surrounded frames = e ∧ p.value.isNaN ∧ ¬ e.value.isNaN ∧ (∃ f ∈ frames, f.Stops) ∧
      power.value = 1 ∧ e.value = (Expr.binary .subtract (digit 9) (.constant 1)).value := by
  intro digit p power e frames
  have hplace : p.surrounded frames = e := rfl
  have hnan : p.value.isNaN := by decide +kernel
  have hvalue : ¬ e.value.isNaN := by decide +kernel
  obtain ⟨hpasses, hstops, -⟩ := nan_passes hplace hnan
  have hzero : Frame.Stops (.left .power (digit 0)) := .inl rfl
  exact ⟨hplace, hnan, hvalue, hpasses.resolve_left hvalue,
    hstops [.left .add (digit 1)] _ [.right .subtract (digit 9)] rfl hzero⟩

end DigitReach

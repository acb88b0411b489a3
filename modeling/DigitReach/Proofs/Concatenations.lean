import DigitReach.Proofs.Bracketings
import DigitReach.Proofs.Undefined
import DigitReach.Proofs.WholeNumbers

/-!
# The value of a concatenation

The value of a concatenation is read from the texts of both sides, one behind the other. Two
numerals make one if the second has no sign, which would stand inside, and not both have a
point (`Numeral.isSome_read?_append`). All else that the text of a double may be has letters,
and is part of no numeral.

* `Double.places_shortest_eq_zero_iff`: the text of a finite double has a point exactly if the
  double has a fractional part, so the condition is one on the doubles:
  `Double.isNaN_juxtapose_iff`;
* `Double.IsNat.juxtapose`: of whole numbers, the first is moved to the left by the digits of
  the second, and the second is added, as long as the sum is below `2 ^ 53`;
* `Grouping.isNat_literal`: so the value of a literal is spelled by its digits. But zeros in
  front of a right part are lost, since this is read as a number first: `1` and `02` make `12`.
  In a chain that leans to the left, all right parts are single digits, and none is lost.
-/

namespace DigitReach

open DigitReach.Double DigitReach.Numeral

/-! ## Numerals side by side -/

namespace Numeral

variable {n m : Numeral} {negative : Bool} {cs ds rest : List Char}

/-- Digits, and perhaps a point and more digits, are read. -/
theorem isSome_readUnsigned? (negative : Bool) (hne : ds ≠ []) (hds : ∀ c ∈ ds, c.isDigit)
    (hrest : rest = [] ∨ ∃ fs, rest = '.' :: fs ∧ fs ≠ [] ∧ ∀ c ∈ fs, c.isDigit) :
    (readUnsigned? negative (ds ++ rest)).isSome := by
  rcases hrest with rfl | ⟨fs, rfl, hnef, hfs⟩
  · rw [List.append_nil, readUnsigned?_whole negative hne hds]
    rfl
  · rw [readUnsigned?_fraction negative hne hds hnef hfs]
    rfl

theorem count_point_eq_zero (h : ∀ c ∈ cs, c.isDigit) : cs.count '.' = 0 :=
  List.count_eq_zero.2 fun hmem => absurd (h '.' hmem) (by decide)

/-- A numeral has one point at most. -/
theorem count_point_le_of_readUnsigned? (h : readUnsigned? negative cs = some n) :
    cs.count '.' ≤ 1 := by
  obtain ⟨ds, rest, rfl, -, hds, hrest⟩ := of_readUnsigned? h
  rw [List.count_append, count_point_eq_zero hds]
  rcases hrest with rfl | ⟨fs, rfl, -, hfs⟩
  · exact Nat.zero_le 1
  · rw [List.count_cons_self, count_point_eq_zero hfs]

theorem count_point_magnitude (n : Numeral) :
    n.magnitude.chars.count '.' = if n.places = 0 then 0 else 1 := by
  rw [chars_magnitude, List.count_append, count_point_eq_zero fun _ => isDigit_of_mem_digitsOf]
  split
  · rfl
  · rw [List.count_cons_self, count_point_eq_zero fun _ => isDigit_of_mem_lowDigits]

theorem magnitude_eq (h : n.negative = false) : n.magnitude = n := by
  rw [magnitude, ← h]

theorem minus_mem_chars (h : n.negative = true) : '-' ∈ n.chars := by
  rw [chars, h]
  exact List.mem_append_left _ (List.mem_append_left _ List.mem_cons_self)

/-- If the texts of two numerals are read as one, the second has no sign, and one of them has no
    fraction. -/
theorem of_read?_append {k : Numeral} (h : read? (n.chars ++ m.chars) = some k) :
    m.negative = false ∧ (n.places = 0 ∨ m.places = 0) := by
  rw [read?_chars_append] at h
  have hnegative : m.negative = false := by
    by_contra hsign
    have hminus := minus_mem_chars (Bool.eq_true_of_not_eq_false hsign)
    rcases isDigit_or_of_mem_of_readUnsigned? h (List.mem_append_right _ hminus) with hc | hc
    · exact absurd hc (by decide)
    · exact absurd hc (by decide)
  have hcount := count_point_le_of_readUnsigned? h
  rw [← magnitude_eq hnegative, List.count_append, count_point_magnitude,
    count_point_magnitude] at hcount
  refine ⟨hnegative, ?_⟩
  by_contra hplaces
  rw [not_or] at hplaces
  rw [if_neg hplaces.1, if_neg hplaces.2] at hcount
  exact absurd hcount (by decide)

/-- If one of two numerals has no fraction, their texts without signs are read as one. -/
theorem isSome_readUnsigned?_append (negative : Bool) (h : n.places = 0 ∨ m.places = 0) :
    (readUnsigned? negative (n.magnitude.chars ++ m.magnitude.chars)).isSome := by
  rw [chars_magnitude, chars_magnitude]
  by_cases hn : n.places = 0
  · -- All digits of the first stand in front of those of the second.
    obtain ⟨hne, hdigits⟩ := digitsOf_append_digitsOf (n.digits / 10 ^ n.places)
      (m.digits / 10 ^ m.places)
    rw [if_pos hn, List.append_nil, ← List.append_assoc]
    refine isSome_readUnsigned? _ hne hdigits ?_
    split
    · exact .inl rfl
    · next hm =>
      have hlength := length_lowDigits m.digits m.places
      exact .inr ⟨_, rfl, List.ne_nil_of_length_pos (by omega), fun _ => isDigit_of_mem_lowDigits⟩
  · -- All digits of the second stand behind the point of the first.
    rw [if_neg hn, if_pos (h.resolve_left hn), List.append_nil, List.append_assoc]
    refine isSome_readUnsigned? _ (digitsOf_ne_nil _) (fun _ => isDigit_of_mem_digitsOf)
      (.inr ⟨_, rfl, List.append_ne_nil_of_right_ne_nil _ (digitsOf_ne_nil _), ?_⟩)
    exact List.forall_mem_append.2
      ⟨fun _ => isDigit_of_mem_lowDigits, fun _ => isDigit_of_mem_digitsOf⟩

/-- The texts of two numerals, one behind the other, are a numeral exactly if the second has no
    sign, and one of them has no fraction. -/
theorem isSome_read?_append (n m : Numeral) :
    (read? (n.chars ++ m.chars)).isSome ↔ m.negative = false ∧ (n.places = 0 ∨ m.places = 0) := by
  constructor
  · intro h
    obtain ⟨k, hk⟩ := Option.isSome_iff_exists.1 h
    exact of_read?_append hk
  · rintro ⟨hnegative, hplaces⟩
    rw [read?_chars_append, ← magnitude_eq hnegative]
    exact isSome_readUnsigned?_append n.negative hplaces

/-! ## Points in the texts of doubles -/

theorem places_shortestWhole (x : Float) (whole step zeros : Nat) :
    (shortestWhole x whole step zeros).places = 0 := by
  induction zeros with
  | zero => rfl
  | succ zeros ih => exact of_getD_pick? (·.places = 0) (fun _ => rfl) (fun _ => rfl) ih

theorem le_places_shortestFraction (x : Float) (steps bits grids places : Nat) :
    places ≤ (shortestFraction x steps bits grids places).places := by
  induction grids generalizing places with
  | zero => exact le_rfl
  | succ grids ih =>
    exact of_getD_pick? (places ≤ ·.places) (fun _ => le_rfl) (fun _ => le_rfl)
      ((Nat.le_succ places).trans (ih _))

end Numeral

namespace Double

variable {x y : Float} {m n : Nat}

/-- The double has a fractional part. -/
def Fractional (x : Float) : Prop := (toRat x).den ≠ 1

instance (x : Float) : Decidable (Fractional x) := inferInstanceAs (Decidable (_ ≠ _))

/-- A double is whole exactly if its units make up whole ones. -/
theorem not_fractional_iff : ¬ Fractional x ↔ 2 ^ unitBits ∣ units x := by
  have hden : (toRat x).den = ((units x : ℚ) / (2 ^ unitBits : Nat)).den := by
    rw [toRat, signum, Nat.cast_pow, Nat.cast_ofNat]
    split
    · rw [neg_one_mul, Rat.neg_den]
    · rw [one_mul]
  rw [Fractional, not_not, hden]
  exact Rat.den_div_natCast_eq_one_iff _ _ (Nat.two_pow_pos unitBits).ne'

/-- The text of a finite double has a point exactly if the double has a fractional part. -/
theorem places_shortest_eq_zero_iff (x : Float) : (shortest x).places = 0 ↔ ¬ Fractional x := by
  rw [not_fractional_iff, units_eq, shortest]
  split
  · next hlt =>
    refine iff_of_true (places_shortestWhole x _ _ _) ?_
    exact Dvd.dvd.mul_left (Nat.pow_dvd_pow 2 hlt.le) _
  · next hle =>
    have hpow : 2 ^ unitBits = 2 ^ (unitBits - scale x) * 2 ^ scale x := by
      rw [← pow_add, Nat.sub_add_cancel (Nat.le_of_not_lt hle)]
    have hwhole : significand x >>> (unitBits - scale x) <<< (unitBits - scale x) = significand x ↔
        2 ^ (unitBits - scale x) ∣ significand x := by
      rw [Nat.shiftRight_eq_div_pow, Nat.shiftLeft_eq]
      exact ⟨Dvd.intro_left _, Nat.div_mul_cancel⟩
    rw [hpow, Nat.mul_dvd_mul_iff_right (Nat.two_pow_pos _), ← hwhole]
    dsimp only
    split
    · next heq => exact iff_of_true rfl heq
    · next hne =>
      have hplaces := le_places_shortestFraction x (significand x) (unitBits - scale x)
        (unitBits - scale x - firstPlaces (significand x) (unitBits - scale x))
        (firstPlaces (significand x) (unitBits - scale x))
      have hfirst : 1 ≤ firstPlaces (significand x) (unitBits - scale x) := le_max_left _ _
      exact iff_of_false (by omega) hne

/-! ## Where a concatenation has a value -/

/-- What is rounded to the nearest double is a number, or infinite. -/
theorem not_isNaN_ofRatio (negative : Bool) (num den : Nat) :
    ¬ (ofRatio negative num den).isNaN := by
  intro h
  have hlt := infinityBits_lt_of_isNaN h
  rw [magnitudeBits_ofRatio] at hlt
  exact (nearestBits_le num den).not_gt hlt

/-- A concatenation has a value if the texts of both sides make a numeral. -/
theorem isNaN_juxtapose_iff_read? :
    (juxtapose x y).isNaN ↔ ¬ (read? (decimalChars x ++ decimalChars y)).isSome := by
  rw [juxtapose]
  split
  · next k hread =>
    rw [hread]
    exact iff_of_false (not_isNaN_ofRatio _ _ _) (not_not_intro rfl)
  · next hread =>
    rw [hread]
    exact iff_of_true isNaN_undefined Bool.false_ne_true

theorem isNaN_juxtapose_iff : (juxtapose x y).isNaN ↔
    ¬ x.isFinite ∨ ¬ y.isFinite ∨ signed y ∨ Fractional x ∧ Fractional y := by
  by_cases hfinite : x.isFinite ∧ y.isFinite
  · obtain ⟨hx, hy⟩ := hfinite
    rw [isNaN_juxtapose_iff_read?, decimalChars_of_isFinite hx, decimalChars_of_isFinite hy,
      isSome_read?_append, (shows_shortest hy).negative, places_shortest_eq_zero_iff,
      places_shortest_eq_zero_iff]
    simp only [hx, hy, not_true, false_or]
    rw [not_and_or, not_or, not_not, not_not, Bool.not_eq_false]
  · rw [not_and_or] at hfinite
    refine iff_of_true (isNaN_juxtapose hfinite) ?_
    exact hfinite.imp_right .inl

/-! ## Whole numbers -/

/-- The double is a natural number, without a sign. -/
structure IsNat (x : Float) (n : Nat) : Prop where
  finite : x.isFinite
  unsigned : ¬ signed x
  toRat_eq : toRat x = n

/-- Below `2 ^ 53`, only the double nearest to a natural number is this number. -/
theorem isNat_iff (hn : n < 2 ^ 53) : IsNat x n ↔ x = ofWhole n := by
  have hpos : (0 : ℚ) < 2 ^ unitBits := by positivity
  constructor
  · intro h
    have hunits := h.toRat_eq
    rw [toRat, signum, if_neg h.unsigned, one_mul, div_eq_iff hpos.ne'] at hunits
    have hratio : n * 2 ^ unitBits = units x * 1 := by
      rw [mul_one]
      exact_mod_cast hunits.symm
    have heq := ofRatio_of_eq h.finite Nat.one_pos hratio
    rwa [Bool.eq_false_of_not_eq_true h.unsigned, eq_comm] at heq
  · rintro rfl
    obtain ⟨hfinite, hunits⟩ := units_ofWhole hn
    have hsigned : ¬ signed (ofWhole n) := by
      rw [ofWhole, signed_ofRatio]
      exact Bool.false_ne_true
    refine ⟨hfinite, hsigned, ?_⟩
    rw [toRat, signum, if_neg hsigned, one_mul, hunits, div_eq_iff hpos.ne']
    push_cast
    rfl

theorem isNat_ofNat {d : Nat} (h : d ≤ maxOperand) : IsNat (Float.ofNat d) d := by
  have hlt : d < 10 := Nat.lt_succ_of_le h
  exact (isNat_iff (by omega)).2 (ofNat_eq_ofWhole h)

/-- The digits of two numbers spell the first one, moved to the left by the digits of the
    second, and the second. -/
theorem ofDigitChars_digitsOf_append (m n : Nat) :
    Nat.ofDigitChars 10 (digitsOf m ++ digitsOf n) 0 =
      m * 10 ^ (Nat.toDigits 10 n).length + n := by
  rw [Nat.ofDigitChars_append, digitsOf_eq, digitsOf_eq, Nat.ofDigitChars_ten_toDigits,
    Nat.ofDigitChars_eq_ofDigitChars_zero, Nat.ofDigitChars_ten_toDigits, mul_comm]

/-- Whole numbers side by side are the first one, moved to the left by the digits of the second,
    and the second. -/
theorem IsNat.juxtapose (hx : IsNat x m) (hy : IsNat y n)
    (h : m * 10 ^ (Nat.toDigits 10 n).length + n < 2 ^ 53) :
    IsNat (juxtapose x y) (m * 10 ^ (Nat.toDigits 10 n).length + n) := by
  have hpow : 0 < 10 ^ (Nat.toDigits 10 n).length := by positivity
  have hle := Nat.le_mul_of_pos_right m hpow
  have hm : m < 2 ^ 53 := by omega
  have hn : n < 2 ^ 53 := by omega
  rw [isNat_iff h, (isNat_iff hm).1 hx, (isNat_iff hn).1 hy, juxtapose_ofWhole hm hn,
    ofDigitChars_digitsOf_append]

end Double

/-! ## Digits -/

/-- The number that digits spell, the highest one first. -/
def spelled (ds : List Nat) : Nat := Nat.ofDigits 10 ds.reverse

/-- Digits without the zeros in front of the others. The last one is kept. -/
def withoutLeadingZeros : List Nat → List Nat
  | 0 :: d :: ds => withoutLeadingZeros (d :: ds)
  | ds => ds

theorem withoutLeadingZeros_singleton (d : Nat) : withoutLeadingZeros [d] = [d] := by
  rw [withoutLeadingZeros]
  nofun

section

variable {ds : List Nat}

theorem spelled_append (as bs : List Nat) :
    spelled (as ++ bs) = spelled as * 10 ^ bs.length + spelled bs := by
  rw [spelled, List.reverse_append, Nat.ofDigits_append, List.length_reverse, mul_comm, add_comm]
  rfl

theorem spelled_singleton (d : Nat) : spelled [d] = d := Nat.ofDigits_singleton

theorem spelled_cons (d : Nat) (ds : List Nat) :
    spelled (d :: ds) = d * 10 ^ ds.length + spelled ds := by
  rw [← List.singleton_append, spelled_append, spelled_singleton]

theorem spelled_lt (h : ∀ d ∈ ds, d ≤ maxOperand) : spelled ds < 10 ^ ds.length := by
  rw [spelled, ← List.length_reverse]
  refine Nat.ofDigits_lt_base_pow_length (by decide) fun d hd => ?_
  exact Nat.lt_succ_of_le (h d (List.mem_reverse.1 hd))

theorem withoutLeadingZeros_sublist (ds : List Nat) : (withoutLeadingZeros ds).Sublist ds := by
  fun_induction withoutLeadingZeros ds with
  | case1 d ds ih => exact ih.cons 0
  | case2 ds _ => exact .refl ds

/-- Zeros in front do not count. -/
theorem spelled_withoutLeadingZeros (ds : List Nat) :
    spelled (withoutLeadingZeros ds) = spelled ds := by
  fun_induction withoutLeadingZeros ds with
  | case1 d ds ih => rw [ih, spelled_cons 0, Nat.zero_mul, Nat.zero_add]
  | case2 ds _ => rfl

/-- Behind a number that is not zero, all digits are written. -/
theorem toDigits_mul_pow_add {m : Nat} (hm : 0 < m) (h : ∀ d ∈ ds, d ≤ maxOperand) :
    Nat.toDigits 10 (m * 10 ^ ds.length + spelled ds) =
      Nat.toDigits 10 m ++ ds.map Nat.digitChar := by
  induction ds generalizing m with
  | nil => simp [spelled]
  | cons d ds ih =>
    rw [List.forall_mem_cons] at h
    have hd : d < 10 := Nat.lt_succ_of_le h.1
    have hmove : m * 10 ^ (d :: ds).length + spelled (d :: ds) =
        (10 * m + d) * 10 ^ ds.length + spelled ds := by
      rw [spelled_cons, List.length_cons, pow_succ]
      ring
    rw [hmove, ih (by omega) h.2, ← Nat.toDigits_append_toDigits (by decide) hm hd,
      Nat.toDigits_of_lt_base hd, List.append_assoc, List.map_cons, List.singleton_append]

/-- A number is written by the digits that spell it, without the zeros in front. -/
theorem toDigits_spelled (hne : ds ≠ []) (h : ∀ d ∈ ds, d ≤ maxOperand) :
    Nat.toDigits 10 (spelled ds) = (withoutLeadingZeros ds).map Nat.digitChar := by
  fun_induction withoutLeadingZeros ds with
  | case1 d ds ih =>
    rw [spelled_cons 0, Nat.zero_mul, Nat.zero_add]
    exact ih (List.cons_ne_nil d ds) (List.forall_mem_cons.1 h).2
  | case2 ds hzero =>
    obtain ⟨d, ds, rfl⟩ := List.exists_cons_of_ne_nil hne
    rw [List.forall_mem_cons] at h
    have hd : d < 10 := Nat.lt_succ_of_le h.1
    rcases ds with _ | ⟨d', ds⟩
    · rw [spelled_singleton, Nat.toDigits_of_lt_base hd, List.map_singleton]
    · have hpos : 0 < d := Nat.pos_of_ne_zero fun hd => hzero d' ds (hd ▸ rfl)
      rw [spelled_cons, toDigits_mul_pow_add hpos h.2, Nat.toDigits_of_lt_base hd]
      rfl

end

/-! ## Literals -/

namespace Grouping

/-- The literal that concatenates digits as they are grouped. -/
def literal : Grouping Nat → Expr
  | item d => .constant (Float.ofNat d)
  | pair l r => .concat l.literal r.literal

/-- The digits that spell the value of the literal: of each right part, those without the zeros
    in front. -/
def keptDigits : Grouping Nat → List Nat
  | item d => [d]
  | pair l r => l.keptDigits ++ withoutLeadingZeros r.keptDigits

/-- A chain that leans to the left: each digit but the first is the right part of a pair. -/
def leftChain (d : Nat) (ds : List Nat) : Grouping Nat :=
  ds.foldl (fun g d => pair g (item d)) (item d)

theorem keptDigits_ne_nil (g : Grouping Nat) : g.keptDigits ≠ [] := by
  induction g with
  | item d => exact List.cons_ne_nil d []
  | pair l r ihl _ => exact List.append_ne_nil_of_left_ne_nil ihl _

theorem keptDigits_sublist (g : Grouping Nat) : g.keptDigits.Sublist g.items := by
  induction g with
  | item d => exact .refl [d]
  | pair l r ihl ihr => exact ihl.append ((withoutLeadingZeros_sublist _).trans ihr)

theorem keptDigits_le {g : Grouping Nat} (h : ∀ d ∈ g.items, d ≤ maxOperand) :
    ∀ d ∈ g.keptDigits, d ≤ maxOperand :=
  fun d hd => h d (g.keptDigits_sublist.subset hd)

/-- At most `15` digits spell a number that is a double. -/
theorem spelled_keptDigits_lt {g : Grouping Nat} (hdigit : ∀ d ∈ g.items, d ≤ maxOperand)
    (hlength : g.items.length ≤ 15) : spelled g.keptDigits < 2 ^ 53 := by
  have hle := g.keptDigits_sublist.length_le.trans hlength
  calc spelled g.keptDigits < 10 ^ g.keptDigits.length := spelled_lt (keptDigits_le hdigit)
    _ ≤ 10 ^ 15 := Nat.pow_le_pow_right (by decide) hle
    _ ≤ 2 ^ 53 := by decide

/-- The value of a literal over at most `15` digits is spelled by those that it keeps. -/
theorem isNat_literal {g : Grouping Nat} (hdigit : ∀ d ∈ g.items, d ≤ maxOperand)
    (hlength : g.items.length ≤ 15) : IsNat g.literal.value (spelled g.keptDigits) := by
  induction g with
  | item d =>
    rw [keptDigits, spelled_singleton]
    exact isNat_ofNat (hdigit d (List.mem_singleton_self d))
  | pair l r ihl ihr =>
    have hlt := spelled_keptDigits_lt hdigit hlength
    rw [items, List.forall_mem_append] at hdigit
    rw [items, List.length_append] at hlength
    have hdigits := toDigits_spelled r.keptDigits_ne_nil (keptDigits_le hdigit.2)
    -- The zeros that are left out are those that are not written of the number on the right.
    rw [keptDigits, spelled_append, spelled_withoutLeadingZeros, ← List.length_map Nat.digitChar,
      ← hdigits] at hlt ⊢
    exact (ihl hdigit.1 (by omega)).juxtapose (ihr hdigit.2 (by omega)) hlt

/-- What a chain has of its digits, if it has one more with each pair. -/
theorem foldl_pair {f : Grouping Nat → List Nat} (hf : ∀ g d, f (pair g (item d)) = f g ++ [d])
    (g : Grouping Nat) (ds : List Nat) :
    f (ds.foldl (fun g d => pair g (item d)) g) = f g ++ ds := by
  induction ds generalizing g with
  | nil => exact (List.append_nil _).symm
  | cons d ds ih => rw [List.foldl_cons, ih, hf, List.append_assoc, List.singleton_append]

theorem items_leftChain (d : Nat) (ds : List Nat) : (leftChain d ds).items = d :: ds :=
  foldl_pair (fun _ _ => rfl) (item d) ds

/-- A chain that leans to the left keeps all of its digits. -/
theorem keptDigits_leftChain (d : Nat) (ds : List Nat) : (leftChain d ds).keptDigits = d :: ds :=
  foldl_pair (fun g d => by rw [keptDigits, keptDigits, withoutLeadingZeros_singleton]) (item d) ds

end Grouping

/-! ## The result -/

/-- A concatenation of any two values is `NaN` exactly if one of them is not finite, the second
    has a sign, or both have a fractional part. Two whole numbers without signs make the first
    one, moved to the left by the digits of the second, and the second, if this is below
    `2 ^ 53`. So of at most `15` digits a chain that leans to the left makes the number that they
    spell, zeros included; and if they are grouped otherwise, they make the number that they
    spell without the zeros in front of right parts. -/
theorem concatenation_joins_numerals :
    (∀ l r : Expr, (Expr.concat l r).value.isNaN ↔
      ¬ l.value.isFinite ∨ ¬ r.value.isFinite ∨ signed r.value ∨
        Fractional l.value ∧ Fractional r.value) ∧
    (∀ (l r : Expr) (m n : Nat), IsNat l.value m → IsNat r.value n →
      m * 10 ^ (Nat.toDigits 10 n).length + n < 2 ^ 53 →
      IsNat (Expr.concat l r).value (m * 10 ^ (Nat.toDigits 10 n).length + n)) ∧
    (∀ d ds, (∀ c ∈ d :: ds, c ≤ maxOperand) → (d :: ds).length ≤ 15 →
      IsNat (Grouping.leftChain d ds).literal.value (spelled (d :: ds))) ∧
    ∀ l r : Grouping Nat, (∀ c ∈ l.items ++ r.items, c ≤ maxOperand) →
      (l.items ++ r.items).length ≤ 15 →
      IsNat (Expr.concat l.literal r.literal).value
        (spelled (l.keptDigits ++ withoutLeadingZeros r.keptDigits)) := by
  refine ⟨fun l r => isNaN_juxtapose_iff, fun l r m n hl hr h => hl.juxtapose hr h,
    fun d ds hdigit hlength => ?_, fun l r hdigit hlength => ?_⟩
  · rw [← Grouping.items_leftChain] at hdigit hlength
    rw [← Grouping.keptDigits_leftChain]
    exact Grouping.isNat_literal hdigit hlength
  · exact Grouping.isNat_literal (g := .pair l r) hdigit hlength

/-- Two halves side by side are no numeral, but a half and a `7` are one. The chain of `0`, `1`,
    `0`, `2` makes `102`; but if `0` and `2` are joined first, `01` and `02` make `12`. -/
theorem concatenation_joins_numerals_zeros :
    let digit (d : Nat) : Expr := .constant (Float.ofNat d)
    let half := Expr.binary .divide (digit 1) (digit 2)
    (Expr.concat half half).value.isNaN ∧ ¬ (Expr.concat half (digit 7)).value.isNaN ∧
      IsNat (Expr.concat (.concat (.concat (digit 0) (digit 1)) (digit 0)) (digit 2)).value 102 ∧
      IsNat (Expr.concat (.concat (digit 0) (digit 1)) (.concat (digit 0) (digit 2))).value 12 := by
  intro digit half
  obtain ⟨hnan, -, hchain, hgrouped⟩ := concatenation_joins_numerals
  have hhalf : Fractional half.value := by decide +kernel
  have hseven : ¬ (¬ half.value.isFinite ∨ ¬ (digit 7).value.isFinite ∨ signed (digit 7).value ∨
      Fractional half.value ∧ Fractional (digit 7).value) := by decide +kernel
  exact ⟨(hnan half half).2 (.inr (.inr (.inr ⟨hhalf, hhalf⟩))),
    fun h => hseven ((hnan half (digit 7)).1 h),
    hchain 0 [1, 0, 2] (by decide) (by decide),
    hgrouped (.pair (.item 0) (.item 1)) (.pair (.item 0) (.item 2)) (by decide) (by decide)⟩

end DigitReach

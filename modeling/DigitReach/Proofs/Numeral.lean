import DigitReach.Numeral.Shortest
import DigitReach.Proofs.Double

/-!
# Numerals are read back

What is written of a number can be read, and nothing is lost:

* `Numeral.read?_chars`: the text of a numeral is read as this numeral;
* `Numeral.of_readUnsigned?`: what is read without a sign is digits, and perhaps a point and
  more digits;
* `Numeral.shows_shortest`: the shortest numeral of a finite double has the sign of this
  double, and has it as its value;
* `read?_decimalChars`: so the text of a finite double is read as the double. If the double
  has no sign, its text is made of digits and a point (`isDigit_or_of_mem_decimalChars`).
-/

namespace DigitReach

namespace Numeral

/-! ## Digits -/

variable {c : Char} {n places : Nat}

theorem isDigit_of_mem_digitsOf (h : c ∈ digitsOf n) : c.isDigit := by
  rw [digitsOf_eq] at h
  exact Nat.isDigit_of_mem_toDigits (by decide) (by decide) h

theorem digitsOf_ne_nil (n : Nat) : digitsOf n ≠ [] := by
  rw [digitsOf_eq]
  exact Nat.toDigits_ne_nil

theorem isDigit_of_mem_lowDigits (h : c ∈ lowDigits n places) : c.isDigit := by
  induction places generalizing n with
  | zero => exact absurd h List.not_mem_nil
  | succ places ih =>
    rw [lowDigits_succ, List.mem_append, List.mem_singleton] at h
    rcases h with h | rfl
    · exact ih h
    · rw [Nat.isDigit_digitChar]
      exact decide_eq_true (Nat.mod_lt n (by decide))

theorem length_lowDigits (n places : Nat) : (lowDigits n places).length = places := by
  induction places generalizing n with
  | zero => rfl
  | succ places ih => rw [lowDigits_succ, List.length_append, ih, List.length_singleton]

/-- The last digits, read behind a number. -/
theorem ofDigitChars_lowDigits (n places init : Nat) :
    Nat.ofDigitChars 10 (lowDigits n places) init = init * 10 ^ places + n % 10 ^ places := by
  induction places generalizing n with
  | zero => simp [Nat.mod_one]
  | succ places ih =>
    rw [lowDigits_succ, Nat.ofDigitChars_append, ih,
      Nat.ofDigitChars_cons_digitChar_of_lt_ten (Nat.mod_lt n (by decide)), Nat.ofDigitChars_nil]
    have hmod : n % 10 ^ (places + 1) = n % 10 + 10 * (n / 10 % 10 ^ places) := by
      rw [pow_succ', Nat.mod_mul]
    rw [hmod, pow_succ']
    ring

/-! ## Texts -/

section

variable {ds fs : List Char}

/-- Digits are read as a whole number. -/
theorem readUnsigned?_whole (negative : Bool) (hne : ds ≠ []) (hds : ∀ c ∈ ds, c.isDigit) :
    readUnsigned? negative ds = some ⟨negative, Nat.ofDigitChars 10 ds 0, 0⟩ := by
  obtain ⟨d, rest, rfl⟩ := List.exists_cons_of_ne_nil hne
  rw [readUnsigned?, List.takeWhile_eq_self_iff.2 hds, List.dropWhile_eq_nil_iff.2 hds]

/-- Digits with a fraction are read as all of the digits, with those of the fraction behind
    the point. -/
theorem readUnsigned?_fraction (negative : Bool) (hne : ds ≠ []) (hds : ∀ c ∈ ds, c.isDigit)
    (hnef : fs ≠ []) (hfs : ∀ c ∈ fs, c.isDigit) :
    readUnsigned? negative (ds ++ '.' :: fs) =
      some ⟨negative, Nat.ofDigitChars 10 (ds ++ fs) 0, fs.length⟩ := by
  obtain ⟨d, rest, rfl⟩ := List.exists_cons_of_ne_nil hne
  have hpoint : ¬ Char.isDigit '.' := by decide
  rw [readUnsigned?, List.takeWhile_append_of_pos hds, List.dropWhile_append_of_pos hds,
    List.takeWhile_cons_of_neg hpoint, List.dropWhile_cons_of_neg hpoint, List.append_nil]
  refine if_pos ?_
  rw [Bool.and_eq_true, List.all_eq_true]
  exact ⟨by simpa using hnef, hfs⟩

end

/-- The numeral without its sign. -/
def magnitude (n : Numeral) : Numeral := {n with negative := false}

theorem chars_magnitude (n : Numeral) :
    n.magnitude.chars = digitsOf (n.digits / 10 ^ n.places) ++
      if n.places = 0 then [] else '.' :: lowDigits n.digits n.places := rfl

/-- A numeral without its sign is read as the numeral, once the sign is known. -/
theorem readUnsigned?_chars (n : Numeral) :
    readUnsigned? n.negative n.magnitude.chars = some n := by
  obtain ⟨negative, digits, places⟩ := n
  have hds : ∀ c ∈ digitsOf (digits / 10 ^ places), c.isDigit := fun _ => isDigit_of_mem_digitsOf
  have hvalue : Nat.ofDigitChars 10 (digitsOf (digits / 10 ^ places)) 0 = digits / 10 ^ places := by
    rw [digitsOf_eq, Nat.ofDigitChars_ten_toDigits]
  rw [chars_magnitude]
  dsimp only
  split
  · next hplaces =>
    rw [List.append_nil, readUnsigned?_whole negative (digitsOf_ne_nil _) hds, hvalue, hplaces,
      pow_zero, Nat.div_one]
  · next hplaces =>
    have hne : lowDigits digits places ≠ [] := by
      rw [← List.length_pos_iff, length_lowDigits]
      exact Nat.pos_of_ne_zero hplaces
    rw [readUnsigned?_fraction negative (digitsOf_ne_nil _) hds hne
      fun _ => isDigit_of_mem_lowDigits, Nat.ofDigitChars_append, hvalue, ofDigitChars_lowDigits,
      Nat.div_add_mod', length_lowDigits]

/-- Whatever is behind a numeral, its sign is read first. -/
theorem read?_chars_append (n : Numeral) (cs : List Char) :
    read? (n.chars ++ cs) = readUnsigned? n.negative (n.magnitude.chars ++ cs) := by
  obtain ⟨_ | _, digits, places⟩ := n
  · obtain ⟨d, ds, hds⟩ := List.exists_cons_of_ne_nil (digitsOf_ne_nil (digits / 10 ^ places))
    have hd : d.isDigit := isDigit_of_mem_digitsOf (hds ▸ List.mem_cons_self)
    rw [read?]
    · rfl
    -- The first character is a digit, and no sign.
    intro cs' hcs
    change digitsOf (digits / 10 ^ places) ++ _ ++ cs = '-' :: cs' at hcs
    rw [hds, List.cons_append, List.cons_append] at hcs
    obtain rfl := (List.cons.inj hcs).1
    exact absurd hd (by decide)
  · rfl

/-- The text of a numeral is read as the numeral. -/
theorem read?_chars (n : Numeral) : read? n.chars = some n := by
  have happend := read?_chars_append n []
  rwa [List.append_nil, List.append_nil, readUnsigned?_chars] at happend

/-- What is read without a minus sign has the sign that it is given. -/
theorem negative_of_readUnsigned? {negative : Bool} {cs : List Char} {n : Numeral}
    (h : readUnsigned? negative cs = some n) : n.negative = negative := by
  rw [readUnsigned?] at h
  split at h
  · cases h
  · exact Option.some.inj h ▸ rfl
  · split at h
    · exact Option.some.inj h ▸ rfl
    · cases h
  · cases h

/-- A numeral is negative only if there is a minus sign in front. -/
theorem negative_of_read? {cs : List Char} {n : Numeral} (h : read? cs = some n)
    (hcs : '-' ∉ cs) : n.negative = false := by
  unfold read? at h
  split at h
  · exact absurd List.mem_cons_self hcs
  · exact negative_of_readUnsigned? h

/-- What is read as a numeral without a sign is digits, at least one, and perhaps a point and
    more digits, at least one. -/
theorem of_readUnsigned? {negative : Bool} {cs : List Char} {n : Numeral}
    (h : readUnsigned? negative cs = some n) :
    ∃ ds rest, cs = ds ++ rest ∧ ds ≠ [] ∧ (∀ c ∈ ds, c.isDigit) ∧
      (rest = [] ∨ ∃ fs, rest = '.' :: fs ∧ fs ≠ [] ∧ ∀ c ∈ fs, c.isDigit) := by
  have hsplit := List.takeWhile_append_dropWhile (p := Char.isDigit) (l := cs)
  have hdigits : ∀ c ∈ cs.takeWhile Char.isDigit, c.isDigit := fun c hc =>
    List.mem_takeWhile_imp hc
  refine ⟨cs.takeWhile Char.isDigit, cs.dropWhile Char.isDigit, hsplit.symm, ?_, hdigits, ?_⟩
  · intro hnil
    rw [readUnsigned?, hnil] at h
    cases h
  · rw [readUnsigned?] at h
    split at h
    · cases h
    · next hrest => exact .inl hrest
    · next fs _ hrest =>
      split at h
      · next hfs =>
        rw [Bool.and_eq_true, List.all_eq_true] at hfs
        exact .inr ⟨fs, hrest, by simpa using hfs.1, hfs.2⟩
      · cases h
    · cases h

/-- What is read without a sign has no other characters than digits and a point. -/
theorem isDigit_or_of_mem_of_readUnsigned? {negative : Bool} {cs : List Char} {n : Numeral}
    (h : readUnsigned? negative cs = some n) {c : Char} (hc : c ∈ cs) : c.isDigit ∨ c = '.' := by
  obtain ⟨ds, rest, rfl, -, hds, hrest⟩ := of_readUnsigned? h
  rcases List.mem_append.1 hc with hc | hc
  · exact .inl (hds c hc)
  · rcases hrest with rfl | ⟨fs, rfl, -, hfs⟩
    · exact absurd hc List.not_mem_nil
    · exact (List.mem_cons.1 hc).symm.imp_left (hfs c)

/-- A numeral has no other characters than digits, a point and a minus sign. -/
theorem isDigit_or_of_mem_of_read? {cs : List Char} {n : Numeral} (h : read? cs = some n)
    {c : Char} (hc : c ∈ cs) : c.isDigit ∨ c = '.' ∨ c = '-' := by
  unfold read? at h
  split at h
  · rcases List.mem_cons.1 hc with rfl | hc
    · exact .inr (.inr rfl)
    · exact (isDigit_or_of_mem_of_readUnsigned? h hc).imp_right .inl
  · exact (isDigit_or_of_mem_of_readUnsigned? h hc).imp_right .inl

/-! ## Shortest numerals -/

variable {x : Float} {n : Numeral}

/-- The numeral has the sign and the value of the double. -/
structure Shows (n : Numeral) (x : Float) : Prop where
  negative : n.negative = Double.signed x
  toDouble : n.toDouble = x

theorem shows_of_eq {digits places : Nat} (hfinite : x.isFinite)
    (h : digits * 2 ^ Double.unitBits = Double.units x * 10 ^ places) :
    Shows ⟨Double.signed x, digits, places⟩ x :=
  ⟨rfl, Double.ofRatio_of_eq hfinite (Nat.pow_pos (by decide)) h⟩

theorem ReadsAs.shows (h : n.ReadsAs x) (hnegative : n.negative = Double.signed x) :
    Shows n x :=
  ⟨hnegative, Double.eq_of_toBits h⟩

/-- What holds of the points of a grid that read as the double, and of what is found on finer
    grids, holds of what is found. -/
theorem of_getD_pick? (p : Numeral → Prop) {near : Prop} [Decidable near]
    {lower upper rest : Numeral} {lowerNearer : Bool} (hlower : lower.ReadsAs x → p lower)
    (hupper : upper.ReadsAs x → p upper) (hrest : p rest) :
    p ((if near then pick? x lower upper lowerNearer else none).getD rest) := by
  split
  · rw [pick?]
    split
    · next hreads => exact hlower hreads.1
    · split
      · next hreads => exact hupper hreads
      · exact hrest
  · exact hrest

theorem shows_shortestWhole {whole : Nat} (hfinite : x.isFinite)
    (h : whole * 2 ^ Double.unitBits = Double.units x) (step zeros : Nat) :
    Shows (shortestWhole x whole step zeros) x := by
  induction zeros with
  | zero => exact shows_of_eq hfinite (by rw [h, pow_zero, mul_one])
  | succ zeros ih => exact of_getD_pick? (Shows · x) (·.shows rfl) (·.shows rfl) ih

theorem shows_shortestFraction {steps bits : Nat} (hfinite : x.isFinite)
    (h : steps * 2 ^ Double.unitBits = Double.units x * 2 ^ bits) {grids places : Nat}
    (hplaces : bits ≤ grids + places) : Shows (shortestFraction x steps bits grids places) x := by
  induction grids generalizing places with
  | zero =>
    -- There are at least as many places as bits, so the fraction is exact.
    refine shows_of_eq hfinite ?_
    obtain ⟨k, hk⟩ : 2 ^ bits ∣ 10 ^ places :=
      (Nat.pow_dvd_pow 2 (by omega)).trans (pow_dvd_pow_of_dvd (by decide) places)
    have hdigits : (steps * Nat.pow 10 places) >>> bits = steps * k := by
      rw [Nat.pow_eq, hk, Nat.shiftRight_eq_div_pow, mul_left_comm]
      exact Nat.mul_div_cancel_left _ (Nat.two_pow_pos bits)
    rw [hdigits, hk, mul_right_comm, h, mul_assoc]
  | succ grids ih =>
    exact of_getD_pick? (Shows · x) (·.shows rfl) (·.shows rfl) (ih (by omega))

theorem shows_shortest (hfinite : x.isFinite) : Shows (shortest x) x := by
  have hunits := Double.units_eq x
  rw [shortest]
  split
  · next hlt =>
    -- From `2 ^ 53` on, all doubles are whole.
    refine shows_shortestWhole hfinite ?_ _ _
    rw [Nat.shiftLeft_eq, mul_assoc, ← pow_add, Nat.sub_add_cancel hlt.le, hunits]
  · next hle =>
    have hpow : 2 ^ Double.unitBits =
        2 ^ (Double.unitBits - Double.scale x) * 2 ^ Double.scale x := by
      rw [← pow_add, Nat.sub_add_cancel (Nat.le_of_not_lt hle)]
    have hsteps : Double.significand x * 2 ^ Double.unitBits =
        Double.units x * 2 ^ (Double.unitBits - Double.scale x) := by
      rw [hpow, hunits, mul_right_comm, mul_assoc]
    dsimp only
    split
    · next hwhole =>
      refine shows_of_eq hfinite ?_
      rw [Nat.shiftLeft_eq] at hwhole
      rw [pow_zero, mul_one, hunits, hpow, ← mul_assoc, hwhole]
    · exact shows_shortestFraction hfinite hsteps (by omega)

end Numeral

/-! ## Texts of doubles -/

theorem decimalChars_of_isFinite {x : Float} (h : x.isFinite) :
    decimalChars x = (Numeral.shortest x).chars := by
  rw [decimalChars, Double.isNaN_of_isFinite h, Double.isInf_of_isFinite h]
  rfl

/-- The text of a finite double without a sign is made of digits and a point. -/
theorem isDigit_or_of_mem_decimalChars {x : Float} (h : x.isFinite) (hsign : ¬ Double.signed x)
    {c : Char} (hc : c ∈ decimalChars x) : c.isDigit ∨ c = '.' := by
  rw [decimalChars_of_isFinite h, Numeral.chars, (Numeral.shows_shortest h).negative,
    if_neg hsign, List.nil_append, List.mem_append] at hc
  rcases hc with hc | hc
  · exact .inl (Numeral.isDigit_of_mem_digitsOf hc)
  · split at hc
    · exact absurd hc List.not_mem_nil
    · rcases List.mem_cons.1 hc with hc | hc
      · exact .inr hc
      · exact .inl (Numeral.isDigit_of_mem_lowDigits hc)

/-- The text of a double without a sign has no minus sign. -/
theorem minus_not_mem_decimalChars {x : Float} (h : ¬ Double.signed x) : '-' ∉ decimalChars x := by
  rw [decimalChars, if_neg h]
  split
  · decide
  split
  · decide
  · next hnan hinf =>
    have hfinite := Double.isFinite_of_not hnan hinf
    intro hmem
    rw [← decimalChars_of_isFinite hfinite] at hmem
    rcases isDigit_or_of_mem_decimalChars hfinite h hmem with hdigit | hpoint
    · exact absurd hdigit (by decide)
    · exact absurd hpoint (by decide)

/-- The text of a finite double is read as the double. -/
theorem read?_decimalChars {x : Float} (h : x.isFinite) :
    (Numeral.read? (decimalChars x)).map Numeral.toDouble = some x := by
  rw [decimalChars_of_isFinite h, Numeral.read?_chars, Option.map_some,
    (Numeral.shows_shortest h).toDouble]

end DigitReach

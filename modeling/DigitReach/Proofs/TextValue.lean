import DigitReach.Proofs.Accuracy
import DigitReach.Proofs.Readback
import DigitReach.Proofs.Trials

/-!
# The value of a text

The text of an expression is read as the expression regrouped, which is the same in every
field, but not for doubles: `1 / 3 * (5 * 9)` is `15`, and its text `1 / 3 * 5 * 9` is less
(`not_reads_back`). What is rounded on the way makes the difference. So a step of regrouping
keeps the value (`Operator.Associates`)

* if nothing is rounded but what comes last, in either grouping;
* or, for `a * (b / c)`, if `a`, `c` and `a * b` are whole numbers, and the result is one.

And if all steps are such steps, or none is needed, the text has the value of the expression
(`value_eq_of_regroupsSafely`). What an answer says is then computed to the number that it is
the answer to (`reads_back_exactly`), unless it has a literal that is too great for a double:
the text of a literal is read only if the literal is finite (`read?_text_of_uses`).
-/

namespace DigitReach

open Double (toRat Whole signed)
open Reader
open Relation (ReflTransGen)

/-! ## Exact operations -/

namespace Operator

/-- What an operator other than the power does to numbers. -/
def onRat? : Operator → ℚ → ℚ → Option ℚ
  | add, q, r => some (q + r)
  | subtract, q, r => some (q - r)
  | multiply, q, r => some (q * r)
  | divide, q, r => if r = 0 then none else some (q / r)
  | power, _, _ => none

/-- Nothing is rounded. -/
structure Exact (o : Operator) (x y : Float) : Prop where
  left : x.isFinite
  right : y.isFinite
  finite : (o.apply x y).isFinite
  eq : o.onRat? (toRat x) (toRat y) = some (toRat (o.apply x y))

instance (o : Operator) (x y : Float) : Decidable (o.Exact x y) :=
  decidable_of_iff (x.isFinite ∧ y.isFinite ∧ (o.apply x y).isFinite ∧
      o.onRat? (toRat x) (toRat y) = some (toRat (o.apply x y)))
    ⟨fun ⟨h, h', h'', heq⟩ => ⟨h, h', h'', heq⟩, fun ⟨h, h', h'', heq⟩ => ⟨h, h', h'', heq⟩⟩

variable {o o' : Operator} {x y z : Float}

theorem Exact.toRat_divide (h : divide.Exact x y) :
    toRat y ≠ 0 ∧ toRat (x / y) = toRat x / toRat y := by
  have heq := h.eq
  rw [onRat?] at heq
  split at heq
  · cases heq
  · next hne => exact ⟨hne, (Option.some.inj heq).symm⟩

/-- When `x o (y o' z)` and `(x o y) o' z` are computed to the same double: nothing is rounded
    in `x o y` and `y o' z`, or what is divided by `z` is whole, and so are `z` and the
    quotient. -/
inductive Associates : Operator → Operator → Float → Float → Float → Prop
  | exact {o o' : Operator} {x y z : Float} : o.absorbs o' → o.Exact x y → o'.Exact y z →
    Associates o o' x y z
  | whole {x y z : Float} : multiply.Exact x y → Whole x → Whole (x * y) → Whole z →
    toRat z ≠ 0 → (y / z).isFinite → Whole (x * (y / z)) → Associates multiply divide x y z

theorem Associates.apply_eq (h : o.Associates o' x y z) :
    o'.apply (o.apply x y) z = o.apply x (o'.apply y z) := by
  cases h with
  | exact habsorbs hxy hyz =>
    have hx := hxy.left
    have hy := hyz.left
    have hz := hyz.right
    -- Four pairs of operators are left.
    cases o <;> cases o' <;> first | exact absurd habsorbs Bool.false_ne_true | skip
    · exact Double.add_assoc_of_exact hx hy hz hxy.finite hyz.finite
        (Option.some.inj hxy.eq).symm (Option.some.inj hyz.eq).symm
    · exact Double.add_sub_assoc_of_exact hx hy hz hxy.finite hyz.finite
        (Option.some.inj hxy.eq).symm (Option.some.inj hyz.eq).symm
    · exact Double.mul_assoc_of_exact hx hy hz hxy.finite hyz.finite
        (Option.some.inj hxy.eq).symm (Option.some.inj hyz.eq).symm
    · exact Double.mul_div_assoc_of_exact hx hy hz hyz.toRat_divide.1 hxy.finite hyz.finite
        (Option.some.inj hxy.eq).symm hyz.toRat_divide.2
  | whole hxy hx hproduct hz hne hyz hquotient =>
    exact Double.mul_div_assoc_of_whole hx hxy.right hz hne hyz hproduct
      (Option.some.inj hxy.eq).symm hquotient

end Operator

/-! ## Steps that keep the value -/

namespace Expr

/-- The right expression is the left one with one rule applied, at one place where that keeps
    the value. -/
inductive RegroupsSafely : Expr → Expr → Prop
  | rule {o o' : Operator} (a b c : Expr) : o.Associates o' a.value b.value c.value →
    RegroupsSafely (binary o a (binary o' b c)) (binary o' (binary o a b) c)
  | left {l l' : Expr} (o : Operator) (r : Expr) : RegroupsSafely l l' →
    RegroupsSafely (binary o l r) (binary o l' r)
  | right {r r' : Expr} (o : Operator) (l : Expr) : RegroupsSafely r r' →
    RegroupsSafely (binary o l r) (binary o l r')
  | sqrt {e e' : Expr} : RegroupsSafely e e' → RegroupsSafely (sqrt e) (sqrt e')
  | factorial {e e' : Expr} : RegroupsSafely e e' → RegroupsSafely (factorial e) (factorial e')

variable {e e' : Expr}

theorem RegroupsSafely.value_eq (h : RegroupsSafely e e') : e'.value = e.value := by
  induction h with
  | rule a b c h => exact h.apply_eq
  | left o r _ ih => exact congrArg (o.apply · r.value) ih
  | right o l _ ih => exact congrArg (o.apply l.value) ih
  | sqrt _ ih => exact congrArg Float.sqrt ih
  | factorial _ ih => exact congrArg Double.factorial ih

theorem value_plain (e : Expr) : e.plain.value = e.value := by
  induction e with
  | constant _ | concat _ _ => rfl
  | sqrt e ih => exact congrArg Float.sqrt ih
  | factorial e ih => exact congrArg Double.factorial ih
  | binary o l r ihl ihr => exact congrArg₂ o.apply ihl ihr

/-- Where all steps keep the value, the text has the value of the expression. -/
theorem value_eq_of_regroupsSafely (h : ReflTransGen RegroupsSafely e.plain e') :
    e'.value = e.value := by
  induction h with
  | refl => exact value_plain e
  | tail _ hstep ih => rw [hstep.value_eq, ih]

/-! ## Literals of digits -/

/-- The values of the literals that are written in the text. -/
def literals : Expr → List Float
  | constant x => [x]
  | e@(concat _ _) => [e.value]
  | sqrt e | factorial e => e.literals
  | binary _ l r => l.literals ++ r.literals

theorem writable_iff : e.Writable ↔ ∀ x ∈ e.literals, Double.Plain x := by
  induction e with
  | constant x => exact (List.forall_mem_singleton (p := Double.Plain)).symm
  | concat l r => exact (List.forall_mem_singleton (p := Double.Plain)).symm
  | sqrt e ih | factorial e ih => exact ih
  | binary o l r ihl ihr => rw [literals, List.forall_mem_append, ← ihl, ← ihr, Writable]

end Expr

section

variable {x y : Float} {e : Expr}

theorem not_signed_juxtapose (hx : ¬ signed x) (hy : ¬ signed y) :
    ¬ signed (Double.juxtapose x y) := by
  rw [Double.juxtapose]
  split
  · next n hn =>
    have hminus : '-' ∉ decimalChars x ++ decimalChars y :=
      List.not_mem_append (minus_not_mem_decimalChars hx) (minus_not_mem_decimalChars hy)
    rw [Numeral.toDouble, Double.signed_ofRatio, Numeral.negative_of_read? hn hminus]
    exact Bool.false_ne_true
  · decide +kernel

/-- A literal that is made of digits has no sign. -/
theorem not_signed_of_isLiteral (htidy : e.Tidy) (hliteral : e.isLiteral)
    (h : ∀ x ∈ e.operands, ¬ signed x) : ¬ signed e.value := by
  induction e with
  | constant x => exact h x (List.mem_singleton_self x)
  | concat l r ihl ihr =>
    rw [Expr.operands, List.forall_mem_append] at h
    exact not_signed_juxtapose (ihl htidy.2.1 htidy.1.1 h.1) (ihr htidy.2.2 htidy.1.2 h.2)
  | sqrt _ _ | factorial _ _ | binary _ _ _ _ _ => exact absurd hliteral Bool.false_ne_true

theorem not_signed_of_mem_literals (htidy : e.Tidy) (h : ∀ x ∈ e.operands, ¬ signed x) :
    ∀ x ∈ e.literals, ¬ signed x := by
  induction e with
  | constant x => exact h
  | concat l r =>
    exact List.forall_mem_singleton.2 (not_signed_of_isLiteral htidy rfl h)
  | sqrt e ih | factorial e ih => exact ih htidy.2 h
  | binary o l r ihl ihr =>
    rw [Expr.operands, List.forall_mem_append] at h
    exact List.forall_mem_append.2 ⟨ihl htidy.1 h.1, ihr htidy.2 h.2⟩

end

/-! ## The result -/

/-- The text of an expression over digits whose literals are finite is read as the expression
    regrouped. -/
theorem read?_text_of_uses {ds : List Nat} (hdigit : ∀ d ∈ ds, d ≤ maxOperand) {e : Expr}
    (huses : e.Uses (ds.map Float.ofNat)) (hfinite : ∀ x ∈ e.literals, x.isFinite) :
    read? e.text = some e.regrouped := by
  obtain ⟨hoperands, htidy⟩ := Expr.uses_iff.1 huses
  have hunsigned : ∀ x ∈ e.operands, ¬ signed x := by
    rw [hoperands, List.forall_mem_map]
    exact fun d hd => not_signed_ofNat (hdigit d hd)
  have hwritable := Expr.writable_iff.2 fun x hx =>
    ⟨hfinite x hx, not_signed_of_mem_literals htidy hunsigned x hx⟩
  exact read?_eq_some_iff.2
    ⟨e.tokens, lex?_text hwritable, (reads_tokens e).1.mono e.looseness_le⟩

theorem mem_candidates_of_digits {ds : List Nat} {e : Expr} :
    e ∈ candidates (ds.map fun d => .leaf (Float.ofNat d)) ↔ e.Uses (ds.map Float.ofNat) := by
  rw [← mem_candidates, List.map_map]
  rfl

/-- Of an expression over digits that is accepted as an answer to a number, the stored text is
    read as the expression regrouped, if its literals are finite. And if the steps of
    regrouping keep the value, or none is needed, what is read has the very value of the
    expression, and is an answer to the number as well. -/
theorem reads_back_exactly {ds : List Nat} (hdigit : ∀ d ∈ ds, d ≤ maxOperand) {e : Expr}
    (he : e ∈ candidates (ds.map fun d => .leaf (Float.ofNat d)))
    (hfinite : ∀ x ∈ e.literals, x.isFinite) {r : Registry} {c : Change}
    (hoffer : (r.offer e).2 = some c) :
    ∃ stored, (r.offer e).1.get? c.target.val = some stored ∧
      read? stored.text = some e.regrouped ∧
      (ReflTransGen Expr.RegroupsSafely e.plain e.regrouped →
        e.regrouped.value = e.value ∧ e.regrouped.Reaches c.target.val) := by
  rcases hchange : r.change? e with _ | c'
  · rw [Registry.offer, hchange] at hoffer
    cases hoffer
  rw [Registry.offer, hchange] at hoffer ⊢
  obtain rfl := Option.some.inj hoffer
  obtain ⟨hreaches, hanswer, -⟩ := Registry.change?_eq_some_iff.1 hchange
  refine ⟨c'.answer, ?_, ?_, fun hsafe => ?_⟩
  · rw [Registry.get?_record, if_pos rfl]
  · rw [hanswer]
    exact read?_text_of_uses hdigit (mem_candidates_of_digits.1 he) hfinite
  · have hvalue := Expr.value_eq_of_regroupsSafely hsafe
    refine ⟨hvalue, ?_⟩
    rwa [Expr.Reaches, hvalue]

/-- `6 * (5 / 3)` is accepted as an answer to `10`, and so its text is computed to `10`, although
    it is read as `(6 * 5) / 3`, and `5 / 3` is rounded. -/
theorem reads_back_exactly_ten :
    let digit (d : Nat) : Expr := .constant (Float.ofNat d)
    let e : Expr := .binary .multiply (digit 6) (.binary .divide (digit 5) (digit 3))
    let reading : Expr := .binary .divide (.binary .multiply (digit 6) (digit 5)) (digit 3)
    let c : Change := ⟨10, none, ⟨1, "6 * 5 / 3"⟩⟩
    (∀ d ∈ [6, 5, 3], d ≤ maxOperand) ∧
    e ∈ candidates ([6, 5, 3].map fun d => .leaf (Float.ofNat d)) ∧
    (∀ x ∈ e.literals, x.isFinite) ∧ (Registry.empty.offer e).2 = some c ∧
    ReflTransGen Expr.RegroupsSafely e.plain reading ∧
    (∃ stored, (Registry.empty.offer e).1.get? 10 = some stored ∧
      read? stored.text = some reading) ∧
    reading.value = e.value ∧ reading.Reaches 10 := by
  intro digit e reading c
  have hdigit : ∀ d ∈ [6, 5, 3], d ≤ maxOperand := by decide
  have he : e ∈ candidates ([6, 5, 3].map fun d => .leaf (Float.ofNat d)) :=
    mem_candidates_of_digits.2 (Expr.uses_iff.2 ⟨rfl, by decide⟩)
  have hfinite : ∀ x ∈ e.literals, x.isFinite := by decide +kernel
  have hoffer : (Registry.empty.offer e).2 = some c := by decide +kernel
  have hsafe : ReflTransGen Expr.RegroupsSafely e.plain reading :=
    .single (.rule _ _ _ (.whole (by decide +kernel) (by decide +kernel) (by decide +kernel)
      (by decide +kernel) (by decide +kernel) (by decide +kernel) (by decide +kernel)))
  obtain ⟨stored, hstored, hread, hvalue⟩ := reads_back_exactly hdigit he hfinite hoffer
  exact ⟨hdigit, he, hfinite, hoffer, hsafe, ⟨stored, hstored, hread⟩, hvalue hsafe⟩

/-- `2 ^ n` nines, joined to one literal. -/
def nines : Nat → Expr
  | 0 => .constant (Float.ofNat 9)
  | n + 1 => .concat (nines n) (nines n)

theorem operands_nines (n : Nat) :
    (nines n).operands = (List.replicate (2 ^ n) 9).map Float.ofNat := by
  induction n with
  | zero => rfl
  | succ n ih =>
    rw [nines, Expr.operands, ih, ← List.map_append, List.replicate_append_replicate, pow_succ,
      Nat.mul_two]

theorem tidy_nines (n : Nat) : (nines n).isLiteral ∧ (nines n).Tidy := by
  induction n with
  | zero => exact ⟨rfl, trivial⟩
  | succ n ih => exact ⟨rfl, ⟨ih.1, ih.1⟩, ih.2, ih.2⟩

/-- Neither condition can be left out. `1 / 3 * (5 * 9)` is accepted as an answer to `15`, but
    the text that is stored of it is computed to less than `15`. And `5`, divided by `512` nines
    in a row, is accepted as an answer to `0`, but its text cannot be read. -/
theorem not_reads_back :
    let digit (d : Nat) : Expr := .constant (Float.ofNat d)
    let third : Expr := .binary .divide (digit 1) (digit 3)
    let e : Expr := .binary .multiply third (.binary .multiply (digit 5) (digit 9))
    let reading : Expr := .binary .multiply (.binary .multiply third (digit 5)) (digit 9)
    let quotient : Expr := .binary .divide (digit 5) (nines 9)
    ((∀ d ∈ [1, 3, 5, 9], d ≤ maxOperand) ∧
      e ∈ candidates ([1, 3, 5, 9].map fun d => .leaf (Float.ofNat d)) ∧
      (Registry.empty.offer e).2 = some ⟨15, none, ⟨1, "1 / 3 * 5 * 9"⟩⟩ ∧
      (Registry.empty.offer e).1.get? 15 = some ⟨1, "1 / 3 * 5 * 9"⟩ ∧
      read? "1 / 3 * 5 * 9" = some reading ∧
      reading.value < Float.ofNat 15 ∧ ¬ reading.Reaches 15) ∧
    (∀ d ∈ 5 :: List.replicate 512 9, d ≤ maxOperand) ∧
      quotient ∈ candidates ((5 :: List.replicate 512 9).map fun d => .leaf (Float.ofNat d)) ∧
      (Registry.empty.offer quotient).2 = some ⟨0, none, ⟨5, "5 / inf"⟩⟩ ∧
      (Registry.empty.offer quotient).1.get? 0 = some ⟨5, "5 / inf"⟩ ∧
      read? "5 / inf" = none := by
  intro digit third e reading quotient
  refine ⟨⟨by decide, ?_, by decide +kernel, by decide +kernel, by decide +kernel,
    by decide +kernel, by decide +kernel⟩, ?_, ?_, by decide +kernel, by decide +kernel,
    by decide +kernel⟩
  · exact mem_candidates_of_digits.2 (Expr.uses_iff.2 ⟨rfl, by decide⟩)
  · refine List.forall_mem_cons.2 ⟨by decide, fun d hd => ?_⟩
    exact (List.eq_of_mem_replicate hd).le
  · refine mem_candidates_of_digits.2 (Expr.uses_iff.2 ⟨?_, trivial, (tidy_nines 9).2⟩)
    exact congrArg (Float.ofNat 5 :: ·) (operands_nines 9)

end DigitReach

import DigitReach.Proofs.Concatenations
import DigitReach.Proofs.Recipes
import DigitReach.Proofs.TextValue

/-!
# The operands that a text shows

The text of a literal is that of its value, and the value of a concatenation is read from the
texts of both sides. So zeros in front are lost, at each side of each concatenation: `0` and
`7` make `7`, and `1` and `07` make `17`. Nothing else is lost while all numbers are below
`2 ^ 53`, as they are if a literal has at most `15` digits.

* `ZerosLeftOut`: a text is another one but for some zeros;
* `zerosLeftOut_keptDigits`: a literal keeps its digits, but for zeros;
* `Expr.exists_eq_ofWhole`: so these are the digits of its value;
* `Expr.filter_isDigit_text`: the digits of a text are those of its literals;
* `text_shows_operands` puts them together: the digits of a text are the operands of the
  expression in their order, but for zeros, and all of them if nothing is concatenated.
-/

namespace DigitReach

open DigitReach.Double DigitReach.Numeral

/-! ## Zeros that are left out -/

/-- The second list is the first one, but for some zeros. -/
inductive ZerosLeftOut : List Char → List Char → Prop
  | nil : ZerosLeftOut [] []
  | keep (c : Char) {cs cs' : List Char} : ZerosLeftOut cs cs' → ZerosLeftOut (c :: cs) (c :: cs')
  | leaveOut {cs cs' : List Char} : ZerosLeftOut cs cs' → ZerosLeftOut ('0' :: cs) cs'

namespace ZerosLeftOut

variable {as as' bs bs' cs : List Char}

theorem refl (cs : List Char) : ZerosLeftOut cs cs := by
  induction cs with
  | nil => exact .nil
  | cons c cs ih => exact .keep c ih

theorem append (h : ZerosLeftOut as as') (h' : ZerosLeftOut bs bs') :
    ZerosLeftOut (as ++ bs) (as' ++ bs') := by
  induction h with
  | nil => exact h'
  | keep c _ ih => exact .keep c ih
  | leaveOut _ ih => exact .leaveOut ih

theorem trans (h : ZerosLeftOut as bs) (h' : ZerosLeftOut bs cs) : ZerosLeftOut as cs := by
  induction h generalizing cs with
  | nil => exact h'
  | keep c _ ih =>
    cases h' with
    | keep _ h' => exact .keep c (ih h')
    | leaveOut h' => exact .leaveOut (ih h')
  | leaveOut _ ih => exact .leaveOut (ih h')

/-- Other characters than zeros occur as often. -/
theorem count_eq (h : ZerosLeftOut as bs) {c : Char} (hc : c ≠ '0') : as.count c = bs.count c := by
  induction h with
  | nil => rfl
  | keep c' _ ih => rw [List.count_cons, List.count_cons, ih]
  | leaveOut _ ih => rw [List.count_cons_of_ne hc.symm, ih]

end ZerosLeftOut

/-- Of zeros in front of other digits, none is left. -/
theorem zerosLeftOut_withoutLeadingZeros (ds : List Nat) :
    ZerosLeftOut (ds.map Nat.digitChar) ((withoutLeadingZeros ds).map Nat.digitChar) := by
  fun_induction withoutLeadingZeros ds with
  | case1 d ds ih => exact .leaveOut ih
  | case2 ds _ => exact .refl _

/-- A literal keeps its digits, but for zeros. -/
theorem zerosLeftOut_keptDigits (g : Grouping Nat) :
    ZerosLeftOut (g.items.map Nat.digitChar) (g.keptDigits.map Nat.digitChar) := by
  induction g with
  | item d => exact .refl _
  | pair l r ihl ihr =>
    rw [Grouping.items, Grouping.keptDigits, List.map_append, List.map_append]
    exact ihl.append (ihr.trans (zerosLeftOut_withoutLeadingZeros _))

/-! ## The digits of literals -/

namespace Expr

variable {ds : List Nat} {e : Expr}

/-- A literal over digits concatenates them, in some grouping. -/
theorem exists_grouping (htidy : e.Tidy) (hliteral : e.isLiteral)
    (hoperands : e.operands = ds.map Float.ofNat) :
    ∃ g : Grouping Nat, g.items = ds ∧ g.literal = e := by
  induction e generalizing ds with
  | constant x =>
    obtain ⟨d, rfl, rfl⟩ := List.map_eq_singleton_iff.1 hoperands.symm
    exact ⟨.item d, rfl, rfl⟩
  | concat l r ihl ihr =>
    obtain ⟨ds, ds', rfl, hl, hr⟩ := List.map_eq_append_iff.1 hoperands.symm
    obtain ⟨gl, rfl, rfl⟩ := ihl htidy.2.1 htidy.1.1 hl.symm
    obtain ⟨gr, rfl, rfl⟩ := ihr htidy.2.2 htidy.1.2 hr.symm
    exact ⟨.pair gl gr, rfl, rfl⟩
  | sqrt _ _ | factorial _ _ | binary _ _ _ _ _ => exact absurd hliteral Bool.false_ne_true

/-- A literal over at most `15` digits is a whole number that is written by its digits, but for
    zeros. -/
theorem exists_eq_ofWhole (htidy : e.Tidy) (hliteral : e.isLiteral)
    (hoperands : e.operands = ds.map Float.ofNat) (hdigit : ∀ d ∈ ds, d ≤ maxOperand)
    (hlength : ds.length ≤ 15) :
    ∃ n < 2 ^ 53, e.value = ofWhole n ∧ ZerosLeftOut (ds.map Nat.digitChar) (digitsOf n) := by
  obtain ⟨g, rfl, rfl⟩ := exists_grouping htidy hliteral hoperands
  have hkept := Grouping.keptDigits_le hdigit
  have hlt := Grouping.spelled_keptDigits_lt hdigit hlength
  refine ⟨_, hlt, (isNat_iff hlt).1 (Grouping.isNat_literal hdigit hlength), ?_⟩
  rw [digitsOf_eq, toDigits_spelled g.keptDigits_ne_nil hkept]
  exact (zerosLeftOut_keptDigits g).trans (zerosLeftOut_withoutLeadingZeros _)

/-- The digits of the text of a double. -/
def shownDigits (x : Float) : List Char := (decimalChars x).filter Char.isDigit

theorem shownDigits_ofWhole {n : Nat} (h : n < 2 ^ 53) : shownDigits (ofWhole n) = digitsOf n := by
  rw [shownDigits, decimalChars_ofWhole h, List.filter_eq_self]
  exact fun _ => isDigit_of_mem_digitsOf

theorem literals_of_isLiteral (h : e.isLiteral) : e.literals = [e.value] := by
  cases e with
  | constant _ | concat _ _ => rfl
  | sqrt _ | factorial _ | binary _ _ _ => exact absurd h Bool.false_ne_true

/-- A literal over at most `15` digits shows its operands, but for zeros. -/
theorem zerosLeftOut_of_isLiteral (htidy : e.Tidy) (hliteral : e.isLiteral)
    (hoperands : e.operands = ds.map Float.ofNat) (hdigit : ∀ d ∈ ds, d ≤ maxOperand)
    (hlength : ds.length ≤ 15) :
    ZerosLeftOut (ds.map Nat.digitChar) (e.literals.flatMap shownDigits) := by
  obtain ⟨n, hn, hvalue, hdigits⟩ := exists_eq_ofWhole htidy hliteral hoperands hdigit hlength
  rwa [literals_of_isLiteral hliteral, List.flatMap_singleton, hvalue,
    shownDigits_ofWhole hn]

/-- The literals of an expression over at most `15` digits show its operands, but for zeros. -/
theorem zerosLeftOut_literals (htidy : e.Tidy) (hoperands : e.operands = ds.map Float.ofNat)
    (hdigit : ∀ d ∈ ds, d ≤ maxOperand) (hlength : ds.length ≤ 15) :
    ZerosLeftOut (ds.map Nat.digitChar) (e.literals.flatMap shownDigits) := by
  induction e generalizing ds with
  | constant x => exact zerosLeftOut_of_isLiteral htidy rfl hoperands hdigit hlength
  | concat l r _ _ => exact zerosLeftOut_of_isLiteral htidy rfl hoperands hdigit hlength
  | sqrt e ih | factorial e ih => exact ih htidy.2 hoperands hdigit hlength
  | binary o l r ihl ihr =>
    obtain ⟨ds, ds', rfl, hl, hr⟩ := List.map_eq_append_iff.1 hoperands.symm
    rw [List.forall_mem_append] at hdigit
    rw [List.length_append] at hlength
    rw [List.map_append, literals, List.flatMap_append]
    exact (ihl htidy.1 hl.symm hdigit.1 (by omega)).append
      (ihr htidy.2 hr.symm hdigit.2 (by omega))

/-- Without a concatenation, the literals are the operands. -/
theorem literals_of_forall_not_within (h : ∀ l r, ¬ Within (concat l r) e) :
    e.literals = e.operands := by
  induction e with
  | constant x => rfl
  | concat l r _ _ => exact absurd .here (h l r)
  | sqrt e ih => exact ih fun l r hwithin => h l r hwithin.sqrt
  | factorial e ih => exact ih fun l r hwithin => h l r hwithin.factorial
  | binary o a b iha ihb =>
    rw [literals, operands, iha fun l r hwithin => h l r (hwithin.left o b),
      ihb fun l r hwithin => h l r (hwithin.right o a)]

/-- Digits are shown as they are. -/
theorem flatMap_shownDigits (hdigit : ∀ d ∈ ds, d ≤ maxOperand) :
    (ds.map Float.ofNat).flatMap shownDigits = ds.map Nat.digitChar := by
  induction ds with
  | nil => rfl
  | cons d ds ih =>
    rw [List.forall_mem_cons] at hdigit
    have hlt : d < 10 := Nat.lt_succ_of_le hdigit.1
    rw [List.map_cons, List.flatMap_cons, ih hdigit.2, ofNat_eq_ofWhole hdigit.1,
      shownDigits_ofWhole (by omega), digitsOf_of_lt_ten hlt]
    rfl

/-! ## The digits of a text -/

/-- The digits of the text of a token. -/
def tokenDigits (t : Token) : List Char := t.text.toList.filter Char.isDigit

theorem tokenDigits_number (x : Float) : tokenDigits (.number x) = shownDigits x := by
  rw [tokenDigits, Token.text, decimal, String.toList_ofList, shownDigits]

/-- A token other than a literal has none. -/
theorem tokenDigits_of_isSymbol {t : Token} (h : t.IsSymbol) : tokenDigits t = [] := by
  cases t with
  | number x => exact h.elim
  | sign o => cases o <;> decide
  | bang | root | opening | closing => decide

theorem flatMap_enclose (looseness limit : Nat) (ts : List Token) :
    (Token.enclose looseness limit ts).flatMap tokenDigits = ts.flatMap tokenDigits := by
  rw [Token.enclose]
  split
  · simp [tokenDigits_of_isSymbol (t := .opening) trivial,
      tokenDigits_of_isSymbol (t := .closing) trivial]
  · rfl

theorem flatMap_tokenDigits_tokens (e : Expr) :
    e.tokens.flatMap tokenDigits = e.literals.flatMap shownDigits := by
  induction e with
  | constant x => simp [tokens, literals, tokenDigits_number]
  | concat l r _ _ => simp [tokens, literals, tokenDigits_number]
  | sqrt e ih =>
    simp [tokens, literals, ih, tokenDigits_of_isSymbol (t := .root) trivial,
      tokenDigits_of_isSymbol (t := .closing) trivial]
  | factorial e ih =>
    simp [tokens, literals, ih, flatMap_enclose, tokenDigits_of_isSymbol (t := .bang) trivial]
  | binary o l r ihl ihr =>
    simp [tokens, literals, ihl, ihr, flatMap_enclose,
      tokenDigits_of_isSymbol (t := .sign o) trivial]

/-- The digits of a text are those of its literals. -/
theorem filter_isDigit_text (e : Expr) :
    e.text.toList.filter Char.isDigit = e.literals.flatMap shownDigits := by
  rw [text_eq, String.toList_join, List.flatMap_map, List.filter_flatMap,
    ← flatMap_tokenDigits_tokens]
  rfl

/-- The text of an expression over at most `15` digits shows its operands, but for zeros. -/
theorem zerosLeftOut_text (huses : e.Uses (ds.map Float.ofNat))
    (hdigit : ∀ d ∈ ds, d ≤ maxOperand) (hlength : ds.length ≤ 15) :
    ZerosLeftOut (ds.map Nat.digitChar) (e.text.toList.filter Char.isDigit) := by
  obtain ⟨hoperands, htidy⟩ := uses_iff.1 huses
  rw [filter_isDigit_text]
  exact zerosLeftOut_literals htidy hoperands hdigit hlength

/-- Without a concatenation it shows all of them. -/
theorem filter_isDigit_text_of_uses (huses : e.Uses (ds.map Float.ofNat))
    (hdigit : ∀ d ∈ ds, d ≤ maxOperand) (h : ∀ l r, ¬ Within (concat l r) e) :
    e.text.toList.filter Char.isDigit = ds.map Nat.digitChar := by
  rw [filter_isDigit_text, literals_of_forall_not_within h, (uses_iff.1 huses).1,
    flatMap_shownDigits hdigit]

end Expr

/-! ## The result -/

/-- Digits occur as often as their characters. -/
theorem count_map_digitChar {ds : List Nat} (hdigit : ∀ d ∈ ds, d ≤ maxOperand) {d : Nat}
    (hd : d ≤ maxOperand) : (ds.map Nat.digitChar).count d.digitChar = ds.count d := by
  have hinj {a b : Nat} (ha : a ≤ maxOperand) (hb : b ≤ maxOperand)
      (h : a.digitChar = b.digitChar) : a = b := by
    have htoNat := congrArg Char.toNat h
    rw [Nat.toNat_digitChar_of_lt_ten (Nat.lt_succ_of_le ha),
      Nat.toNat_digitChar_of_lt_ten (Nat.lt_succ_of_le hb)] at htoNat
    exact Nat.add_left_cancel htoNat
  rw [List.count, List.countP_map, List.count]
  refine List.countP_congr fun a ha => ?_
  rw [Function.comp_apply, beq_iff_eq, beq_iff_eq]
  exact ⟨hinj (hdigit a ha) hd, congrArg Nat.digitChar⟩

/-- Each answer of a synthesis is that of an expression that uses the operands in some order. -/
theorem exists_uses_of_get? {mode : Mode} {operands : List Nat} {registry : Registry}
    (hyields : Yields (synthesize mode operands) (.ok registry)) {n : Nat} {answer : Answer}
    (hanswer : registry.get? n = some answer) :
    ∃ (ds : List Nat) (e : Expr), ds.Perm operands ∧ e.Uses (ds.map Float.ofNat) ∧
      e.answer = answer := by
  have hsynthesized := (yields_synthesize mode operands).unique hyields
  rw [synthesized] at hsynthesized
  split at hsynthesized
  · cases hsynthesized
  · obtain rfl := Except.ok.inj hsynthesized
    obtain ⟨e, he, heq⟩ := ((Registry.summarizes_afterAll _).get?_eq_some_iff n answer).1 hanswer
    obtain ⟨ds, hperm, huses⟩ := mem_allCandidates.1 he.mem
    exact ⟨ds, e, hperm, huses, heq⟩

/-- Of an expression over at most `15` digits, in any bracketing, the digits of the text are
    the operands in their order, but for zeros, and all of them if nothing is concatenated. So
    in the answers of a synthesis every other digit occurs as often as among the operands. -/
theorem text_shows_operands {ds : List Nat} (hdigit : ∀ d ∈ ds, d ≤ maxOperand)
    (hlength : ds.length ≤ 15) :
    (∀ e ∈ candidates (ds.map fun d => .leaf (Float.ofNat d)),
      ZerosLeftOut (ds.map Nat.digitChar) (e.text.toList.filter Char.isDigit) ∧
        ((∀ l r, ¬ Expr.Within (.concat l r) e) →
          e.text.toList.filter Char.isDigit = ds.map Nat.digitChar)) ∧
    ∀ mode registry, Yields (synthesize mode ds) (.ok registry) →
      ∀ n answer, registry.get? n = some answer → ∀ d, 0 < d → d ≤ maxOperand →
        answer.text.toList.count d.digitChar = ds.count d := by
  refine ⟨fun e he => ?_, fun mode registry hyields n answer hanswer d hpos hd => ?_⟩
  · have huses := mem_candidates_of_digits.1 he
    exact ⟨Expr.zerosLeftOut_text huses hdigit hlength, Expr.filter_isDigit_text_of_uses huses hdigit⟩
  · obtain ⟨ds', e, hperm, huses, rfl⟩ := exists_uses_of_get? hyields hanswer
    have hdigit' : ∀ d ∈ ds', d ≤ maxOperand := fun d hd => hdigit d (hperm.mem_iff.1 hd)
    have hshows := Expr.zerosLeftOut_text huses hdigit' (hperm.length_eq ▸ hlength)
    have hchar : d.digitChar ≠ '0' := mt Nat.digitChar_eq_zero.1 hpos.ne'
    calc e.text.toList.count d.digitChar
        = (e.text.toList.filter Char.isDigit).count d.digitChar :=
          (List.count_filter (isDigit_digitChar hd)).symm
      _ = (ds'.map Nat.digitChar).count d.digitChar := (hshows.count_eq hchar).symm
      _ = ds'.count d := count_map_digitChar hdigit' hd
      _ = ds.count d := hperm.count_eq d

/-- In `1 - 02`, where `02` is joined of `0` and `2`, the zero is not shown: the text is `1 - 2`.
    Still the answer of a synthesis has one `2`. -/
theorem text_shows_operands_difference :
    let digit (d : Nat) : Expr := .constant (Float.ofNat d)
    let e := Expr.binary .subtract (digit 1) (.concat (digit 0) (digit 2))
    (∀ d ∈ [1, 0, 2], d ≤ maxOperand) ∧ [1, 0, 2].length ≤ 15 ∧ e.text = "1 - 2" ∧
      e ∈ candidates ([1, 0, 2].map fun d => .leaf (Float.ofNat d)) ∧
      ZerosLeftOut ['1', '0', '2'] ['1', '2'] ∧
      ∀ mode registry, Yields (synthesize mode [1, 0, 2]) (.ok registry) →
        ∀ n answer, registry.get? n = some answer → answer.text.toList.count '2' = 1 := by
  intro digit e
  have hdigit : ∀ d ∈ [1, 0, 2], d ≤ maxOperand := by decide
  have htext : e.text = "1 - 2" := by decide +kernel
  have he : e ∈ candidates ([1, 0, 2].map fun d => .leaf (Float.ofNat d)) :=
    mem_candidates_of_digits.2 (Expr.uses_iff.2 ⟨rfl, by decide⟩)
  obtain ⟨hshows, hcounts⟩ := text_shows_operands hdigit (by decide)
  refine ⟨hdigit, by decide, htext, he, ?_, fun mode registry hyields n answer hanswer => ?_⟩
  · have hzero := (hshows e he).1
    rwa [htext] at hzero
  · exact hcounts mode registry hyields n answer hanswer 2 (by decide) (by decide)

/-- The bound cannot be left out: sixteen nines in a row are rounded up. -/
example : (nines 4).text = "10000000000000000" := by decide +kernel

end DigitReach

import DigitReach.Proofs.Numeral
import DigitReach.Proofs.Reader
import DigitReach.Proofs.Regrouping

/-!
# Texts are read back

The text of an expression is read as the expression regrouped, provided that its literals
are finite and have no sign (`read?_text`). The proof has two parts:

* `reads_tokens`: the tokens of an expression stand for the expression regrouped. Of an
  expression on the right side of an operator this is to be said together with whatever
  stands on the left (`ReadsRight`);
* `lex?_text`: the tokens that are made of the text of an expression are its tokens.
-/

namespace DigitReach

open Reader
open Relation (ReflTransGen)

/-! ## What the tokens stand for -/

section

variable {o : Operator} {ls ts : List Token} {l e : Expr} {level limit : Nat}

theorem leftLimit_eq (o : Operator) : o.leftLimit = o.looseness + 1 := by
  cases o <;> rfl

/-- An operator either takes no right side that is as loose as itself, and absorbs nothing;
    or it takes such a side, and absorbs its operator. -/
theorem rightLimit_eq (o : Operator) :
    o.rightLimit = o.looseness ∧ (∀ o', ¬ o.absorbs o') ∨
      o.rightLimit = o.looseness + 1 ∧ ∀ o', o.absorbs o' ↔ o'.looseness = o.looseness := by
  cases o with
  | add | multiply => exact .inr ⟨rfl, fun o' => by cases o' <;> decide⟩
  | subtract | divide | power => exact .inl ⟨rfl, fun o' => by cases o' <;> decide⟩

theorem Expr.looseness_le (e : Expr) : e.looseness ≤ 3 := by
  cases e with
  | binary o _ _ => exact Reader.looseness_le o
  | constant _ | concat _ _ | sqrt _ | factorial _ => exact Nat.zero_le 3

/-- What is below the limit stands bare. -/
theorem enclose_of_lt {looseness limit : Nat} (h : looseness < limit) (ts : List Token) :
    Token.enclose looseness limit ts = ts := if_neg (Nat.not_le_of_lt h)

/-- What is enclosed from a limit on, is below the limit. -/
theorem reads_enclose (h : Reads e.looseness ts l) (limit : Nat) :
    Reads (limit - 1) (Token.enclose e.looseness limit ts) l := by
  rw [Token.enclose]
  split
  · exact (Reads.enclosed (h.mono e.looseness_le)).mono (Nat.zero_le _)
  · next hlimit => exact h.mono (by omega)

/-- A right side that is not absorbed stays a right side. -/
theorem reads_right (hl : Reads o.looseness ls l) (he : Reads e.looseness e.tokens e.regrouped)
    (hstays : ∀ o', o.absorbs o' → e.looseness ≠ o.looseness) :
    Reads o.looseness (ls ++ .sign o :: Token.enclose e.looseness o.rightLimit e.tokens)
      (Expr.regroup o l e.regrouped) := by
  have hnot : ∀ o' x y, e.regrouped = .binary o' x y → ¬ o.absorbs o' := by
    intro o' x y heq habsorbs
    have hloose := e.looseness_regrouped
    rw [heq] at hloose
    exact hstays o' habsorbs (hloose.symm.trans (Expr.looseness_of_absorbs habsorbs))
  rw [Expr.regroup_of_not_absorbs hnot]
  refine .binary hl ?_
  rcases rightLimit_eq o with ⟨hlimit, -⟩ | ⟨hlimit, habsorbs⟩
  · rw [← hlimit]
    exact reads_enclose he _
  · -- The side is looser than the operator, and enclosed, or it is tighter.
    have hne := hstays o ((habsorbs o).2 rfl)
    rw [Token.enclose]
    split
    · exact (Reads.enclosed (he.mono e.looseness_le)).mono (Nat.zero_le _)
    · next hlimit' => exact he.mono (by omega)

/-- On the right side of any operator, the tokens of the expression make the operator move to
    the left as far as it can. -/
def ReadsRight (e : Expr) : Prop :=
  ∀ (o : Operator) (ls : List Token) (l : Expr), Reads o.looseness ls l →
    Reads o.looseness (ls ++ .sign o :: Token.enclose e.looseness o.rightLimit e.tokens)
      (Expr.regroup o l e.regrouped)

/-- No operator moves past what binds tighter than all of them. -/
theorem readsRight_of_looseness_eq_zero (hzero : e.looseness = 0)
    (he : Reads e.looseness e.tokens e.regrouped) : ReadsRight e := fun _ _ _ hl =>
  reads_right hl he fun _ _ heq => (looseness_pos _).ne (hzero.symm.trans heq)

theorem readsRight_binary {o' : Operator} {x y : Expr} (hx : ReadsRight x) (hy : ReadsRight y)
    (h : Reads o'.looseness (Expr.binary o' x y).tokens (Expr.binary o' x y).regrouped) :
    ReadsRight (.binary o' x y) := by
  intro o ls l hl
  rcases rightLimit_eq o with ⟨-, hnone⟩ | ⟨hlimit, habsorbs⟩
  · exact reads_right hl h fun o'' ho'' => absurd ho'' (hnone o'')
  by_cases hloose : o'.looseness = o.looseness
  · -- The operator `o` moves past `x`, and then `o'` moves past `y`.
    have hbare : Token.enclose (Expr.binary o' x y).looseness o.rightLimit
        (Expr.binary o' x y).tokens = (Expr.binary o' x y).tokens :=
      enclose_of_lt (show o'.looseness < o.rightLimit by omega) _
    have hx := hx o ls l hl
    rw [hlimit, ← hloose, ← leftLimit_eq] at hx
    have hy := hy o' _ _ hx
    rw [List.append_assoc, List.cons_append, ← Expr.regroup_regroup ((habsorbs o').2 hloose),
      hloose] at hy
    rw [hbare]
    exact hy
  · exact reads_right hl h fun _ _ => hloose

/-- The tokens of an expression stand for the expression regrouped. -/
theorem reads_tokens (e : Expr) :
    Reads e.looseness e.tokens e.regrouped ∧ ReadsRight e := by
  induction e with
  | constant x => exact ⟨.number x, readsRight_of_looseness_eq_zero rfl (.number x)⟩
  | concat l r => exact ⟨.number _, readsRight_of_looseness_eq_zero rfl (.number _)⟩
  | sqrt e ih =>
    have hsqrt := Reads.sqrt (ih.1.mono e.looseness_le)
    exact ⟨hsqrt, readsRight_of_looseness_eq_zero rfl hsqrt⟩
  | factorial e ih =>
    have hfactorial := Reads.factorial (reads_enclose ih.1 1)
    exact ⟨hfactorial, readsRight_of_looseness_eq_zero rfl hfactorial⟩
  | binary o l r ihl ihr =>
    have hleft := reads_enclose ihl.1 o.leftLimit
    rw [leftLimit_eq] at hleft
    have hbinary := ihr.2 o _ _ hleft
    rw [← leftLimit_eq] at hbinary
    exact ⟨hbinary, readsRight_binary ihl.2 ihr.2 hbinary⟩

end

/-! ## The tokens of a text -/

/-- The characters of a token that are no blanks. -/
def Token.chars (t : Token) : List Char := visible t.text

/-- The token is not a numeral. -/
def Token.IsSymbol : Token → Prop
  | number _ => False
  | sign _ | bang | root | opening | closing => True

/-- A symbol is not part of the numeral in front of it. -/
theorem exists_chars_symbol {t : Token} (h : t.IsSymbol) :
    ∃ c cs, t.chars = c :: cs ∧ ¬ isNumeric c := by
  cases t with
  | number x => exact h.elim
  | sign o => cases o <;> exact ⟨_, _, rfl, by decide⟩
  | bang | root | opening | closing => exact ⟨_, _, rfl, by decide⟩

theorem firstToken?_symbol {t : Token} (h : t.IsSymbol) (rest : List Char) :
    firstToken? (t.chars ++ rest) = some (t, rest) := by
  cases t with
  | number x => exact h.elim
  | sign o => cases o <;> rfl
  | bang | root | opening | closing => rfl

/-- A literal that is written as a numeral: it is finite, and has no sign. -/
def Double.Plain (x : Float) : Prop := x.isFinite ∧ ¬ Double.signed x

instance (x : Float) : Decidable (Double.Plain x) := inferInstanceAs (Decidable (_ ∧ _))

theorem chars_number {x : Float} (h : Double.Plain x) :
    (Token.number x).chars = decimalChars x := by
  rw [Token.chars, visible, Token.text, decimal, String.toList_ofList, List.filter_eq_self]
  intro c hc
  rcases isDigit_or_of_mem_decimalChars h.1 h.2 hc with hdigit | rfl
  · have hblank : c ≠ ' ' ∧ c ≠ '\t' ∧ c ≠ '\r' ∧ c ≠ '\n' := by
      refine ⟨?_, ?_, ?_, ?_⟩ <;> rintro rfl <;> exact absurd hdigit (by decide)
    simp [Char.isWhitespace, hblank]
  · rfl

theorem firstToken?_number {x : Float} (h : Double.Plain x) {rest : List Char}
    (hrest : ∀ c ∈ rest.head?, ¬ isNumeric c) :
    firstToken? ((Token.number x).chars ++ rest) = some (.number x, rest) := by
  rw [chars_number h]
  have hnumeric : ∀ c ∈ decimalChars x, isNumeric c := by
    intro c hc
    rcases isDigit_or_of_mem_decimalChars h.1 h.2 hc with hdigit | rfl
    · rw [isNumeric, hdigit, Bool.true_or]
    · rfl
  -- The numeral ends where its token does.
  have hends : rest.takeWhile isNumeric = [] ∧ rest.dropWhile isNumeric = rest := by
    rcases rest with _ | ⟨c, rest⟩
    · exact ⟨rfl, rfl⟩
    · have hc := hrest c rfl
      exact ⟨List.takeWhile_cons_of_neg hc, List.dropWhile_cons_of_neg hc⟩
  obtain ⟨n, hread, hvalue⟩ := Option.map_eq_some_iff.1 (read?_decimalChars h.1)
  rcases hchars : decimalChars x with _ | ⟨c, cs⟩
  · rw [hchars] at hread
    cases hread
  · rw [hchars] at hnumeric hread
    rw [List.cons_append, firstToken?_of_isNumeric (hnumeric c List.mem_cons_self),
      ← List.cons_append, List.takeWhile_append_of_pos hnumeric,
      List.dropWhile_append_of_pos hnumeric, hends.1, hends.2, List.append_nil, hread,
      Option.map_some, hvalue]

/-- The characters of the tokens are read as the tokens, if no numeral goes on behind them. -/
def Lexes (ts : List Token) : Prop :=
  ∀ rest : List Char, (∀ c ∈ rest.head?, ¬ isNumeric c) →
    lex? (ts.flatMap Token.chars ++ rest) = (lex? rest).map (ts ++ ·)

namespace Lexes

variable {ts us : List Token}

theorem nil : Lexes [] := by
  intro rest _
  rw [List.flatMap_nil, List.nil_append]
  cases lex? rest <;> rfl

theorem number {x : Float} (h : Double.Plain x) : Lexes [.number x] := by
  intro rest hrest
  rw [List.flatMap_singleton, lex?_of_firstToken? (firstToken?_number h hrest)]
  rfl

theorem cons_symbol (t : Token) (ht : t.IsSymbol) (hus : Lexes us) : Lexes (t :: us) := by
  intro rest hrest
  rw [List.flatMap_cons, List.append_assoc, lex?_of_firstToken? (firstToken?_symbol ht _),
    hus rest hrest, Option.map_map]
  rfl

/-- No numeral goes on where a symbol begins. -/
theorem append (hts : Lexes ts) (hus : Lexes us) (hhead : ∀ u ∈ us.head?, u.IsSymbol) :
    Lexes (ts ++ us) := by
  intro rest hrest
  have hends : ∀ c ∈ (us.flatMap Token.chars ++ rest).head?, ¬ isNumeric c := by
    rcases us with _ | ⟨u, us⟩
    · exact hrest
    · obtain ⟨c, cs, hchars, hc⟩ := exists_chars_symbol (hhead u rfl)
      rw [List.flatMap_cons, hchars]
      intro d hd
      obtain rfl := Option.some.inj hd
      exact hc
  rw [List.flatMap_append, List.append_assoc, hts _ hends, hus rest hrest, Option.map_map]
  congr 1
  funext vs
  exact (List.append_assoc ts us vs).symm

/-- A symbol may stand between any tokens. -/
theorem append_symbol (hts : Lexes ts) (t : Token) (ht : t.IsSymbol) (hus : Lexes us) :
    Lexes (ts ++ t :: us) := by
  refine hts.append (hus.cons_symbol t ht) fun u hu => ?_
  obtain rfl := Option.some.inj hu
  exact ht

theorem enclose (h : Lexes ts) (looseness limit : Nat) :
    Lexes (Token.enclose looseness limit ts) := by
  rw [Token.enclose]
  split
  · exact (cons_symbol .opening trivial h).append_symbol .closing trivial nil
  · exact h

end Lexes

/-- The literals that are written in the text of an expression are finite, and have no sign.
    Below a concatenation nothing is written. -/
def Expr.Writable : Expr → Prop
  | constant x => Double.Plain x
  | e@(concat _ _) => Double.Plain e.value
  | sqrt e | factorial e => e.Writable
  | binary _ l r => l.Writable ∧ r.Writable

instance Expr.decidableWritable : (e : Expr) → Decidable e.Writable
  | constant x => inferInstanceAs (Decidable (Double.Plain x))
  | concat l r => inferInstanceAs (Decidable (Double.Plain (concat l r).value))
  | sqrt e | factorial e => decidableWritable e
  | binary _ l r => @instDecidableAnd _ _ (decidableWritable l) (decidableWritable r)

theorem lexes_tokens {e : Expr} (h : e.Writable) : Lexes e.tokens := by
  induction e with
  | constant x => exact .number h
  | concat l r => exact .number h
  | sqrt e ih => exact (Lexes.cons_symbol .root trivial (ih h)).append_symbol .closing trivial .nil
  | factorial e ih => exact ((ih h).enclose _ _).append_symbol .bang trivial .nil
  | binary o l r ihl ihr =>
    exact ((ihl h.1).enclose _ _).append_symbol (.sign o) trivial ((ihr h.2).enclose _ _)

/-- The text of some tokens is made of them. -/
theorem Lexes.lex?_eq {ts : List Token} (h : Lexes ts) :
    lex? (visible (String.join (ts.map Token.text))) = some ts := by
  have hvisible : visible (String.join (ts.map Token.text)) = ts.flatMap Token.chars ++ [] := by
    rw [visible, String.toList_join, List.flatMap_map, List.filter_flatMap, List.append_nil]
    rfl
  rw [hvisible, h [] (fun _ hc => by cases hc), lex?_nil, Option.map_some, List.append_nil]

/-- The text of an expression is made of its tokens. -/
theorem lex?_text {e : Expr} (h : e.Writable) : lex? (visible e.text) = some e.tokens := by
  rw [Expr.text_eq]
  exact (lexes_tokens h).lex?_eq

/-! ## The result -/

universe u

/-- The text of an expression whose literals can be written is read, as a whole, as the
    expression regrouped: the one that is left when the rules of regrouping are applied as
    long as one applies. In every field it stands for the same as the expression, whatever
    literals, roots, factorials and powers are. -/
theorem read?_text {e : Expr} (h : e.Writable) :
    read? e.text = some e.regrouped ∧
      (∀ e', e' = e.regrouped ↔ ReflTransGen Expr.Regroups e.plain e' ∧ e'.Stuck) ∧
      ∀ (K : Type u) [Field K] (i : Interpretation K), e.regrouped.denote i = e.denote i := by
  refine ⟨?_, fun _ => Expr.eq_regrouped_iff, fun K _ i => Expr.denote_regrouped i e⟩
  have htokens : Reads 3 e.tokens e.regrouped := (reads_tokens e).1.mono e.looseness_le
  exact read?_eq_some_iff.2 ⟨e.tokens, lex?_text h, htokens⟩

/-- The text `2 + 12 - 2` of `2 + (12 - 2)`, where `12` is joined of `1` and `2`. -/
theorem read?_text_difference :
    let one := Expr.constant (Float.ofNat 1)
    let two := Expr.constant (Float.ofNat 2)
    let e := Expr.binary .add two (.binary .subtract (.concat one two) two)
    e.Writable ∧ read? e.text = some e.regrouped ∧
      (∀ e', e' = e.regrouped ↔ ReflTransGen Expr.Regroups e.plain e' ∧ e'.Stuck) ∧
      ∀ (K : Type) [Field K] (i : Interpretation K), e.regrouped.denote i = e.denote i := by
  intro one two e
  have h : e.Writable := by decide +kernel
  exact ⟨h, read?_text h⟩

end DigitReach

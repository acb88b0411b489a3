import DigitReach.Proofs.Readback

/-!
# No parentheses too many

The text of an expression has no parentheses that could be left out. A pair of them is an
opening parenthesis and the closing one that matches it: between the two, as many parentheses
are closed as opened, and none that was opened before (`Matched`; the parenthesis of a square
root counts, but is none that could be left out). Two facts make each pair needed:

* `parse?_isSome_iff`: which parentheses are where matters little to *whether* tokens can be
  read. They can exactly if their parentheses match and what is read takes turns with what
  joins it (`Turns`). So they still can be read without a pair;
* `Reads.countP_isOpening_le`: but whatever is read as some expression has at least as many
  parentheses as the text of the expression. So without a pair, something else is read.

The text shows the expression regrouped, and has the tokens of that (`tokens_regrouped`). The
result is `parentheses_needed`.
-/

namespace DigitReach

open Reader

/-! ## The tokens of a regrouped expression -/

namespace Expr

/-- Regrouping moves no token. -/
theorem tokens_regroup (o : Operator) (l r : Expr) :
    (regroup o l r).tokens = (binary o l r).tokens := by
  induction r with
  | binary o' x y ihx _ =>
    rw [regroup]
    split
    · next habsorbs =>
      -- Both operators are equally loose, and their sides stand bare from the same limit on.
      have hloose : o'.looseness = o.looseness := looseness_of_absorbs habsorbs
      have hlimit : o.rightLimit = o'.leftLimit := by
        rcases rightLimit_eq o with ⟨-, hnone⟩ | ⟨hlimit, -⟩
        · exact absurd habsorbs (hnone o')
        · rw [hlimit, leftLimit_eq, hloose]
      have hleft : Token.enclose (regroup o l x).looseness o'.leftLimit (regroup o l x).tokens =
          (binary o l x).tokens := by
        rw [looseness_regroup, ihx, leftLimit_eq, hloose]
        exact enclose_of_lt (Nat.lt_succ_self _) _
      have hright : Token.enclose (binary o' x y).looseness o.rightLimit (binary o' x y).tokens =
          (binary o' x y).tokens := by
        rw [hlimit, leftLimit_eq]
        exact enclose_of_lt (Nat.lt_succ_self _) _
      rw [tokens, hleft, tokens, tokens, hright, tokens, hlimit, List.append_assoc,
        List.cons_append]
    · rfl
  | constant _ | concat _ _ | sqrt _ | factorial _ => rfl

/-- A text does not show how it was regrouped. -/
theorem tokens_regrouped (e : Expr) : e.regrouped.tokens = e.tokens := by
  induction e with
  | constant _ | concat _ _ => rfl
  | sqrt e ih => rw [regrouped, tokens, ih, tokens]
  | factorial e ih => rw [regrouped, tokens, looseness_regrouped, ih, tokens]
  | binary o l r ihl ihr =>
    rw [regrouped, tokens_regroup, tokens, looseness_regrouped, looseness_regrouped, ihl, ihr,
      tokens]

end Expr

/-! ## Fewest parentheses -/

/-- The token is an opening parenthesis that belongs to no square root. -/
def Token.isOpening : Token → Bool
  | opening => true
  | number _ | sign _ | bang | root | closing => false

theorem countP_isOpening_pair (ts : List Token) :
    (Token.opening :: ts ++ [Token.closing]).countP Token.isOpening =
      ts.countP Token.isOpening + 1 := by
  rw [List.countP_append, List.countP_cons]
  rfl

theorem countP_isOpening_enclose (looseness limit : Nat) (ts : List Token) :
    (Token.enclose looseness limit ts).countP Token.isOpening =
      ts.countP Token.isOpening + if limit ≤ looseness then 1 else 0 := by
  rw [Token.enclose]
  split
  · exact countP_isOpening_pair ts
  · rfl

/-- What is read as an expression has at least as many parentheses as the text of the
    expression, and one more pair, if the expression is looser than the level it is read at. -/
theorem Reader.Reads.countP_isOpening_le {level : Nat} {ts : List Token} {e : Expr}
    (h : Reads level ts e) :
    e.tokens.countP Token.isOpening + (if level < e.looseness then 1 else 0) ≤
      ts.countP Token.isOpening := by
  induction h with
  | number x => exact Nat.zero_le _
  | @enclosed ts e _ ih =>
    rw [countP_isOpening_pair]
    have hmore : (if 0 < e.looseness then 1 else 0) ≤ 1 := by
      split <;> omega
    exact Nat.add_le_add (Nat.le_of_add_right_le ih) hmore
  | @sqrt ts e _ ih =>
    rw [List.countP_append, List.countP_cons, Expr.tokens, List.countP_append, List.countP_cons]
    exact Nat.add_le_add_right (Nat.add_le_add_right (Nat.le_of_add_right_le ih) _) _
  | @factorial ts e _ ih =>
    rw [Expr.tokens, List.countP_append, countP_isOpening_enclose, List.countP_append]
    exact Nat.add_le_add_right ih _
  | @binary o ls rs l r _ _ ihl ihr =>
    -- Where the text encloses a side, the side is too loose for the level it is read at.
    have hleft : (if o.leftLimit ≤ l.looseness then 1 else 0) ≤
        if o.looseness < l.looseness then 1 else 0 := by
      rw [leftLimit_eq]
      exact Nat.le_refl _
    have hright : (if o.rightLimit ≤ r.looseness then 1 else 0) ≤
        if o.looseness - 1 < r.looseness then 1 else 0 := by
      have hpos := looseness_pos o
      have hlimit : o.looseness ≤ o.rightLimit := by
        rcases rightLimit_eq o with ⟨heq, -⟩ | ⟨heq, -⟩ <;> omega
      split
      · next hloose => rw [if_pos (by omega)]
      · exact Nat.zero_le _
    have hbinary : (Expr.binary o l r).looseness = o.looseness := rfl
    rw [hbinary, if_neg (Nat.lt_irrefl _), Expr.tokens, List.countP_append, List.countP_append,
      countP_isOpening_enclose, List.countP_cons, List.countP_cons, countP_isOpening_enclose]
    omega
  | looser _ ih =>
    refine le_trans (Nat.add_le_add_left ?_ _) ih
    split <;> split <;> omega

/-! ## What can be read -/

/-- The number of open parentheses behind a token, if `n` are open in front of it. None can be
    closed where none is open. -/
def Token.open? : Nat → Token → Option Nat
  | n, opening | n, root => some (n + 1)
  | 0, closing => none
  | n + 1, closing => some n
  | n, number _ | n, sign _ | n, bang => some n

/-- The number of open parentheses behind some tokens, if `n` are open in front of them. -/
def opensBehind? (n : Nat) (ts : List Token) : Option Nat := ts.foldlM Token.open? n

/-- All parentheses that are opened are closed, and no others. -/
def Matched (ts : List Token) : Prop := opensBehind? 0 ts = some 0

/-- Whether there is something behind a token that can be joined on, if there is in front of
    it. -/
def Token.turn? : Bool → Token → Option Bool
  | false, number _ | true, bang | true, closing => some true
  | false, opening | false, root | true, sign _ => some false
  | true, number _ | true, opening | true, root => none
  | false, bang | false, closing | false, sign _ => none

/-- Whether there is something behind some tokens that can be joined on, if there is in front
    of them. -/
def turnBehind? (joinable : Bool) (ts : List Token) : Option Bool := ts.foldlM Token.turn? joinable

/-- What is read takes turns with what joins it. -/
def Turns (ts : List Token) : Prop := turnBehind? false ts = some true

instance (ts : List Token) : Decidable (Matched ts) := inferInstanceAs (Decidable (_ = _))

section

variable {ts us : List Token} {k m n : Nat} {joinable : Bool}

theorem opensBehind?_cons (n : Nat) (t : Token) (ts : List Token) :
    opensBehind? n (t :: ts) = (t.open? n).bind (opensBehind? · ts) := List.foldlM_cons

theorem opensBehind?_append (n : Nat) (ts us : List Token) :
    opensBehind? n (ts ++ us) = (opensBehind? n ts).bind (opensBehind? · us) :=
  List.foldlM_append

theorem turnBehind?_cons (joinable : Bool) (t : Token) (ts : List Token) :
    turnBehind? joinable (t :: ts) = (t.turn? joinable).bind (turnBehind? · ts) :=
  List.foldlM_cons

theorem turnBehind?_append (joinable : Bool) (ts us : List Token) :
    turnBehind? joinable (ts ++ us) = (turnBehind? joinable ts).bind (turnBehind? · us) :=
  List.foldlM_append

/-- Parentheses that are open already stay open. -/
theorem opensBehind?_add (h : opensBehind? k ts = some m) (n : Nat) :
    opensBehind? (n + k) ts = some (n + m) := by
  induction ts generalizing k with
  | nil => exact congrArg (some <| n + ·) (Option.some.inj h)
  | cons t ts ih =>
    rw [opensBehind?_cons] at h ⊢
    obtain ⟨k', hopen, h⟩ := Option.bind_eq_some_iff.1 h
    have hopen' : t.open? (n + k) = some (n + k') := by
      cases t with
      | closing =>
        rcases k with _ | k
        · cases hopen
        · exact congrArg (some <| n + ·) (Option.some.inj hopen)
      | number _ | sign _ | bang | root | opening =>
        cases hopen
        rfl
    rw [hopen', Option.bind_some, ih h]

theorem Matched.opensBehind?_eq (h : Matched ts) (n : Nat) : opensBehind? n ts = some n :=
  opensBehind?_add h n

end

namespace Reader

/-- The frame is a parenthesis. -/
def Frame.isParenthesis : Frame → Bool
  | left _ _ => false
  | opened | rooted => true

/-- How many parentheses are open. -/
def State.opens (s : State) : Nat := s.frames.countP Frame.isParenthesis

theorem countP_collapse (limit : Nat) (frames : List Frame) (e : Expr) :
    (collapse limit frames e).1.countP Frame.isParenthesis =
      frames.countP Frame.isParenthesis := by
  fun_induction collapse limit frames e with
  | case1 o l frames r _ ih => rw [ih]; rfl
  | case2 => rfl
  | case3 => rfl

/-- If all operators are closed, what is left is nothing, or the last parenthesis and what is
    in front of it. -/
theorem collapse_three (frames : List Frame) (e : Expr) :
    (∃ v, collapse 3 frames e = ([], v) ∧ frames.countP Frame.isParenthesis = 0) ∨
      ∃ frame rest v, collapse 3 frames e = (frame :: rest, v) ∧ frame.isParenthesis ∧
        frames.countP Frame.isParenthesis = rest.countP Frame.isParenthesis + 1 := by
  fun_induction collapse 3 frames e with
  | case1 o l frames r _ ih => exact ih
  | case2 o l frames r h => exact absurd (looseness_le o) h
  | case3 frames e h =>
    rcases frames with _ | ⟨_ | _ | _, frames⟩
    · exact .inl ⟨e, rfl, rfl⟩
    · exact absurd rfl (h _ _ _)
    · exact .inr ⟨_, frames, e, rfl, rfl, List.countP_cons_of_pos rfl⟩
    · exact .inr ⟨_, frames, e, rfl, rfl, List.countP_cons_of_pos rfl⟩

variable {s : State} {t : Token} {ts : List Token} {n : Nat} {joinable : Bool} {e : Expr}

/-- A token is read where it does not close more than is open, and where it is its turn. -/
theorem exists_step (hopen : t.open? s.opens = some n)
    (hturn : t.turn? s.current.isSome = some joinable) :
    ∃ s', step s t = some s' ∧ s'.opens = n ∧ s'.current.isSome = joinable := by
  obtain ⟨frames, _ | v⟩ := s
  · cases t with
    | number x =>
      cases hopen
      cases hturn
      exact ⟨_, rfl, rfl, rfl⟩
    | opening | root =>
      cases hopen
      cases hturn
      exact ⟨_, rfl, List.countP_cons_of_pos rfl, rfl⟩
    | sign _ | bang | closing => cases hturn
  · cases t with
    | bang =>
      cases hopen
      cases hturn
      exact ⟨_, rfl, rfl, rfl⟩
    | sign o =>
      cases hopen
      cases hturn
      refine ⟨_, rfl, ?_, rfl⟩
      exact (List.countP_cons_of_neg Bool.false_ne_true).trans (countP_collapse _ frames v)
    | closing =>
      cases hturn
      change Token.open? (frames.countP Frame.isParenthesis) .closing = some n at hopen
      rw [step]
      -- In front of the operators stands the parenthesis that is closed.
      rcases collapse_three frames v with
        ⟨v', hframes, hzero⟩ | ⟨frame, rest, v', hframes, hframe, hcount⟩
      · rw [hzero] at hopen
        cases hopen
      · rw [hcount] at hopen
        cases hopen
        rw [hframes]
        cases frame with
        | left o l => cases hframe
        | opened | rooted => exact ⟨_, rfl, rfl, rfl⟩
    | number _ | opening | root => cases hturn

/-- Tokens are read where their parentheses match and what is read takes turns. -/
theorem exists_run (hopen : opensBehind? s.opens ts = some n)
    (hturn : turnBehind? s.current.isSome ts = some joinable) :
    ∃ s', run s ts = some s' ∧ s'.opens = n ∧ s'.current.isSome = joinable := by
  induction ts generalizing s with
  | nil => exact ⟨s, rfl, Option.some.inj hopen, Option.some.inj hturn⟩
  | cons t ts ih =>
    rw [opensBehind?_cons] at hopen
    rw [turnBehind?_cons] at hturn
    obtain ⟨n', hopen', hopen⟩ := Option.bind_eq_some_iff.1 hopen
    obtain ⟨b', hturn', hturn⟩ := Option.bind_eq_some_iff.1 hturn
    obtain ⟨s', hstep, rfl, rfl⟩ := exists_step hopen' hturn'
    obtain ⟨s'', hrun, hs''⟩ := ih hopen hturn
    exact ⟨s'', by rw [run_cons, hstep, Option.bind_some, hrun], hs''⟩

theorem Reads.matched {level : Nat} (h : Reads level ts e) : Matched ts := by
  induction h with
  | number x => rfl
  | enclosed _ ih | sqrt _ ih =>
    rw [Matched, List.cons_append, opensBehind?_cons, Token.open?, Option.bind_some,
      opensBehind?_append, ih.opensBehind?_eq, Option.bind_some]
    rfl
  | factorial _ ih =>
    rw [Matched, opensBehind?_append, ih, Option.bind_some]
    rfl
  | binary _ _ ihl ihr =>
    rw [Matched, opensBehind?_append, ihl, Option.bind_some, opensBehind?_cons, Token.open?,
      Option.bind_some, ihr]
  | looser _ ih => exact ih

theorem Reads.turns {level : Nat} (h : Reads level ts e) : Turns ts := by
  induction h with
  | number x => rfl
  | enclosed _ ih | sqrt _ ih =>
    rw [Turns, List.cons_append, turnBehind?_cons, Token.turn?, Option.bind_some,
      turnBehind?_append, ih, Option.bind_some]
    rfl
  | factorial _ ih =>
    rw [Turns, turnBehind?_append, ih, Option.bind_some]
    rfl
  | binary _ _ ihl ihr =>
    rw [Turns, turnBehind?_append, ihl, Option.bind_some, turnBehind?_cons, Token.turn?,
      Option.bind_some, ihr]
  | looser _ ih => exact ih

/-- Tokens can be read exactly if their parentheses match and what is read takes turns with
    what joins it. -/
theorem parse?_isSome_iff : (parse? ts).isSome ↔ Matched ts ∧ Turns ts := by
  constructor
  · intro h
    obtain ⟨e, he⟩ := Option.isSome_iff_exists.1 h
    have hreads := parse?_eq_some_iff.1 he
    exact ⟨hreads.matched, hreads.turns⟩
  · rintro ⟨hmatched, hturns⟩
    obtain ⟨⟨frames, _ | v⟩, hrun, hopens, hcurrent⟩ :=
      @exists_run ⟨[], none⟩ ts 0 true hmatched hturns
    · cases hcurrent
    · rw [parse?, hrun, Option.bind_some, State.result?]
      rcases collapse_three frames v with ⟨v', hframes, -⟩ | ⟨_, _, _, -, -, hcount⟩
      · rw [hframes]
        rfl
      · cases hopens.symm.trans hcount

end Reader

/-! ## Pairs of parentheses -/

section

variable {ts before inside behind rest : List Token} {k m n : Nat} {joinable : Bool} {e : Expr}

/-- Of `n + (k + 1)` open parentheses at most `n` stay open. So the one that was opened before
    the last `k` is closed, and in front of where it is, so are these. -/
theorem exists_closing_of_le (h : opensBehind? (n + (k + 1)) rest = some m) (hm : m ≤ n) :
    ∃ inside behind, rest = inside ++ .closing :: behind ∧ opensBehind? k inside = some 0 := by
  induction rest generalizing k with
  | nil =>
    obtain rfl : n + (k + 1) = m := Option.some.inj h
    omega
  | cons t ts ih =>
    rw [opensBehind?_cons] at h
    cases t with
    | opening | root =>
      obtain ⟨inside, behind, rfl, hinside⟩ := @ih (k + 1) h
      exact ⟨_ :: inside, behind, rfl, hinside⟩
    | closing =>
      rcases k with _ | k
      · exact ⟨[], ts, rfl, rfl⟩
      · obtain ⟨inside, behind, rfl, hinside⟩ := ih h
        exact ⟨.closing :: inside, behind, rfl, hinside⟩
    | number _ | sign _ | bang =>
      obtain ⟨inside, behind, rfl, hinside⟩ := ih h
      exact ⟨_ :: inside, behind, rfl, hinside⟩

/-- Every opening parenthesis is matched by a closing one. -/
theorem Matched.exists_closing (h : Matched (before ++ .opening :: rest)) :
    ∃ inside behind, rest = inside ++ .closing :: behind ∧ Matched inside := by
  rw [Matched, opensBehind?_append] at h
  obtain ⟨n, -, h⟩ := Option.bind_eq_some_iff.1 h
  exact exists_closing_of_le (k := 0) h (Nat.zero_le n)

/-- The parentheses in the text of an expression match; so those that enclose a side of an
    operator are a pair. -/
theorem matched_tokens (e : Expr) : Matched e.tokens := (reads_tokens e).1.matched

/-- Without a pair of parentheses, the others still match. -/
theorem Matched.without_pair (h : Matched (before ++ .opening :: inside ++ .closing :: behind))
    (hinside : Matched inside) : Matched (before ++ inside ++ behind) := by
  rw [Matched, List.append_assoc, opensBehind?_append] at h ⊢
  obtain ⟨n, hbefore, h⟩ := Option.bind_eq_some_iff.1 h
  rw [List.cons_append, opensBehind?_cons, Token.open?, Option.bind_some, opensBehind?_append,
    hinside.opensBehind?_eq] at h
  rw [hbefore, Option.bind_some, opensBehind?_append, hinside.opensBehind?_eq]
  exact h

/-- Without a pair of parentheses, what is read still takes turns: what they enclose takes
    their place. -/
theorem Turns.without_pair (h : Turns (before ++ .opening :: inside ++ .closing :: behind)) :
    Turns (before ++ inside ++ behind) := by
  rw [Turns, List.append_assoc, turnBehind?_append] at h ⊢
  obtain ⟨_ | _, hbefore, h⟩ := Option.bind_eq_some_iff.1 h
  · rw [List.cons_append, turnBehind?_cons, Token.turn?, Option.bind_some,
      turnBehind?_append] at h
    obtain ⟨_ | _, hinside, h⟩ := Option.bind_eq_some_iff.1 h
    · cases h
    · rw [hbefore, Option.bind_some, turnBehind?_append, hinside]
      exact h
  · cases h

/-- What can be read, can be read without a pair of its parentheses. -/
theorem exists_reads_without_pair
    (h : Reads 3 (before ++ .opening :: inside ++ .closing :: behind) e)
    (hinside : Matched inside) : ∃ t, Reads 3 (before ++ inside ++ behind) t := by
  have hparse : (parse? (before ++ inside ++ behind)).isSome :=
    parse?_isSome_iff.2 ⟨h.matched.without_pair hinside, h.turns.without_pair⟩
  obtain ⟨t, ht⟩ := Option.isSome_iff_exists.1 hparse
  exact ⟨t, parse?_eq_some_iff.1 ht⟩

/-- But without a pair, the text of an expression has too few parentheses to be read as the
    expression. -/
theorem not_reads_without_pair
    (h : e.tokens = before ++ .opening :: inside ++ .closing :: behind) :
    ¬ Reads 3 (before ++ inside ++ behind) e.regrouped := by
  intro hreads
  have hle := Nat.le_of_add_right_le hreads.countP_isOpening_le
  rw [Expr.tokens_regrouped, h] at hle
  simp only [List.countP_append, List.countP_cons, Token.isOpening, Bool.false_eq_true, if_true,
    if_false] at hle
  omega

/-- Where what is read takes turns, no numeral goes on behind another. -/
theorem lexes_of_turns (h : turnBehind? joinable ts = some true)
    (hplain : ∀ x, .number x ∈ ts → Double.Plain x) : Lexes ts := by
  induction ts generalizing joinable with
  | nil => exact .nil
  | cons t ts ih =>
    rw [turnBehind?_cons] at h
    obtain ⟨joinable', hturn, h⟩ := Option.bind_eq_some_iff.1 h
    have hts := ih h fun x hx => hplain x (List.mem_cons_of_mem _ hx)
    cases t with
    | number x =>
      have hx := Lexes.number (hplain x List.mem_cons_self)
      refine hx.append hts fun u hu => ?_
      -- Behind a numeral it is not the turn of another.
      obtain ⟨us, rfl⟩ := List.head?_eq_some_iff.1 hu
      cases joinable with
      | true => cases hturn
      | false =>
        cases hturn
        cases u with
        | number y => cases h
        | sign _ | bang | root | opening | closing => trivial
    | sign _ | bang | root | opening | closing => exact hts.cons_symbol _ trivial

theorem mem_of_mem_enclose {t : Token} (ht : t ≠ .opening ∧ t ≠ .closing) {looseness limit : Nat}
    (h : t ∈ Token.enclose looseness limit ts) : t ∈ ts := by
  rw [Token.enclose] at h
  split at h
  · simpa [ht.1, ht.2] using h
  · exact h

/-- The numerals in the text of an expression can be written. -/
theorem plain_of_mem_tokens (h : e.Writable) {x : Float} (hx : .number x ∈ e.tokens) :
    Double.Plain x := by
  induction e with
  | constant y | concat l r =>
    cases List.mem_singleton.1 hx
    exact h
  | sqrt e ih =>
    refine ih h ?_
    simpa [Expr.tokens] using hx
  | factorial e ih =>
    rw [Expr.tokens, List.mem_append, List.mem_singleton] at hx
    rcases hx with hx | hx
    · exact ih h (mem_of_mem_enclose (by simp) hx)
    · cases hx
  | binary o l r ihl ihr =>
    rw [Expr.tokens, List.mem_append, List.mem_cons] at hx
    rcases hx with hx | hx | hx
    · exact ihl h.1 (mem_of_mem_enclose (by simp) hx)
    · cases hx
    · exact ihr h.2 (mem_of_mem_enclose (by simp) hx)

end

/-! ## The result -/

/-- The text of some tokens. -/
def textOf (ts : List Token) : String := String.join (ts.map Token.text)

theorem textOf_append (ts us : List Token) : textOf (ts ++ us) = textOf ts ++ textOf us := by
  rw [textOf, List.map_append, String.join_append, textOf, textOf]

theorem textOf_cons (t : Token) (ts : List Token) : textOf (t :: ts) = t.text ++ textOf ts := by
  rw [textOf, List.map_cons, String.join_cons, textOf]

/-- In the text of an expression whose literals can be written, every opening parenthesis that
    belongs to no square root is matched by a closing one; and the text without these two is
    read as well, but as another expression than the whole text is. -/
theorem parentheses_needed {e : Expr} (h : e.Writable) :
    (∀ before rest, e.tokens = before ++ .opening :: rest →
      ∃ inside behind, rest = inside ++ .closing :: behind ∧ Matched inside) ∧
    ∀ before inside behind, e.tokens = before ++ .opening :: inside ++ .closing :: behind →
      Matched inside →
        e.text = textOf before ++ "(" ++ textOf inside ++ ")" ++ textOf behind ∧
        ∃ t t', read? e.text = some t ∧
          read? (textOf before ++ textOf inside ++ textOf behind) = some t' ∧ t' ≠ t := by
  have hreads : Reads 3 e.tokens e.regrouped := (reads_tokens e).1.mono e.looseness_le
  refine ⟨fun before rest htokens => ?_, fun before inside behind htokens hinside => ⟨?_, ?_⟩⟩
  · exact (htokens ▸ matched_tokens e).exists_closing
  · calc
      e.text = textOf e.tokens := e.text_eq
      _ = _ := by
        rw [htokens, textOf_append, textOf_append, textOf_cons, textOf_cons, ← String.append_assoc,
          ← String.append_assoc]
        rfl
  · obtain ⟨t', ht'⟩ := exists_reads_without_pair (htokens ▸ hreads) hinside
    have hsublist : (before ++ inside ++ behind).Sublist e.tokens := by
      rw [htokens]
      exact ((List.Sublist.refl before).append (List.sublist_cons_self _ inside)).append
        (List.sublist_cons_self _ behind)
    have hlexes : Lexes (before ++ inside ++ behind) :=
      lexes_of_turns ht'.turns fun x hx => plain_of_mem_tokens h (hsublist.subset hx)
    refine ⟨e.regrouped, t', read?_eq_some_iff.2 ⟨e.tokens, lex?_text h, hreads⟩, ?_, ?_⟩
    · rw [← textOf_append, ← textOf_append]
      exact read?_eq_some_iff.2 ⟨_, hlexes.lex?_eq, ht'⟩
    · rintro rfl
      exact not_reads_without_pair htokens ht'

/-- Of the text `sqrt(2 - (5 + 12))`, where `12` is joined of `1` and `2`, the inner parentheses
    are needed. -/
theorem parentheses_needed_difference :
    let digit (d : Nat) := Expr.constant (Float.ofNat d)
    let twelve := Expr.concat (digit 1) (digit 2)
    let e := Expr.sqrt (.binary .subtract (digit 2) (.binary .add (digit 5) twelve))
    let before := [.root, .number (Float.ofNat 2), .sign .subtract]
    let inside := [.number (Float.ofNat 5), .sign .add, .number twelve.value]
    e.Writable ∧ e.tokens = before ++ .opening :: inside ++ .closing :: [.closing] ∧
      Matched inside ∧ e.text = textOf before ++ "(" ++ textOf inside ++ ")" ++ textOf [.closing] ∧
      ∃ t t', read? e.text = some t ∧
        read? (textOf before ++ textOf inside ++ textOf [.closing]) = some t' ∧ t' ≠ t := by
  intro digit twelve e before inside
  have h : e.Writable := by decide +kernel
  have hinside : Matched inside := by decide
  exact ⟨h, rfl, hinside, (parentheses_needed h).2 before inside [.closing] rfl hinside⟩

end DigitReach

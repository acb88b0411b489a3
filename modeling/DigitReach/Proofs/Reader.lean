import DigitReach.Expr.Text
import Mathlib

/-!
# Reading expressions

The text of an expression is read by the rules it was written by: `*` and `/` bind tighter
than `+` and `-`, the power binds tighter still, and the factorial tightest; all of them
group to the left. Blanks are skipped.

* `Reads` says which expression a list of tokens stands for, at each level of looseness;
* `lex?` makes the tokens of a text, and `parse?` reads them one after the other, with a
  stack of what is still open;
* `parse?_eq_some_iff`: the tokens are read as an expression exactly if they stand for it.
  So they stand for at most one.
-/

namespace DigitReach.Reader

/-! ## The grammar -/

/-- The tokens stand for the expression, of which they make a sum (at level `3`), a product
    (`2`), a power (`1`), or a primary with the signs of its factorials (`0`). -/
inductive Reads : (level : Nat) → List Token → Expr → Prop
  | number (x : Float) : Reads 0 [.number x] (.constant x)
  | enclosed {ts : List Token} {e : Expr} :
    Reads 3 ts e → Reads 0 (.opening :: ts ++ [.closing]) e
  | sqrt {ts : List Token} {e : Expr} :
    Reads 3 ts e → Reads 0 (.root :: ts ++ [.closing]) (.sqrt e)
  | factorial {ts : List Token} {e : Expr} :
    Reads 0 ts e → Reads 0 (ts ++ [.bang]) (.factorial e)
  | binary {o : Operator} {ls rs : List Token} {l r : Expr} :
    Reads o.looseness ls l → Reads (o.looseness - 1) rs r →
      Reads o.looseness (ls ++ .sign o :: rs) (.binary o l r)
  | looser {level : Nat} {ts : List Token} {e : Expr} :
    Reads level ts e → Reads (level + 1) ts e

theorem Reads.mono {level limit : Nat} {ts : List Token} {e : Expr} (h : Reads level ts e)
    (hle : level ≤ limit) : Reads limit ts e := by
  induction hle with
  | refl => exact h
  | step _ ih => exact ih.looser

theorem looseness_pos (o : Operator) : 0 < o.looseness := by
  cases o <;> decide

theorem looseness_le (o : Operator) : o.looseness ≤ 3 := by
  cases o <;> decide

/-! ## The parser -/

/-- What is still open. -/
inductive Frame where
  /-- An operator that waits for its right side. -/
  | left (operator : Operator) (value : Expr)
  /-- An opening parenthesis. -/
  | opened
  /-- The parenthesis of a square root. -/
  | rooted

/-- What a parser knows: what is open, the last first, and what was read behind it, if
    anything. -/
structure State where
  /-- What is open. -/
  frames : List Frame
  /-- What was read behind it. -/
  current : Option Expr

/-- Closes the operators up to a limit of looseness, the last first. -/
def collapse (limit : Nat) : List Frame → Expr → List Frame × Expr
  | .left o l :: frames, r =>
    if o.looseness ≤ limit then collapse limit frames (.binary o l r) else (.left o l :: frames, r)
  | frames, e => (frames, e)

/-- Reads a token. -/
def step : State → Token → Option State
  | ⟨frames, none⟩, .number x => some ⟨frames, some (.constant x)⟩
  | ⟨frames, none⟩, .opening => some ⟨.opened :: frames, none⟩
  | ⟨frames, none⟩, .root => some ⟨.rooted :: frames, none⟩
  | ⟨frames, some e⟩, .bang => some ⟨frames, some (.factorial e)⟩
  | ⟨frames, some e⟩, .sign o =>
    match collapse o.looseness frames e with
    | (frames, l) => some ⟨.left o l :: frames, none⟩
  | ⟨frames, some e⟩, .closing =>
    match collapse 3 frames e with
    | (.opened :: frames, e) => some ⟨frames, some e⟩
    | (.rooted :: frames, e) => some ⟨frames, some (.sqrt e)⟩
    | _ => none
  | _, _ => none

/-- What was read, if nothing is open but operators. -/
def State.result? : State → Option Expr
  | ⟨frames, some e⟩ =>
    match collapse 3 frames e with
    | ([], e) => some e
    | _ => none
  | _ => none

/-- Reads tokens, one after the other. -/
def run (s : State) (ts : List Token) : Option State := ts.foldlM step s

/-- The expression that tokens are read as. -/
def parse? (ts : List Token) : Option Expr := (run ⟨[], none⟩ ts).bind State.result?

theorem run_cons (s : State) (t : Token) (ts : List Token) :
    run s (t :: ts) = (step s t).bind (run · ts) := List.foldlM_cons

theorem run_append (s : State) (ts us : List Token) :
    run s (ts ++ us) = (run s ts).bind (run · us) := List.foldlM_append

theorem run_singleton (s : State) (t : Token) : run s [t] = step s t := by
  rw [run_cons]
  exact Option.bind_fun_some _

/-! ## The parser finds what the tokens stand for -/

/-- No operator at the top of the frames holds as tight as the level. -/
def Holds (level : Nat) : List Frame → Prop
  | .left o _ :: _ => level < o.looseness
  | _ => True

theorem Holds.mono {level limit : Nat} {frames : List Frame} (h : Holds limit frames)
    (hle : level ≤ limit) : Holds level frames := by
  rcases frames with _ | ⟨_ | _ | _, frames⟩
  · trivial
  · exact Nat.lt_of_le_of_lt hle h
  · trivial
  · trivial

/-- Every operator is looser than a primary. -/
theorem holds_zero (frames : List Frame) : Holds 0 frames := by
  rcases frames with _ | ⟨_ | _ | _, frames⟩
  · trivial
  · exact looseness_pos _
  · trivial
  · trivial

theorem collapse_of_holds {level : Nat} {frames : List Frame} (h : Holds level frames) (e : Expr) :
    collapse level frames e = (frames, e) := by
  rcases frames with _ | ⟨_ | _ | _, frames⟩
  · rfl
  · exact if_neg (Nat.not_le_of_lt h)
  · rfl
  · rfl

/-- The state is behind what stands for `e`: whatever comes next and closes the operators up
    to the level, finds `e` behind the frames. -/
def Behind (level : Nat) (frames : List Frame) (e : Expr) (s : State) : Prop :=
  ∃ v, s.current = some v ∧
    ∀ limit, level ≤ limit → collapse limit s.frames v = collapse limit frames e

/-- A parenthesis closes all operators that it finds open. -/
theorem Behind.step_closing {frames : List Frame} {e : Expr} {s : State}
    (h : Behind 3 frames e s) : step s .closing = step ⟨frames, some e⟩ .closing := by
  obtain ⟨frames', _⟩ := s
  obtain ⟨v, rfl, hv⟩ := h
  rw [step, step, hv 3 le_rfl]

/-- Reading what stands for an expression gets behind it. -/
theorem Reads.run {level : Nat} {ts : List Token} {e : Expr} (h : Reads level ts e)
    {frames : List Frame} (hframes : Holds level frames) :
    ∃ s, Reader.run ⟨frames, none⟩ ts = some s ∧ Behind level frames e s := by
  induction h generalizing frames with
  | number x => exact ⟨_, rfl, _, rfl, fun _ _ => rfl⟩
  | enclosed _ ih =>
    obtain ⟨s, hrun, hbehind⟩ := @ih (.opened :: frames) trivial
    refine ⟨⟨frames, some _⟩, ?_, _, rfl, fun _ _ => rfl⟩
    rw [List.cons_append, run_cons, step, Option.bind_some, run_append, hrun, Option.bind_some,
      run_singleton, hbehind.step_closing]
    rfl
  | sqrt _ ih =>
    obtain ⟨s, hrun, hbehind⟩ := @ih (.rooted :: frames) trivial
    refine ⟨⟨frames, some _⟩, ?_, _, rfl, fun _ _ => rfl⟩
    rw [List.cons_append, run_cons, step, Option.bind_some, run_append, hrun, Option.bind_some,
      run_singleton, hbehind.step_closing]
    rfl
  | factorial _ ih =>
    -- No operator binds like a primary, so none was opened, and `v` is the argument.
    obtain ⟨⟨frames', _⟩, hrun, v, rfl, hv⟩ := ih hframes
    obtain ⟨rfl, rfl⟩ := Prod.mk.inj ((collapse_of_holds (holds_zero frames') v).symm.trans
      ((hv 0 le_rfl).trans (collapse_of_holds hframes _)))
    refine ⟨⟨frames', some (.factorial v)⟩, ?_, _, rfl, fun _ _ => rfl⟩
    rw [run_append, hrun, Option.bind_some, run_singleton, step]
  | @binary o ls rs l r _ _ ihl ihr =>
    -- The operator closes its left side, and stays open behind it, below the right side,
    -- until something as loose closes it.
    obtain ⟨⟨frames', _⟩, hrunl, v, rfl, hv⟩ := ihl hframes
    have hright : Holds (o.looseness - 1) (.left o l :: frames) :=
      Nat.sub_one_lt (looseness_pos o).ne'
    obtain ⟨s, hrunr, w, hw, hcollapse⟩ := ihr hright
    refine ⟨s, ?_, w, hw, fun limit hlimit => ?_⟩
    · rw [run_append, hrunl, Option.bind_some, run_cons, step, hv _ le_rfl,
        collapse_of_holds hframes]
      exact hrunr
    · rw [hcollapse limit ((Nat.sub_le _ _).trans hlimit)]
      exact if_pos hlimit
  | looser _ ih =>
    obtain ⟨s, hrun, v, hv, hcollapse⟩ := ih (hframes.mono (Nat.le_succ _))
    exact ⟨s, hrun, v, hv, fun limit hlimit => hcollapse limit (Nat.le_of_succ_le hlimit)⟩

/-- What stands for an expression is read as the expression. -/
theorem Reads.parse? {ts : List Token} {e : Expr} (h : Reads 3 ts e) :
    Reader.parse? ts = some e := by
  obtain ⟨⟨frames, _⟩, hrun, v, rfl, hv⟩ := @Reads.run _ _ _ h [] trivial
  rw [Reader.parse?, hrun, Option.bind_some, State.result?, hv 3 le_rfl]
  rfl

/-! ## What the parser reads stands for what it finds -/

/-- The tokens were read, and left the frames open. -/
inductive Opens : List Frame → List Token → Prop
  | start : Opens [] []
  | opened {frames : List Frame} {ts : List Token} :
    Opens frames ts → Opens (.opened :: frames) (ts ++ [.opening])
  | rooted {frames : List Frame} {ts : List Token} :
    Opens frames ts → Opens (.rooted :: frames) (ts ++ [.root])
  | left {frames : List Frame} {ts ls : List Token} {o : Operator} {l : Expr} :
    Opens frames ts → Holds o.looseness frames → Reads o.looseness ls l →
      Opens (.left o l :: frames) (ts ++ (ls ++ [.sign o]))

/-- The tokens were read, and left the frames open, with an expression of a level behind
    them. -/
def Leaves (level : Nat) (frames : List Frame) (e : Expr) (ts : List Token) : Prop :=
  ∃ ps es, ts = ps ++ es ∧ Opens frames ps ∧ Holds level frames ∧ Reads level es e

/-- Closing operators keeps what was read. -/
theorem Leaves.collapse {level limit : Nat} {frames : List Frame} {e : Expr} {ts : List Token}
    (h : Leaves level frames e ts) (hle : level ≤ limit) :
    Leaves limit (Reader.collapse limit frames e).1 (Reader.collapse limit frames e).2 ts := by
  obtain ⟨ps, es, rfl, hopens, hholds, hreads⟩ := h
  induction hopens generalizing level e es with
  | start => exact ⟨[], es, rfl, .start, trivial, hreads.mono hle⟩
  | opened h => exact ⟨_, es, rfl, .opened h, trivial, hreads.mono hle⟩
  | rooted h => exact ⟨_, es, rfl, .rooted h, trivial, hreads.mono hle⟩
  | @left frames ts ls o l hopens hframes hl ih =>
    rw [Reader.collapse]
    split
    · next hlimit =>
      -- The operator is closed, and with both of its sides it is what was read behind the rest.
      have hbinary := Reads.binary hl (hreads.mono (Nat.le_sub_one_of_lt hholds))
      have hrest := ih hlimit (ls ++ .sign o :: es) hframes hbinary
      simpa only [List.append_assoc, List.singleton_append] using hrest
    · next hlimit =>
      exact ⟨_, es, rfl, .left hopens hframes hl, Nat.lt_of_not_le hlimit, hreads.mono hle⟩

/-- The state is what the tokens lead to. -/
def Sound (ts : List Token) : State → Prop
  | ⟨frames, none⟩ => Opens frames ts
  | ⟨frames, some e⟩ => Leaves 0 frames e ts

/-- What is enclosed is a primary. -/
theorem Leaves.enclose {frames : List Frame} {e : Expr} {ts : List Token}
    (h : Leaves 3 (.opened :: frames) e ts) : Leaves 0 frames e (ts ++ [.closing]) := by
  obtain ⟨_, es, rfl, hopens, -, hreads⟩ := h
  cases hopens with
  | opened hopens =>
    refine ⟨_, _, ?_, hopens, holds_zero frames, .enclosed hreads⟩
    simp only [List.append_assoc, List.cons_append, List.nil_append]

theorem Leaves.sqrt {frames : List Frame} {e : Expr} {ts : List Token}
    (h : Leaves 3 (.rooted :: frames) e ts) : Leaves 0 frames (.sqrt e) (ts ++ [.closing]) := by
  obtain ⟨_, es, rfl, hopens, -, hreads⟩ := h
  cases hopens with
  | rooted hopens =>
    refine ⟨_, _, ?_, hopens, holds_zero frames, .sqrt hreads⟩
    simp only [List.append_assoc, List.cons_append, List.nil_append]

/-- Each token leads from one state to the next. -/
theorem Sound.step {s s' : State} {t : Token} {ts : List Token} (h : Sound ts s)
    (hstep : Reader.step s t = some s') : Sound (ts ++ [t]) s' := by
  obtain ⟨frames, _ | e⟩ := s
  · cases t with
    | number x =>
      cases hstep
      exact ⟨ts, _, rfl, h, holds_zero frames, .number x⟩
    | opening =>
      cases hstep
      exact .opened h
    | root =>
      cases hstep
      exact .rooted h
    | sign o => cases hstep
    | bang => cases hstep
    | closing => cases hstep
  · cases t with
    | bang =>
      cases hstep
      obtain ⟨ps, es, rfl, hopens, hholds, hreads⟩ := h
      exact ⟨ps, _, List.append_assoc .., hopens, hholds, .factorial hreads⟩
    | sign o =>
      cases hstep
      obtain ⟨ps, es, rfl, hopens, hholds, hreads⟩ := h.collapse (Nat.zero_le o.looseness)
      rw [List.append_assoc]
      exact .left hopens hholds hreads
    | closing =>
      -- Once the operators are closed, a parenthesis has to be open.
      have hcollapse := h.collapse (Nat.zero_le 3)
      rw [Reader.step] at hstep
      rcases hframes : Reader.collapse 3 frames e with ⟨_ | ⟨_ | _ | _, frames'⟩, e'⟩ <;>
        rw [hframes] at hstep hcollapse
      · cases hstep
      · cases hstep
      · cases hstep
        exact hcollapse.enclose
      · cases hstep
        exact hcollapse.sqrt
    | number x => cases hstep
    | opening => cases hstep
    | root => cases hstep

theorem Sound.run {s s' : State} {ts us : List Token} (h : Sound ts s)
    (hrun : Reader.run s us = some s') : Sound (ts ++ us) s' := by
  induction us generalizing s ts with
  | nil =>
    cases hrun
    rwa [List.append_nil]
  | cons u us ih =>
    rw [run_cons] at hrun
    obtain ⟨s'', hstep, hrun⟩ := Option.bind_eq_some_iff.1 hrun
    have hsound := ih (h.step hstep) hrun
    rwa [List.append_assoc] at hsound

/-- Tokens are read as an expression exactly if they stand for it. -/
theorem parse?_eq_some_iff {ts : List Token} {e : Expr} : parse? ts = some e ↔ Reads 3 ts e := by
  constructor
  · intro h
    obtain ⟨⟨frames, _ | v⟩, hrun, hresult⟩ := Option.bind_eq_some_iff.1 h
    · cases hresult
    · have hsound : Leaves 0 frames v ts :=
        @Sound.run ⟨[], none⟩ _ [] ts .start hrun
      have hcollapse := hsound.collapse (Nat.zero_le 3)
      rw [State.result?] at hresult
      rcases hframes : collapse 3 frames v with ⟨_ | ⟨_, _⟩, e'⟩ <;>
        rw [hframes] at hresult hcollapse
      · cases hresult
        obtain ⟨_, es, rfl, hopens, -, hreads⟩ := hcollapse
        cases hopens
        exact hreads
      · cases hresult
  · exact Reads.parse?

/-! ## The tokens of a text -/

/-- The characters of numerals. -/
def isNumeric (c : Char) : Bool := c.isDigit || c == '.'

/-- The first token of some characters without blanks, and the characters behind it. A
    numeral goes on as long as it can. -/
def firstToken? : List Char → Option (Token × List Char)
  | '+' :: cs => some (.sign .add, cs)
  | '-' :: cs => some (.sign .subtract, cs)
  | '*' :: cs => some (.sign .multiply, cs)
  | '/' :: cs => some (.sign .divide, cs)
  | '^' :: cs => some (.sign .power, cs)
  | '!' :: cs => some (.bang, cs)
  | '(' :: cs => some (.opening, cs)
  | ')' :: cs => some (.closing, cs)
  | 's' :: 'q' :: 'r' :: 't' :: '(' :: cs => some (.root, cs)
  | cs => (Numeral.read? (cs.takeWhile isNumeric)).map fun n =>
    (.number n.toDouble, cs.dropWhile isNumeric)

theorem length_lt_of_firstToken? {cs rest : List Char} {t : Token}
    (h : firstToken? cs = some (t, rest)) : rest.length < cs.length := by
  rw [firstToken?.eq_def] at h
  split at h
  case h_10 =>
    -- No numeral is empty.
    obtain ⟨n, hread, h⟩ := Option.map_eq_some_iff.1 h
    cases h
    rcases cs with _ | ⟨c, cs⟩
    · cases hread
    · by_cases hc : isNumeric c
      · rw [List.dropWhile_cons_of_pos hc]
        exact Nat.lt_succ_of_le (List.length_dropWhile_le _ _)
      · rw [List.takeWhile_cons_of_neg hc] at hread
        cases hread
  all_goals
    cases h
    simp only [List.length_cons]
    omega

/-- What begins like a numeral is one, or nothing. -/
theorem firstToken?_of_isNumeric {c : Char} (h : isNumeric c) (cs : List Char) :
    firstToken? (c :: cs) = (Numeral.read? ((c :: cs).takeWhile isNumeric)).map fun n =>
      (.number n.toDouble, (c :: cs).dropWhile isNumeric) := by
  rw [firstToken?.eq_def]
  split
  case h_10 => rfl
  all_goals
    next heq =>
      cases heq
      exact absurd h (by decide)

/-- The tokens of some characters without blanks. -/
def lex? (cs : List Char) : Option (List Token) :=
  if cs.isEmpty then some []
  else
    match _h : firstToken? cs with
    | none => none
    | some (t, rest) => (lex? rest).map (t :: ·)
termination_by cs.length
decreasing_by exact length_lt_of_firstToken? ‹_›

theorem lex?_nil : lex? [] = some [] := by
  rw [lex?]
  rfl

theorem lex?_of_firstToken? {cs rest : List Char} {t : Token}
    (h : firstToken? cs = some (t, rest)) : lex? cs = (lex? rest).map (t :: ·) := by
  rcases cs with _ | ⟨c, cs⟩
  · cases h
  · rw [lex?, List.isEmpty_cons, if_neg Bool.false_ne_true]
    split
    · next hnone =>
      rw [h] at hnone
      cases hnone
    · next hsome =>
      rw [h] at hsome
      cases hsome
      rfl

/-- The characters of a text that are no blanks. -/
def visible (text : String) : List Char := text.toList.filter fun c => !c.isWhitespace

/-- The expression that a text is read as. -/
def read? (text : String) : Option Expr := (lex? (visible text)).bind parse?

/-- A text is read as an expression exactly if its tokens stand for it. -/
theorem read?_eq_some_iff {text : String} {e : Expr} :
    read? text = some e ↔ ∃ ts, lex? (visible text) = some ts ∧ Reads 3 ts e := by
  simp only [read?, Option.bind_eq_some_iff, parse?_eq_some_iff]

end DigitReach.Reader

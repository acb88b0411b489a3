import DigitReach.Proofs.Orderings

/-!
# The step to the next rearrangement

`nextLex?` recurs from the head of a list. The same step can be taken in place
(`advance`): find the last item that is less than the one behind it, the *pivot*; exchange it
for the last item that is greater; and turn the tail behind the pivot round. A step in place
might be given up half-way, if a place that was found is outside the list, or nothing is
found (`Ending`). What a step does is to *turn* at the pivot (`Turn`):

    before ++ a :: (low ++ b :: high).reverse   becomes   before ++ b :: (low ++ a :: high)

where `low` and `high` are in ascending order, the items of `low` are at most `a`, and `b` is
the least of those that are greater.

* `descending_or_turn`: a list that cannot be turned nowhere ascends;
* `Turn.nextLex?_eq` and `Turn.advance_eq`: both ways to take the step turn the list;
* `Turn.isNext`: what comes of it is the next one of the rearrangements, equal items or not;
* `advance_isNext`: so a step in place is never given up half-way.
-/

namespace DigitReach

open scoped List

universe u

/-! ## The step in place -/

/-- The last place of an item with a property. -/
def lastPlace? {α : Type u} (p : α → Bool) : List α → Option Nat
  | [] => none
  | a :: as =>
    match lastPlace? p as with
    | some i => some (i + 1)
    | none => if p a then some 0 else none

/-- A list with the items at two places exchanged, if there are items at both. -/
def exchanged {α : Type u} (as : List α) (i j : Nat) : List α :=
  match as[i]?, as[j]? with
  | some a, some b => (as.set i b).set j a
  | _, _ => as

/-- How a step in place ends. -/
inductive Ending where
  /-- No item is less than the one behind it. -/
  | noPivot
  /-- There is no item at the pivot. -/
  | nothingAtPivot
  /-- No item is greater than the one at the pivot. -/
  | nothingGreater
  /-- Two items were exchanged, but there is no tail to be turned round. -/
  | noTail
  /-- The step was taken. -/
  | taken
deriving DecidableEq, Repr

/-- Whether the step says that there is a next rearrangement. -/
def Ending.hasNext : Ending → Bool
  | noPivot | nothingAtPivot | nothingGreater => false
  | noTail | taken => true

/-- Takes the step to the next rearrangement in place. -/
def advance (as : List Nat) : List Nat × Ending :=
  match lastPlace? (fun pair => pair.1 < pair.2) (as.zip as.tail) with
  | none => (as, .noPivot)
  | some pivot =>
    match as[pivot]? with
    | none => (as, .nothingAtPivot)
    | some a =>
      match lastPlace? (a < ·) as with
      | none => (as, .nothingGreater)
      | some place =>
        let as := exchanged as pivot place
        if pivot + 1 ≤ as.length then
          (as.take (pivot + 1) ++ (as.drop (pivot + 1)).reverse, .taken)
        else (as, .noTail)

section

variable {α : Type u} {p : α → Bool} {as behind : List α} {a : α}

theorem lastPlace?_eq_none (h : ∀ a ∈ as, ¬ p a) : lastPlace? p as = none := by
  induction as with
  | nil => rfl
  | cons a as ih =>
    rw [List.forall_mem_cons] at h
    rw [lastPlace?, ih h.2]
    exact if_neg h.1

theorem lastPlace?_cons (a : α) {i : Nat} (h : lastPlace? p as = some i) :
    lastPlace? p (a :: as) = some (i + 1) := by
  rw [lastPlace?, h]

theorem lastPlace?_append_cons (before : List α) (ha : p a) (h : ∀ b ∈ behind, ¬ p b) :
    lastPlace? p (before ++ a :: behind) = some before.length := by
  induction before with
  | nil =>
    rw [List.nil_append, lastPlace?, lastPlace?_eq_none h]
    exact if_pos ha
  | cons b before ih => exact lastPlace?_cons b ih

/-- Where a list nowhere ascends, no item is less than the one behind it. -/
theorem not_lt_of_mem_zip_tail {as : List Nat} (h : as.Pairwise (· ≥ ·)) :
    ∀ pair ∈ as.zip as.tail, ¬ decide (pair.1 < pair.2) := by
  induction as with
  | nil => exact fun _ hmem => absurd hmem List.not_mem_nil
  | cons a as ih =>
    obtain ⟨ha, has⟩ := List.pairwise_cons.1 h
    rcases as with _ | ⟨b, as⟩
    · exact fun _ hmem => absurd hmem List.not_mem_nil
    · refine List.forall_mem_cons.2 ⟨?_, ih has⟩
      simpa using ha b List.mem_cons_self

/-- The pivot is the item in front of a tail that nowhere ascends, if an item of the tail is
    greater. -/
theorem lastPlace?_zip_tail (before : List Nat) {a b : Nat} {tail : List Nat}
    (h : tail.Pairwise (· ≥ ·)) (hb : b ∈ tail) (hab : a < b) :
    lastPlace? (fun pair => pair.1 < pair.2)
        ((before ++ a :: tail).zip (before ++ a :: tail).tail) =
      some before.length := by
  induction before with
  | nil =>
    obtain ⟨c, cs, rfl⟩ := List.exists_cons_of_ne_nil (List.ne_nil_of_mem hb)
    have hbc : b ≤ c := by
      rcases List.mem_cons.1 hb with rfl | hb
      · exact le_rfl
      · exact (List.pairwise_cons.1 h).1 b hb
    exact lastPlace?_append_cons [] (decide_eq_true (hab.trans_le hbc)) (not_lt_of_mem_zip_tail h)
  | cons d before ih =>
    obtain ⟨c, cs, hcons⟩ : ∃ c cs, before ++ a :: tail = c :: cs :=
      List.exists_cons_of_ne_nil (by simp)
    rw [hcons] at ih
    rw [List.cons_append, hcons]
    exact lastPlace?_cons (d, c) ih

theorem exchanged_append (before middle behind : List α) (a b : α) :
    exchanged (before ++ a :: (middle ++ b :: behind)) before.length
        (before.length + 1 + middle.length) =
      before ++ b :: (middle ++ a :: behind) := by
  have hfirst : (before ++ a :: (middle ++ b :: behind))[before.length]? = some a := by simp
  have hsecond : (before ++ a :: (middle ++ b :: behind))[before.length + 1 + middle.length]? =
      some b := by
    rw [List.getElem?_append_right (by omega), Nat.add_assoc, Nat.add_sub_cancel_left,
      Nat.add_comm 1, List.getElem?_cons_succ, List.getElem?_append_right le_rfl, Nat.sub_self]
    rfl
  rw [exchanged, hfirst, hsecond]
  simp [Nat.add_assoc, Nat.add_comm 1]

end

/-! ## Lists in order -/

section

variable {α : Type u} {r : α → α → Prop} {as bs : List α}

/-- A list that is in order comes before its other rearrangements. -/
theorem eq_or_lex_of_perm (h : as.Pairwise fun a b => a = b ∨ r a b) (hperm : bs.Perm as) :
    as = bs ∨ List.Lex r as bs := by
  induction as generalizing bs with
  | nil => exact .inl (List.perm_nil.1 hperm).symm
  | cons a as ih =>
    obtain ⟨ha, has⟩ := List.pairwise_cons.1 h
    rcases bs with _ | ⟨b, bs⟩
    · exact absurd hperm.length_eq (by simp)
    have hab : a = b ∨ r a b := by
      rcases List.mem_cons.1 (hperm.mem_iff.1 List.mem_cons_self) with rfl | hb
      · exact .inl rfl
      · exact ha b hb
    rcases hab with rfl | hab
    · exact (ih has hperm.cons_inv).imp (congrArg (a :: ·)) .cons
    · exact .inr (.rel hab)

/-- Lists of one length that are in order for `>` are so for `<` the other way round. -/
theorem lt_of_lex_gt {as bs : List Nat} (h : List.Lex (· > ·) as bs)
    (hlength : as.length = bs.length) : bs < as := by
  induction h with
  | nil => exact absurd hlength (by simp)
  | cons _ ih => exact .cons (ih (Nat.succ.inj hlength))
  | rel hgt => exact .rel hgt

end

variable {as bs cs : List Nat}

/-- No rearrangement is before a list that nowhere descends. -/
theorem le_of_ascending (h : as.Pairwise (· ≤ ·)) (hperm : bs.Perm as) : as ≤ bs := by
  rcases eq_or_lex_of_perm (h.imp Nat.eq_or_lt_of_le) hperm with rfl | hlex
  · exact le_rfl
  · exact le_of_lt hlex

/-- No rearrangement is behind a list that nowhere ascends. -/
theorem le_of_descending (h : as.Pairwise (· ≥ ·)) (hperm : bs.Perm as) : bs ≤ as := by
  have hgt : as.Pairwise fun a b => a = b ∨ a > b :=
    h.imp fun hge => (Nat.eq_or_lt_of_le hge).imp_left Eq.symm
  rcases eq_or_lex_of_perm hgt hperm with rfl | hlex
  · exact le_rfl
  · exact (lt_of_lex_gt hlex hperm.length_eq.symm).le

/-! ## Turns -/

/-- At a pivot, the tail behind which nowhere ascends, the item gives way to the least greater
    one of the tail, and the others are put behind it in ascending order. -/
inductive Turn : List Nat → List Nat → Prop
  | turn (before : List Nat) {low high : List Nat} {a b : Nat} (hlow : ∀ x ∈ low, x ≤ a)
      (hab : a < b) (hascending : (low ++ b :: high).Pairwise (· ≤ ·)) :
    Turn (before ++ a :: (low ++ b :: high).reverse) (before ++ b :: (low ++ a :: high))

/-- `bs` is the next one of the rearrangements of `as`: it is behind `as`, and there is none
    between. -/
structure IsNext (as bs : List Nat) : Prop where
  perm : bs.Perm as
  lt : as < bs
  not_between : ∀ cs, cs.Perm as → ¬ (as < cs ∧ cs < bs)

/-- Without its head, a list in ascending order stays so with a smaller item in front of those
    that are greater. -/
theorem ascending_turn {low high : List Nat} {a b : Nat} (hlow : ∀ x ∈ low, x ≤ a) (hab : a < b)
    (h : (low ++ b :: high).Pairwise (· ≤ ·)) : (low ++ a :: high).Pairwise (· ≤ ·) := by
  obtain ⟨hleft, hright, hcross⟩ := List.pairwise_append.1 h
  obtain ⟨hb, hhigh⟩ := List.pairwise_cons.1 hright
  refine List.pairwise_append.2 ⟨hleft, List.pairwise_cons.2 ⟨fun y hy => ?_, hhigh⟩, ?_⟩
  · exact hab.le.trans (hb y hy)
  · intro x hx
    exact List.forall_mem_cons.2 ⟨hlow x hx, fun y hy => hcross x hx y (List.mem_cons_of_mem b hy)⟩

/-- Of the items of the tail, `b` is the least that is greater than `a`. -/
theorem le_of_mem_of_lt {low high : List Nat} {a b c : Nat} (hlow : ∀ x ∈ low, x ≤ a)
    (h : (low ++ b :: high).Pairwise (· ≤ ·)) (hc : c ∈ low ++ b :: high) (hac : a < c) :
    b ≤ c := by
  rcases List.mem_append.1 hc with hc | hc
  · exact absurd (hlow c hc) hac.not_ge
  · rcases List.mem_cons.1 hc with rfl | hc
    · exact le_rfl
    · exact (List.pairwise_cons.1 (List.pairwise_append.1 h).2.1).1 c hc

namespace Turn

theorem cons (c : Nat) (h : Turn as bs) : Turn (c :: as) (c :: bs) := by
  cases h with
  | turn before hlow hab hascending => exact turn (c :: before) hlow hab hascending

theorem perm (h : Turn as bs) : bs.Perm as := by
  cases h with
  | @turn before low high a b =>
    refine List.Perm.append_left before ?_
    calc b :: (low ++ a :: high) ~ b :: a :: (low ++ high) := List.perm_middle.cons b
      _ ~ a :: b :: (low ++ high) := .swap a b _
      _ ~ a :: (low ++ b :: high) := List.perm_middle.symm.cons a
      _ ~ a :: (low ++ b :: high).reverse := (List.reverse_perm _).symm.cons a

theorem lt (h : Turn as bs) : as < bs := by
  cases h with
  | turn before _ hab _ =>
    induction before with
    | nil => exact .rel hab
    | cons c before ih => exact .cons ih

/-- No rearrangement that is behind the list is before what comes of the turn. -/
theorem le_of_behind (h : Turn as bs) (hperm : cs.Perm as) (hlt : as < cs) : bs ≤ cs := by
  cases h with
  | @turn before low high a b hlow hab hascending =>
    induction before generalizing cs with
    | nil =>
      rcases cs with _ | ⟨c, cs⟩
      · exact absurd hlt (List.not_lt_nil _)
      rcases List.cons_lt_cons_iff.1 hlt with hac | ⟨rfl, htail⟩
      · -- The head is greater than `a`; if it is `b`, the others ascend in what comes of the turn.
        have hc : c ∈ (low ++ b :: high).reverse :=
          List.mem_of_ne_of_mem hac.ne' (hperm.mem_iff.1 List.mem_cons_self)
        rcases (le_of_mem_of_lt hlow hascending (List.mem_reverse.1 hc) hac).eq_or_lt with rfl | hbc
        · have hothers := (hperm.trans (turn [] hlow hab hascending).perm.symm).cons_inv
          exact List.cons_le_cons b (le_of_ascending (ascending_turn hlow hab hascending) hothers)
        · exact (List.Lex.rel hbc : _ < _).le
      · -- Behind `a`, the tail is the last of its rearrangements.
        have hle := le_of_descending (List.pairwise_reverse.2 hascending) hperm.cons_inv
        exact absurd htail hle.not_gt
    | cons d before ih =>
      rcases cs with _ | ⟨c, cs⟩
      · exact absurd hlt (List.not_lt_nil _)
      rcases List.cons_lt_cons_iff.1 hlt with hdc | ⟨rfl, htail⟩
      · exact (List.Lex.rel hdc : _ < _).le
      · exact List.cons_le_cons d (ih hperm.cons_inv htail)

theorem isNext (h : Turn as bs) : IsNext as bs :=
  ⟨h.perm, h.lt, fun _ hperm hbetween => (h.le_of_behind hperm hbetween.1).not_gt hbetween.2⟩

theorem nextLex?_eq (h : Turn as bs) : nextLex? as = some bs := by
  cases h with
  | turn before hlow hab hascending =>
    induction before with
    | nil => exact nextLex?_turn hlow hab hascending
    | cons c before ih => exact nextLex?_cons ih

/-- The step in place turns the list. -/
theorem advance_eq (h : Turn as bs) : advance as = (bs, .taken) := by
  cases h with
  | @turn before low high a b hlow hab hascending =>
    have hreverse : (low ++ b :: high).reverse = high.reverse ++ b :: low.reverse := by simp
    have hb : b ∈ (low ++ b :: high).reverse := by simp
    have hpivot := lastPlace?_zip_tail before (List.pairwise_reverse.2 hascending) hb hab
    have hitem : (before ++ a :: (low ++ b :: high).reverse)[before.length]? = some a := by simp
    have hplace : lastPlace? (a < ·) (before ++ a :: (low ++ b :: high).reverse) =
        some (before.length + 1 + high.reverse.length) := by
      have hlast : ∀ y ∈ low.reverse, ¬ decide (a < y) := fun y hy => by
        simpa using hlow y (List.mem_reverse.1 hy)
      have hplace := lastPlace?_append_cons (p := (a < ·)) (before ++ a :: high.reverse)
        (decide_eq_true hab) hlast
      rw [hreverse]
      simpa [Nat.add_assoc, Nat.add_comm 1] using hplace
    have hlength :
        before.length + 1 ≤ (before ++ b :: (high.reverse ++ a :: low.reverse)).length := by
      rw [List.length_append, List.length_cons]
      omega
    simp only [advance, hpivot, hitem, hplace]
    rw [hreverse, exchanged_append, if_pos hlength, List.take_length_add_append,
      List.drop_length_add_append]
    simp

end Turn

theorem advance_of_descending (h : as.Pairwise (· ≥ ·)) : advance as = (as, .noPivot) := by
  rw [advance, lastPlace?_eq_none (not_lt_of_mem_zip_tail h)]

/-- A list nowhere ascends, or it can be turned. -/
theorem descending_or_turn (as : List Nat) : as.Pairwise (· ≥ ·) ∨ ∃ bs, Turn as bs := by
  induction as with
  | nil => exact .inl .nil
  | cons a as ih =>
    rcases ih with hdescending | ⟨bs, hturn⟩
    · rcases hfind : as.reverse.find? (a < ·) with _ | b
      · refine .inl (List.pairwise_cons.2 ⟨fun x hx => ?_, hdescending⟩)
        simpa using List.find?_eq_none.1 hfind x (List.mem_reverse.2 hx)
      · -- The items in front of the first one that is greater, from the end, are not greater.
        obtain ⟨hab, low, high, hsplit, hlow⟩ := List.find?_eq_some_iff_append.1 hfind
        rw [← List.reverse_reverse as, hsplit] at hdescending ⊢
        refine .inr ⟨_, .turn [] (fun x hx => ?_) (of_decide_eq_true hab)
          (List.pairwise_reverse.1 hdescending)⟩
        simpa using hlow x hx
    · exact .inr ⟨a :: bs, hturn.cons a⟩

/-! ## The result -/

/-- Whatever numbers a list has, equal ones or not, the step in place is never given up
    half-way: either there is no pivot, or the step is taken. It says that there is a next
    rearrangement exactly if there is any behind the list; then it leaves the next one, and
    otherwise the list as it is, which is so exactly if the list nowhere ascends. The
    enumeration of orderings takes the same step. -/
theorem advance_isNext (as : List Nat) :
    ((advance as).2 = .noPivot ∨ (advance as).2 = .taken) ∧
      ((advance as).2.hasNext = true ↔ ∃ bs, bs.Perm as ∧ as < bs) ∧
      ((advance as).2.hasNext = true → IsNext as (advance as).1) ∧
      ((advance as).2.hasNext = false ↔ as.Pairwise (· ≥ ·)) ∧
      ((advance as).2.hasNext = false → (advance as).1 = as) ∧
      nextLex? as = if (advance as).2.hasNext then some (advance as).1 else none := by
  rcases descending_or_turn as with hdescending | ⟨bs, hturn⟩
  · have hnone : ¬ ∃ bs, bs.Perm as ∧ as < bs := by
      rintro ⟨bs, hperm, hlt⟩
      exact (le_of_descending hdescending hperm).not_gt hlt
    rw [advance_of_descending hdescending, nextLex?_of_descending hdescending]
    exact ⟨.inl rfl, iff_of_false Bool.false_ne_true hnone, nofun, iff_of_true rfl hdescending,
      fun _ => rfl, rfl⟩
  · have hnext := hturn.isNext
    have hnot : ¬ as.Pairwise (· ≥ ·) := fun hdescending =>
      (le_of_descending hdescending hnext.perm).not_gt hnext.lt
    rw [hturn.advance_eq, hturn.nextLex?_eq]
    exact ⟨.inr rfl, iff_of_true rfl ⟨bs, hnext.perm, hnext.lt⟩, fun _ => hnext,
      iff_of_false nofun hnot, nofun, rfl⟩

end DigitReach

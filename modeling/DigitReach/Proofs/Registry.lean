import DigitReach.Registry
import Mathlib

/-!
# Laws of registries

A registry is known by the answer it gives to each number (`Registry.ext_get?`). An
expression *reaches* a number if its value is that number and the number is a target
(`Expr.Reaches`); its offer then sets the answer to it against the answer that stands,
and the better of the two stays (`Registry.get?_after`). So an offer is the merge of a
registry that knows of one expression only, and both are accounted for by the laws of
`Answer.better`:

* it is associative, with no answer as its neutral element (`Answer.better_assoc`);
* it keeps an answer, or takes one that ranks strictly lower (`Answer.better_eq_left_iff`).
-/

namespace DigitReach

/-! ## Numbers that are reached -/

/-- The value of an expression is the number `n`, one of the targets. -/
def Expr.Reaches (e : Expr) (n : Nat) : Prop := (Target.of? e.value).map Fin.val = some n

instance (e : Expr) (n : Nat) : Decidable (e.Reaches n) :=
  inferInstanceAs (Decidable (_ = _))

/-- The answer of an expression to a number, if it reaches it. -/
def Expr.answerTo? (e : Expr) (n : Nat) : Option Answer :=
  if e.Reaches n then some e.answer else none

/-- An expression reaches at most one number. -/
theorem Expr.Reaches.unique {e : Expr} {m n : Nat} (hm : e.Reaches m) (hn : e.Reaches n) :
    m = n :=
  Option.some.inj (hm.symm.trans hn)

theorem Expr.reaches_iff_of_target {e : Expr} {target : Target}
    (h : Target.of? e.value = some target) (n : Nat) : e.Reaches n ↔ n = target.val := by
  rw [Reaches, h, Option.map_some, Option.some.injEq, eq_comm]

theorem Expr.not_reaches_of_target {e : Expr} (h : Target.of? e.value = none) (n : Nat) :
    ¬ e.Reaches n := by
  rw [Reaches, h, Option.map_none]
  exact nofun

/-! ## The better of two answers -/

namespace Answer

@[simp] theorem better_none_left (a : Option Answer) : better none a = a := by
  cases a <;> rfl

@[simp] theorem better_none_right (a : Option Answer) : better a none = a := by
  cases a <;> rfl

theorem better_some (a b : Answer) :
    better (some a) (some b) = if b.rank < a.rank then some b else some a := rfl

theorem better_assoc (a b c : Option Answer) :
    better (better a b) c = better a (better b c) := by
  rcases a with _ | a
  · rw [better_none_left, better_none_left]
  rcases b with _ | b
  · rw [better_none_right, better_none_left]
  rcases c with _ | c
  · rw [better_none_right, better_none_right]
  -- Three answers: the one of the least rank stays, the first of them on a tie.
  by_cases hab : b.rank < a.rank <;> by_cases hbc : c.rank < b.rank <;>
    by_cases hac : c.rank < a.rank <;> simp only [better_some, hab, hbc, hac, if_true, if_false]
  all_goals omega

theorem better_eq_none_iff {a b : Option Answer} : better a b = none ↔ a = none ∧ b = none := by
  rcases a with _ | a
  · simp
  rcases b with _ | b
  · simp
  rw [better_some]
  split <;> simp

/-- The better of two answers is one of them. -/
theorem eq_or_eq_of_better {a b : Option Answer} {c : Answer} (h : better a b = some c) :
    a = some c ∨ b = some c := by
  rcases a with _ | a
  · exact .inr (by rwa [better_none_left] at h)
  rcases b with _ | b
  · exact .inl h
  rw [better_some] at h
  split at h
  · exact .inr h
  · exact .inl h

/-- The first answer stays exactly if the second is none or ranks no lower. -/
theorem better_eq_left_iff (a : Answer) (b : Option Answer) :
    better (some a) b = some a ↔ ∀ later, b = some later → a.rank ≤ later.rank := by
  rcases b with _ | b
  · simp
  rw [better_some]
  constructor
  · intro h later hlater
    cases hlater
    split at h
    · next hlt => cases h; exact absurd hlt (Nat.lt_irrefl _)
    · next hge => exact Nat.le_of_not_lt hge
  · intro h
    rw [if_neg (Nat.not_lt.2 (h b rfl))]

end Answer

namespace Registry

/-! ## Registries as their answers -/

theorem get?_target (r : Registry) {target : Target} (h : target.val < maxTarget + 1) :
    r.get? target.val = r.answers[target] := by
  rw [get?, Vector.getElem?_eq_getElem h, Option.join_some]
  rfl

/-- Registries with the same answers are the same. -/
theorem ext_get? {r s : Registry} (h : ∀ n, r.get? n = s.get? n) : r = s := by
  obtain ⟨answers⟩ := r
  obtain ⟨answers'⟩ := s
  congr 1
  ext1 n hn
  have hget := get?_target ⟨answers⟩ (Fin.mk n hn).isLt
  have hget' := get?_target ⟨answers'⟩ (Fin.mk n hn).isLt
  exact hget.symm.trans ((h n).trans hget')

/-- A number with an answer is a target. -/
theorem lt_of_get? {r : Registry} {n : Nat} {answer : Answer} (h : r.get? n = some answer) :
    n < maxTarget + 1 := by
  by_contra hge
  rw [get?, Vector.getElem?_eq_none (Nat.le_of_not_lt hge)] at h
  cases h

/-- The entries are the numbers with their answers. -/
theorem mem_entries {r : Registry} {target : Target} {answer : Answer} :
    (target, answer) ∈ r.entries ↔ r.get? target.val = some answer := by
  rw [entries, List.mem_filterMap, get?_target r target.isLt]
  constructor
  · rintro ⟨target', -, h⟩
    obtain ⟨answer', hanswer, heq⟩ := Option.map_eq_some_iff.1 h
    obtain ⟨rfl, rfl⟩ := Prod.mk.inj heq
    exact hanswer
  · intro h
    exact ⟨target, List.mem_finRange _, by rw [h, Option.map_some]⟩

/-- They are in ascending order. -/
theorem pairwise_entries (r : Registry) : r.entries.Pairwise fun x y => x.1 < y.1 := by
  rw [entries, List.pairwise_filterMap]
  refine (List.pairwise_lt_finRange _).imp fun hlt x hx y hy => ?_
  obtain ⟨_, -, rfl⟩ := Option.map_eq_some_iff.1 hx
  obtain ⟨_, -, rfl⟩ := Option.map_eq_some_iff.1 hy
  exact hlt

/-- The other targets are those that are missing. -/
theorem mem_missing {r : Registry} {target : Target} :
    target ∈ r.missing ↔ r.get? target.val = none := by
  rw [missing, List.mem_filter, get?_target r target.isLt, Option.isNone_iff_eq_none]
  exact and_iff_right (List.mem_finRange _)

theorem pairwise_missing (r : Registry) : r.missing.Pairwise (· < ·) :=
  (List.pairwise_lt_finRange _).filter _

/-! ## Offers -/

/-- What an expression changes: its number, if there is no answer to it or one that ranks
    higher. -/
theorem change?_eq_some_iff {r : Registry} {e : Expr} {c : Change} :
    r.change? e = some c ↔ e.Reaches c.target.val ∧ c.answer = e.answer ∧
      c.former = (r.get? c.target.val).map Answer.rank ∧
      ∀ old, r.get? c.target.val = some old → e.rank < old.rank := by
  obtain ⟨target, former, answer⟩ := c
  rw [change?]
  rcases htarget : Target.of? e.value with _ | reached
  · exact ⟨nofun, fun h => absurd h.1 (Expr.not_reaches_of_target htarget _)⟩
  simp only [Expr.reaches_iff_of_target htarget, Fin.val_inj, ← get?_target]
  -- The offer succeeds where no answer stands, or by its rank.
  rcases hold : r.get? reached.val with _ | old
  · constructor
    · rintro ⟨⟩
      exact ⟨rfl, rfl, by rw [hold, Option.map_none], by rw [hold]; exact nofun⟩
    · rintro ⟨rfl, rfl, rfl, -⟩
      rw [hold, Option.map_none]
  · dsimp only
    constructor
    · intro h
      split at h
      · next hrank =>
        cases h
        refine ⟨rfl, rfl, by rw [hold, Option.map_some], fun old' hold' => ?_⟩
        rw [hold] at hold'
        exact Option.some.inj hold' ▸ hrank
      · cases h
    · rintro ⟨rfl, rfl, rfl, hrank⟩
      rw [hold, Option.map_some]
      exact if_pos (hrank old hold)

/-- An expression changes nothing exactly if the number it reaches, if any, has an answer
    that ranks no higher. -/
theorem change?_eq_none_iff {r : Registry} {e : Expr} :
    r.change? e = none ↔ ∀ n, e.Reaches n → ∃ old, r.get? n = some old ∧ old.rank ≤ e.rank := by
  rw [change?]
  rcases htarget : Target.of? e.value with _ | reached
  · exact ⟨fun _ n hn => absurd hn (Expr.not_reaches_of_target htarget n), fun _ => rfl⟩
  simp only [Expr.reaches_iff_of_target htarget, forall_eq, ← get?_target]
  rcases hold : r.get? reached.val with _ | old
  · simp
  · simp

/-- The registry after an offer. -/
def after (r : Registry) (e : Expr) : Registry := (r.offer e).1

/-- The registry after the offers of some expressions, one after the other. -/
def afterAll (r : Registry) (es : List Expr) : Registry := es.foldl after r

@[simp] theorem afterAll_nil (r : Registry) : r.afterAll [] = r := rfl

@[simp] theorem afterAll_cons (r : Registry) (e : Expr) (es : List Expr) :
    r.afterAll (e :: es) = (r.after e).afterAll es := rfl

theorem afterAll_append (r : Registry) (es es' : List Expr) :
    r.afterAll (es ++ es') = (r.afterAll es).afterAll es' := List.foldl_append

theorem after_of_change {r : Registry} {e : Expr} {c : Change} (h : r.change? e = some c) :
    r.after e = r.record c := by
  rw [after, offer, h]

theorem after_of_no_change {r : Registry} {e : Expr} (h : r.change? e = none) :
    r.after e = r := by
  rw [after, offer, h]

/-- An offer sets the expression against the answer that stands, and keeps the better. -/
theorem get?_after (r : Registry) (e : Expr) (n : Nat) :
    (r.after e).get? n = Answer.better (r.get? n) (e.answerTo? n) := by
  rw [Expr.answerTo?]
  rcases hchange : r.change? e with _ | c
  · rw [after_of_no_change hchange]
    split
    · next hn =>
      obtain ⟨old, hold, hrank⟩ := change?_eq_none_iff.1 hchange n hn
      rw [hold, eq_comm, Answer.better_eq_left_iff]
      rintro later ⟨⟩
      exact hrank
    · rw [Answer.better_none_right]
  · rw [after_of_change hchange, get?_record]
    obtain ⟨hreaches, hanswer, -, hrank⟩ := change?_eq_some_iff.1 hchange
    by_cases hn : n = c.target.val
    · subst hn
      rw [if_pos rfl, if_pos hreaches, hanswer]
      rcases hold : r.get? c.target.val with _ | old
      · rw [Answer.better_none_left]
      · exact (if_pos (hrank old hold)).symm
    · rw [if_neg hn, if_neg fun h => hn (h.unique hreaches), Answer.better_none_right]

/-- An offer says that it changed the registry exactly if it did. -/
theorem offer_changes_iff (r : Registry) (e : Expr) :
    (r.offer e).2.isSome ↔ (r.offer e).1 ≠ r := by
  change _ ↔ r.after e ≠ r
  rcases hchange : r.change? e with _ | c
  · rw [after_of_no_change hchange, offer, hchange]
    simp
  · rw [after_of_change hchange, offer, hchange]
    obtain ⟨-, hanswer, -, hrank⟩ := change?_eq_some_iff.1 hchange
    refine ⟨fun _ hsame => ?_, fun _ => rfl⟩
    -- The new answer would be the old one, and yet rank lower.
    have hnew : r.get? c.target.val = some e.answer := by
      rw [← hanswer, ← hsame, get?_record, if_pos rfl]
    exact absurd (hrank _ hnew) (Nat.lt_irrefl _)

end Registry

end DigitReach

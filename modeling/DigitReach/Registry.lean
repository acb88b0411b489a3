import DigitReach.Expr.Rank
import DigitReach.Expr.Text

/-!
# Registries

The *targets* of a search are the whole numbers from `0` to `100`. A registry holds,
for each target that was reached, the rank and the text of the best expression met so
far; an expression that comes later takes its place only if it ranks strictly lower.

* `Registry.change?` says what an expression would change, and `Registry.record`
  makes a change; together they are `Registry.offer`;
* `Registry.merge` takes in what a registry filled later has found, target by target,
  and so has the effect of offering its expressions after one's own;
* `get?_record` and `get?_merge` say what answer each number has after a change and
  after a merge;
* `Registry.entries` and `Registry.missing` list the targets that were reached, and
  those that were not.
-/

namespace DigitReach

/-- The greatest number that is looked for. -/
def maxTarget : Nat := 100

/-- A number that is looked for, from `0` to `100`. -/
abbrev Target := Fin (maxTarget + 1)

/-- The target that a value reaches: the one it is equal to. Both zeros reach `0`. -/
def Target.of? (x : Float) : Option Target := wholeUpTo? maxTarget x

/-- What is known of an expression that reaches a target. -/
structure Answer where
  /-- Its rank. -/
  rank : Nat
  /-- Its text. -/
  text : String
deriving DecidableEq, Repr

/-- The answer that an expression gives. -/
def Expr.answer (e : Expr) : Answer := ⟨e.rank, e.text⟩

/-- The better of two answers to one target: the first, unless the second ranks
    strictly lower. -/
def Answer.better : Option Answer → Option Answer → Option Answer
  | none, later => later
  | some answer, none => some answer
  | some answer, some later => if later.rank < answer.rank then some later else some answer

/-- The best answers so far. -/
structure Registry where
  /-- The answer to each target, if there is one. -/
  answers : Vector (Option Answer) (maxTarget + 1)
deriving DecidableEq

/-- A change of a registry: a target gets a new answer. -/
structure Change where
  /-- The target. -/
  target : Target
  /-- The rank of the answer that is replaced, if there is one. -/
  former : Option Nat
  /-- The new answer. -/
  answer : Answer
deriving DecidableEq, Repr

namespace Registry

/-- The registry without answers. -/
def empty : Registry := ⟨Vector.replicate (maxTarget + 1) none⟩

instance : Inhabited Registry := ⟨empty⟩

/-- The answer to a number; there is none to a number that is no target. -/
def get? (r : Registry) (n : Nat) : Option Answer := r.answers[n]?.join

/-! ## Offers -/

/-- The change that an expression makes, if it is the first to reach its target or
    ranks lower than the one that did. -/
def change? (r : Registry) (e : Expr) : Option Change :=
  match Target.of? e.value with
  | none => none
  | some target =>
    match r.answers[target] with
    | none => some ⟨target, none, e.answer⟩
    | some old => if e.rank < old.rank then some ⟨target, some old.rank, e.answer⟩ else none

/-- Makes a change. -/
def record (r : Registry) (c : Change) : Registry := ⟨r.answers.set c.target (some c.answer)⟩

/-- Offers an expression, and says what it has changed. -/
def offer (r : Registry) (e : Expr) : Registry × Option Change :=
  match r.change? e with
  | some change => (r.record change, some change)
  | none => (r, none)

/-- Takes in the answers of a registry that was filled later. -/
def merge (r later : Registry) : Registry :=
  ⟨Vector.zipWith Answer.better r.answers later.answers⟩

/-! ## Answers after each operation -/

@[simp] theorem get?_empty (n : Nat) : empty.get? n = none := by
  simp only [get?, empty, Vector.getElem?_replicate]
  split <;> rfl

/-- A change gives its target the new answer, and leaves all others as they are. -/
theorem get?_record (r : Registry) (c : Change) (n : Nat) :
    (r.record c).get? n = if n = c.target.val then some c.answer else r.get? n := by
  simp only [get?, record]
  by_cases h : n = c.target.val
  · subst h
    simp
  · simp [h, Ne.symm h]

/-- A merge keeps the better of the two answers to each number. -/
theorem get?_merge (r later : Registry) (n : Nat) :
    (r.merge later).get? n = Answer.better (r.get? n) (later.get? n) := by
  simp only [get?, merge, Vector.getElem?_zipWith]
  by_cases h : n < maxTarget + 1 <;> simp [h, Answer.better]

/-! ## Reading -/

/-- The targets with an answer, in ascending order. -/
def entries (r : Registry) : List (Target × Answer) :=
  (List.finRange (maxTarget + 1)).filterMap fun target =>
    r.answers[target].map fun answer => (target, answer)

/-- The number of targets with an answer. -/
def size (r : Registry) : Nat := r.entries.length

/-- The targets without an answer, in ascending order. -/
def missing (r : Registry) : List Target :=
  (List.finRange (maxTarget + 1)).filter fun target => r.answers[target].isNone

end Registry

end DigitReach

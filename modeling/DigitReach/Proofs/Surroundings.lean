import DigitReach.Proofs.Recipes

/-!
# What is around an expression

Where an expression stands in another, it is surrounded by *frames*: a square root, the one
side of an operator, and so on. The way from the place to the root is the list of the frames
around it, from the inside out.

* `Expr.within_iff`: the expressions that stand somewhere in another one are those that some
  frames make it of;
* `Expr.value_surrounded_congr`: what frames make of an expression has a value that depends on
  that of the expression only.
-/

namespace DigitReach.Expr

/-- What is directly around an expression in another one. -/
inductive Frame where
  /-- A square root. -/
  | sqrt
  /-- A factorial. -/
  | factorial
  /-- A concatenation, on its left side. -/
  | concatLeft (right : Expr)
  /-- A concatenation, on its right side. -/
  | concatRight (left : Expr)
  /-- An operator, on its left side. -/
  | left (operator : Operator) (right : Expr)
  /-- An operator, on its right side. -/
  | right (operator : Operator) (left : Expr)

/-- A frame with an expression in it. -/
def Frame.around : Frame → Expr → Expr
  | sqrt, e => .sqrt e
  | factorial, e => .factorial e
  | concatLeft r, l => .concat l r
  | concatRight l, r => .concat l r
  | left o r, l => .binary o l r
  | right o l, r => .binary o l r

/-- An expression with frames around it, the first of them directly. -/
def surrounded (e : Expr) (frames : List Frame) : Expr := frames.foldl (fun e f => f.around e) e

variable {p e e' : Expr}

@[simp] theorem surrounded_nil (e : Expr) : e.surrounded [] = e := rfl

@[simp] theorem surrounded_cons (e : Expr) (f : Frame) (frames : List Frame) :
    e.surrounded (f :: frames) = (f.around e).surrounded frames := rfl

theorem surrounded_append (e : Expr) (inner outer : List Frame) :
    e.surrounded (inner ++ outer) = (e.surrounded inner).surrounded outer := List.foldl_append

theorem Within.around (h : Within p e) (f : Frame) : Within p (f.around e) := by
  cases f with
  | sqrt => exact h.sqrt
  | factorial => exact h.factorial
  | concatLeft r => exact h.concatLeft r
  | concatRight l => exact h.concatRight l
  | left o r => exact h.left o r
  | right o l => exact h.right o l

/-- What stands somewhere in an expression is what some frames make the expression of. -/
theorem within_iff : Within p e ↔ ∃ frames, p.surrounded frames = e := by
  constructor
  · intro h
    have hgrow {e : Expr} (f : Frame) (h : ∃ frames, p.surrounded frames = e) :
        ∃ frames, p.surrounded frames = f.around e := by
      obtain ⟨frames, rfl⟩ := h
      exact ⟨frames ++ [f], surrounded_append p frames [f]⟩
    induction h with
    | here => exact ⟨[], rfl⟩
    | sqrt _ ih => exact hgrow .sqrt ih
    | factorial _ ih => exact hgrow .factorial ih
    | concatLeft r _ ih => exact hgrow (.concatLeft r) ih
    | concatRight l _ ih => exact hgrow (.concatRight l) ih
    | left o r _ ih => exact hgrow (.left o r) ih
    | right o l _ ih => exact hgrow (.right o l) ih
  · rintro ⟨frames, rfl⟩
    induction frames using List.reverseRecOn with
    | nil =>
      rw [surrounded_nil]
      exact .here
    | append_singleton frames f ih =>
      rw [surrounded_append]
      exact ih.around f

/-- The value of a frame with an expression in it depends on the value of the expression. -/
theorem value_around_congr (h : e.value = e'.value) (f : Frame) :
    (f.around e).value = (f.around e').value := by
  cases f <;> simp only [Frame.around, value, h]

theorem value_surrounded_congr (h : e.value = e'.value) (frames : List Frame) :
    (e.surrounded frames).value = (e'.surrounded frames).value := by
  induction frames generalizing e e' with
  | nil => exact h
  | cons f frames ih =>
    rw [surrounded_cons, surrounded_cons]
    exact ih (value_around_congr h f)

end DigitReach.Expr

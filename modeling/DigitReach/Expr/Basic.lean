/-!
# Expressions

An expression is built from constants by five binary operators, square roots,
factorials and the *concatenation* of digits, which reads two numerals side by
side as one: `2` and `5` make `25`. Constants and concatenations are the
*literals*; the factorial and the concatenation are meant for literals only
(see `Expr.factorial?` and `Expr.concat?`), but the type admits them over any
expression.

Two expressions are equal, for `==`, if they have the same shape and their
constants are equal as doubles: `0` equals `-0`, and a constant `NaN` makes an
expression unequal to itself.
-/

namespace DigitReach

/-- The binary operators that stand between two expressions. -/
inductive Operator where
  | add | subtract | multiply | divide | power
deriving DecidableEq, Repr

namespace Operator

/-- All operators, in the order in which they are tried. -/
def all : List Operator := [add, subtract, multiply, divide, power]

end Operator

/-- An arithmetic expression. -/
inductive Expr where
  /-- A constant. -/
  | constant (value : Float)
  /-- The numerals of the two values, read side by side as one. -/
  | concat (left right : Expr)
  /-- The square root. -/
  | sqrt (radicand : Expr)
  /-- The factorial. -/
  | factorial (argument : Expr)
  /-- A binary operator between two expressions. -/
  | binary (operator : Operator) (left right : Expr)

namespace Expr

/-- A literal is a constant or a concatenation. -/
def isLiteral : Expr → Bool
  | constant _ | concat _ _ => true
  | sqrt _ | factorial _ | binary _ _ _ => false

/-- The same shape, with constants that are equal as doubles. -/
def beq : Expr → Expr → Bool
  | constant x, constant y => x == y
  | concat l r, concat l' r' => l.beq l' && r.beq r'
  | sqrt e, sqrt e' => e.beq e'
  | factorial e, factorial e' => e.beq e'
  | binary o l r, binary o' l' r' => o == o' && l.beq l' && r.beq r'
  | _, _ => false

instance : BEq Expr := ⟨beq⟩

end Expr

end DigitReach

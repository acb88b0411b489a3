import DigitReach.Expr.Basic
import DigitReach.LazyList

/-!
# Recipes

A recipe says which expressions to try, and in which order, without listing them:
from an operand, the operand; from two recipes, every way to join an expression of
the one with an expression of the other; from a recipe, its expressions with those
that wrap them in one more operation.

* `Expr.wrappings` and `Expr.joins` are the steps: what becomes of one expression,
  and of two. Factorials and concatenations are made of literals only;
* `Recipe.expressions` is the sequence of a recipe. A recipe is no traversal: each
  call starts at the first expression. `toList_expressions_wrapped` and
  `toList_expressions_joined` say what is in it;
* `Recipe.leaf` and `Recipe.node` are the recipes of the search: they wrap whatever
  they make.
-/

namespace DigitReach

/-- The expression itself, its square root, and, for a literal, its factorial. -/
def Expr.wrappings (e : Expr) : List Expr :=
  [e, .sqrt e] ++ if e.isLiteral then [.factorial e] else []

/-- The two expressions under each operator and, for literals, their concatenation. -/
def Expr.joins (l r : Expr) : List Expr :=
  Operator.all.map (.binary · l r) ++ if l.isLiteral && r.isLiteral then [.concat l r] else []

/-- A sequence of expressions to try. -/
inductive Recipe where
  /-- A single constant. -/
  | operand (value : Float)
  /-- Every expression of a recipe, each followed by its wrappings. -/
  | wrapped (source : Recipe)
  /-- All joins of an expression on the left with one on the right. -/
  | joined (left right : Recipe)

namespace Recipe

/-- The expressions of a recipe. The left side of a join changes slowest. -/
def expressions : Recipe → LazyList Expr
  | operand x => .cons (.constant x) fun _ => .nil
  | wrapped s => s.expressions.flatMap fun e => .ofList e.wrappings
  | joined l r =>
    l.expressions.flatMap fun a => r.expressions.flatMap fun b => .ofList (a.joins b)

@[simp] theorem toList_expressions_operand (x : Float) :
    (operand x).expressions.toList = [.constant x] := rfl

@[simp] theorem toList_expressions_wrapped (s : Recipe) :
    (wrapped s).expressions.toList = s.expressions.toList.flatMap Expr.wrappings := by
  simp [expressions]

@[simp] theorem toList_expressions_joined (l r : Recipe) :
    (joined l r).expressions.toList =
      l.expressions.toList.flatMap fun a => r.expressions.toList.flatMap a.joins := by
  simp [expressions]

/-- An operand and its wrappings. -/
def leaf (x : Float) : Recipe := wrapped (operand x)

/-- The joins of two recipes and their wrappings. -/
def node (l r : Recipe) : Recipe := wrapped (joined l r)

end Recipe

end DigitReach

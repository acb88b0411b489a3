import DigitReach.Expr.Basic

/-!
# Ranks

The rank of an expression is that of its most exotic operation: none `0`,
arithmetic `1`, powers `2`, square roots `3`, factorials `4`, concatenation `5`.
An expression with many plain operations is preferred to one with a single
exotic one.
-/

namespace DigitReach

/-- The rank of an operator. -/
def Operator.rank : Operator → Nat
  | .add | .subtract | .multiply | .divide => 1
  | .power => 2

namespace Expr

/-- The rank of an expression. Below a concatenation nothing ranks higher, so it has
    the highest rank whatever it joins. -/
def rank : Expr → Nat
  | constant _ => 0
  | concat _ _ => 5
  | sqrt e => max e.rank 3
  | factorial e => max e.rank 4
  | binary o l r => max (max l.rank r.rank) o.rank

end Expr

end DigitReach

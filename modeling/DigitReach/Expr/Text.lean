import DigitReach.Expr.Value

/-!
# The text of an expression

An expression is written as a list of tokens, with as few parentheses as its
operators need: `*` and `/` bind tighter than `+` and `-`, the power binds tighter
still, and the factorial tightest; all of them group to the left. So the left side
of an operator stands bare where it binds as tight as the operator, and the right
side only where regrouping to the left keeps the meaning, as in `a + (b - c)`.

A literal is written as the text of its value, so a concatenation shows the numeral
that it makes. The text is the tokens' texts in a row.

The factorial and the concatenation have checked constructors, which refuse
anything but literals; the refusal quotes the text of what was given.
-/

namespace DigitReach

/-! ## Tokens -/

/-- The pieces of the text of an expression. -/
inductive Token where
  /-- A literal with this value. -/
  | number (value : Float)
  /-- The sign of a binary operator. -/
  | sign (operator : Operator)
  /-- The sign of the factorial, behind its argument. -/
  | bang
  /-- The square root, with the parenthesis that opens its radicand. -/
  | root
  /-- An opening parenthesis. -/
  | opening
  /-- A closing parenthesis. -/
  | closing

/-- The sign of an operator, with the blanks around it. -/
def Operator.text : Operator → String
  | .add => " + "
  | .subtract => " - "
  | .multiply => " * "
  | .divide => " / "
  | .power => "^"

/-- The text of a token. -/
def Token.text : Token → String
  | number x => decimal x
  | sign o => o.text
  | bang => "!"
  | root => "sqrt("
  | opening => "("
  | closing => ")"

/-! ## Parentheses -/

namespace Operator

/-- How loosely an operator binds its sides. -/
def looseness : Operator → Nat
  | power => 1
  | multiply | divide => 2
  | add | subtract => 3

/-- The looseness from which on the left side needs parentheses. -/
def leftLimit : Operator → Nat
  | add | subtract => 4
  | multiply | divide => 3
  | power => 2

/-- The looseness from which on the right side needs parentheses. -/
def rightLimit : Operator → Nat
  | add => 4
  | subtract => 3
  | multiply => 3
  | divide => 2
  | power => 1

end Operator

namespace Expr

/-- How loosely an expression holds together, `0` being the tightest. -/
def looseness : Expr → Nat
  | binary o _ _ => o.looseness
  | constant _ | concat _ _ | sqrt _ | factorial _ => 0

/-- The looseness from which on the argument of a factorial needs parentheses. -/
def factorialLimit : Nat := 1

end Expr

/-- Tokens in parentheses, if what they stand for is as loose as the limit. -/
def Token.enclose (looseness limit : Nat) (tokens : List Token) : List Token :=
  if limit ≤ looseness then opening :: tokens ++ [closing] else tokens

namespace Expr

/-- The tokens of an expression. -/
def tokens : Expr → List Token
  | constant x => [.number x]
  | e@(concat _ _) => [.number e.value]
  | sqrt e => .root :: e.tokens ++ [.closing]
  | factorial e => Token.enclose e.looseness factorialLimit e.tokens ++ [.bang]
  | binary o l r =>
    Token.enclose l.looseness o.leftLimit l.tokens ++
      .sign o :: Token.enclose r.looseness o.rightLimit r.tokens

end Expr

/-! ## The text -/

/-- Tokens in front of others, in parentheses, if what they stand for is as loose as the
    limit; `onto` puts them there without parentheses. -/
def Token.encloseOnto (looseness limit : Nat) (onto : List Token → List Token)
    (rest : List Token) : List Token :=
  if limit ≤ looseness then opening :: onto (closing :: rest) else onto rest

theorem Token.encloseOnto_eq {looseness limit : Nat} {onto : List Token → List Token}
    {tokens : List Token} (h : ∀ rest, onto rest = tokens ++ rest) (rest : List Token) :
    encloseOnto looseness limit onto rest = enclose looseness limit tokens ++ rest := by
  rw [encloseOnto, enclose]
  split <;> simp [h]

namespace Expr

/-- The tokens of an expression in front of others, each put there once. -/
def tokensOnto : Expr → List Token → List Token
  | constant x, rest => .number x :: rest
  | e@(concat _ _), rest => .number e.value :: rest
  | sqrt e, rest => .root :: e.tokensOnto (.closing :: rest)
  | factorial e, rest =>
    Token.encloseOnto e.looseness factorialLimit e.tokensOnto (.bang :: rest)
  | binary o l r, rest =>
    Token.encloseOnto l.looseness o.leftLimit l.tokensOnto
      (.sign o :: Token.encloseOnto r.looseness o.rightLimit r.tokensOnto rest)

theorem tokensOnto_eq (e : Expr) (rest : List Token) : e.tokensOnto rest = e.tokens ++ rest := by
  induction e generalizing rest with
  | constant | concat => rfl
  | sqrt e ih => simp [tokensOnto, tokens, ih]
  | factorial e ih => simp [tokensOnto, tokens, Token.encloseOnto_eq ih]
  | binary o l r ihl ihr =>
    simp [tokensOnto, tokens, Token.encloseOnto_eq ihl, Token.encloseOnto_eq ihr]

/-- The text of an expression. -/
def text (e : Expr) : String := String.join ((e.tokensOnto []).map Token.text)

/-- The text is that of the tokens. -/
theorem text_eq (e : Expr) : e.text = String.join (e.tokens.map Token.text) := by
  rw [text, tokensOnto_eq, List.append_nil]

/-! ## Checked constructors -/

/-- Why an expression is not built. -/
inductive Refusal where
  /-- A factorial of something that is no literal. -/
  | factorialOfCompound (argument : Expr)
  /-- A concatenation of two expressions that are not both literals. -/
  | concatOfCompound (left right : Expr)

/-- The wording of a refusal. -/
def Refusal.message : Refusal → String
  | factorialOfCompound e => s!"Factorial only applies to a constant, got '{e.text}'"
  | concatOfCompound l r =>
    s!"Concatenation only joins two constants, got '{l.text}' and '{r.text}'"

/-- The factorial of a literal. -/
def factorial? (e : Expr) : Except Refusal Expr :=
  if e.isLiteral then .ok (factorial e) else .error (.factorialOfCompound e)

/-- The concatenation of two literals. -/
def concat? (l r : Expr) : Except Refusal Expr :=
  if l.isLiteral && r.isLiteral then .ok (concat l r) else .error (.concatOfCompound l r)

end Expr

end DigitReach

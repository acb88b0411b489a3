import DigitReach.Expr.Text
import DigitReach.Proofs.Cursors
import DigitReach.Proofs.Grammar

/-!
# What recipes yield

A recipe may be any nest of operands, wrappings and joins. It is no traversal: each traversal
of it is a cursor of its own, and whatever the others do, it gives the expressions of the
recipe one after the other.

* `Recipe.filter_isLiteral_expressions`: of the expressions of a recipe exactly one is a
  literal, the concatenation of its operands (`Recipe.literal`). So for each recipe one
  wrapping is tried besides its expressions and their square roots, and for two recipes one
  join besides those by an operator: `Recipe.length_expressions_wrapped` and
  `Recipe.length_expressions_joined`;
* `Recipe.traversals_give`: what the traversals of a recipe give;
* `Recipe.permitted_of_within`: the steps of a recipe make factorials and concatenations
  without a check, but none that the checked constructors would refuse;
* `Recipe.checks_accept`: so every expression of a recipe can be made with these.
-/

namespace DigitReach

/-- One result for each item with a property. -/
theorem flatMap_ite_singleton {α β : Type} (p : α → Bool) (f : α → β) (as : List α) :
    (as.flatMap fun a => if p a then [f a] else []) = (as.filter p).map f := by
  induction as with
  | nil => rfl
  | cons a as ih =>
    rw [List.flatMap_cons, ih, List.filter_cons]
    split <;> rfl

/-- As many results for each item, and some more for those with a property. -/
theorem length_flatMap_eq_add {α β : Type} {f : α → List β} {p : α → Bool} {as : List α}
    {m n : Nat} (h : ∀ a ∈ as, (f a).length = m + if p a then n else 0) :
    (as.flatMap f).length = m * as.length + n * (as.filter p).length := by
  induction as with
  | nil => rfl
  | cons a as ih =>
    rw [List.forall_mem_cons] at h
    rw [List.flatMap_cons, List.length_append, h.1, ih h.2, List.length_cons, List.filter_cons]
    split
    · rw [List.length_cons]
      ring
    · ring

/-! ## The literal of a recipe -/

namespace Expr

theorem length_wrappings (e : Expr) :
    e.wrappings.length = 2 + if e.isLiteral then 1 else 0 := by
  rw [wrappings, List.length_append]
  split <;> rfl

/-- Of the wrappings of an expression only itself can be a literal. -/
theorem filter_isLiteral_wrappings (e : Expr) :
    e.wrappings.filter isLiteral = if e.isLiteral then [e] else [] := by
  rw [wrappings, List.filter_append, List.filter_cons]
  split <;> rfl

theorem length_joins (l r : Expr) :
    (l.joins r).length = 5 + if r.isLiteral then (if l.isLiteral then 1 else 0) else 0 := by
  rw [joins, List.length_append]
  cases l.isLiteral <;> cases r.isLiteral <;> rfl

/-- Of the joins of two expressions only their concatenation is a literal. -/
theorem filter_isLiteral_joins (l r : Expr) :
    (l.joins r).filter isLiteral =
      if l.isLiteral then (if r.isLiteral then [concat l r] else []) else [] := by
  rw [joins, List.filter_append]
  cases l.isLiteral <;> cases r.isLiteral <;> rfl

end Expr

namespace Recipe

open DigitReach.Expr

/-- The operands of a recipe, concatenated as it joins them. -/
def literal : Recipe → Expr
  | operand x => .constant x
  | wrapped s => s.literal
  | joined l r => .concat l.literal r.literal

/-- Of the expressions of a recipe exactly one is a literal. -/
theorem filter_isLiteral_expressions (r : Recipe) :
    r.expressions.toList.filter isLiteral = [r.literal] := by
  induction r with
  | operand x => rfl
  | wrapped s ih =>
    rw [toList_expressions_wrapped, List.filter_flatMap]
    simp only [filter_isLiteral_wrappings]
    rw [flatMap_ite_singleton, ih, List.map_singleton, literal]
  | joined l r ihl ihr =>
    have hright (a : Expr) : ((r.expressions.toList.flatMap a.joins).filter isLiteral) =
        if a.isLiteral then [concat a r.literal] else [] := by
      simp only [List.filter_flatMap, filter_isLiteral_joins]
      split
      · rw [flatMap_ite_singleton, ihr, List.map_singleton]
      · exact List.flatMap_eq_nil_iff.2 fun _ _ => rfl
    rw [toList_expressions_joined, List.filter_flatMap]
    simp only [hright]
    rw [flatMap_ite_singleton, ihl, List.map_singleton, literal]

/-- Each expression with its square root, and the literal with its factorial. -/
theorem length_expressions_wrapped (s : Recipe) :
    (wrapped s).expressions.toList.length = 2 * s.expressions.toList.length + 1 := by
  rw [toList_expressions_wrapped, length_flatMap_eq_add fun e _ => length_wrappings e,
    filter_isLiteral_expressions]
  rfl

/-- All pairs under each operator, and the concatenation of the two literals. -/
theorem length_expressions_joined (l r : Recipe) :
    (joined l r).expressions.toList.length =
      5 * l.expressions.toList.length * r.expressions.toList.length + 1 := by
  have hright : ∀ a ∈ l.expressions.toList, (r.expressions.toList.flatMap a.joins).length =
      5 * r.expressions.toList.length + if a.isLiteral then 1 else 0 := by
    intro a _
    rw [length_flatMap_eq_add fun b _ => length_joins a b, filter_isLiteral_expressions,
      List.length_singleton, mul_one]
  rw [toList_expressions_joined, length_flatMap_eq_add hright, filter_isLiteral_expressions,
    List.length_singleton]
  ring

/-! ## Traversals -/

/-- Each recipe has a list of expressions, made by recursion over the recipe. Whatever was done
    to any number of traversals of the recipe, the next call on one of them gives the
    expression in the list that is numbered by its calls, and none behind the end. The list has
    one expression for an operand; for the wrappings of a recipe, twice as many as the recipe
    and one more; and for the joins of two, five times as many as the pairs and one more.
    Exactly one of them is a literal, the concatenation of the operands. -/
theorem traversals_give : ∃ listing : Recipe → List Expr,
    ((∀ x, listing (operand x) = [.constant x]) ∧
      (∀ s, listing (wrapped s) = (listing s).flatMap wrappings) ∧
      ∀ l r, listing (joined l r) = (listing l).flatMap fun a => (listing r).flatMap a.joins) ∧
    (∀ (r : Recipe) (commands : List CursorCommand),
      (r.expressions.enumerator.run commands).map (fun c => c.next?.map Prod.fst) =
        (callsOf commands).map ((listing r)[·]?)) ∧
    ((∀ x, (listing (operand x)).length = 1) ∧
      (∀ s, (listing (wrapped s)).length = 2 * (listing s).length + 1) ∧
      ∀ l r, (listing (joined l r)).length =
        5 * (listing l).length * (listing r).length + 1) ∧
    ∀ r, (listing r).filter isLiteral = [r.literal] :=
  ⟨fun r => r.expressions.toList,
    ⟨toList_expressions_operand, toList_expressions_wrapped, toList_expressions_joined⟩,
    fun r => Enumerator.next?_run (r.expressions.gives_toList r.expressions),
    ⟨fun _ => rfl, length_expressions_wrapped, length_expressions_joined⟩,
    filter_isLiteral_expressions⟩

end Recipe

/-! ## Checked constructors -/

namespace Expr

/-- The expression stands somewhere in another: it is that one, or it stands in what that one
    is made of. -/
inductive Within (p : Expr) : Expr → Prop
  | here : Within p p
  | sqrt {e : Expr} : Within p e → Within p (.sqrt e)
  | factorial {e : Expr} : Within p e → Within p (.factorial e)
  | concatLeft {l : Expr} (r : Expr) : Within p l → Within p (.concat l r)
  | concatRight (l : Expr) {r : Expr} : Within p r → Within p (.concat l r)
  | left (o : Operator) {l : Expr} (r : Expr) : Within p l → Within p (.binary o l r)
  | right (o : Operator) (l : Expr) {r : Expr} : Within p r → Within p (.binary o l r)

/-- The last step that makes the expression is one that the checked constructors take: a
    factorial is of a literal, and a concatenation of two. -/
def Permitted : Expr → Prop
  | factorial a => a.isLiteral
  | concat l r => l.isLiteral ∧ r.isLiteral
  | constant _ | sqrt _ | binary _ _ _ => True

/-- The expression made anew, with the checked constructors. -/
def rebuilt? : Expr → Except Refusal Expr
  | constant x => return .constant x
  | concat l r => do concat? (← l.rebuilt?) (← r.rebuilt?)
  | sqrt e => return .sqrt (← e.rebuilt?)
  | factorial e => do factorial? (← e.rebuilt?)
  | binary o l r => return .binary o (← l.rebuilt?) (← r.rebuilt?)

variable {a b c e : Expr}

theorem Wraps.permitted {p : Expr} (h : Wraps c e) (hc : ∀ p, Within p c → p.Permitted)
    (hp : Within p e) : p.Permitted := by
  cases h with
  | bare => exact hc p hp
  | sqrt =>
    cases hp with
    | here => trivial
    | sqrt hp => exact hc p hp
  | factorial hliteral =>
    cases hp with
    | here => exact hliteral
    | factorial hp => exact hc p hp

theorem Joins.permitted {p : Expr} (h : Joins a b c) (ha : ∀ p, Within p a → p.Permitted)
    (hb : ∀ p, Within p b → p.Permitted) (hp : Within p c) : p.Permitted := by
  cases h with
  | binary o =>
    cases hp with
    | here => trivial
    | left _ _ hp => exact ha p hp
    | right _ _ hp => exact hb p hp
  | concat hal hbl =>
    cases hp with
    | here => exact ⟨hal, hbl⟩
    | concatLeft _ hp => exact ha p hp
    | concatRight _ hp => exact hb p hp

theorem factorial?_eq_ok_iff : factorial? e = .ok c ↔ e.isLiteral ∧ factorial e = c := by
  rw [factorial?]
  split <;> simp [*]

theorem concat?_eq_ok_iff : concat? a b = .ok c ↔ (a.isLiteral ∧ b.isLiteral) ∧ concat a b = c := by
  rw [concat?]
  split <;> simp_all

/-- What takes only steps that the checked constructors take, they make again. -/
theorem rebuilt?_eq (h : ∀ p, Within p e → p.Permitted) : e.rebuilt? = .ok e := by
  induction e with
  | constant x => rfl
  | concat l r ihl ihr =>
    rw [rebuilt?, ihl fun p hp => h p (.concatLeft r hp), ihr fun p hp => h p (.concatRight l hp)]
    exact concat?_eq_ok_iff.2 ⟨h _ .here, rfl⟩
  | sqrt e ih =>
    rw [rebuilt?, ih fun p hp => h p (.sqrt hp)]
    rfl
  | factorial e ih =>
    rw [rebuilt?, ih fun p hp => h p (.factorial hp)]
    exact factorial?_eq_ok_iff.2 ⟨h _ .here, rfl⟩
  | binary o l r ihl ihr =>
    rw [rebuilt?, ihl fun p hp => h p (.left o r hp), ihr fun p hp => h p (.right o l hp)]
    rfl

end Expr

namespace Recipe

open DigitReach.Expr

/-- The steps of a recipe are among those that the checked constructors take. -/
theorem permitted_of_within {r : Recipe} {e p : Expr} (he : e ∈ r.expressions.toList)
    (hp : Within p e) : p.Permitted := by
  induction r generalizing e p with
  | operand x =>
    rw [toList_expressions_operand, List.mem_singleton] at he
    subst he
    cases hp
    trivial
  | wrapped s ih =>
    rw [toList_expressions_wrapped, List.mem_flatMap] at he
    obtain ⟨c, hc, he⟩ := he
    exact (mem_wrappings.1 he).permitted (fun p hp => ih hc hp) hp
  | joined l r ihl ihr =>
    simp only [toList_expressions_joined, List.mem_flatMap] at he
    obtain ⟨a, ha, b, hb, he⟩ := he
    exact (mem_joins.1 he).permitted (fun p hp => ihl ha hp) (fun p hp => ihr hb hp) hp

/-- In every expression that a recipe yields, all factorials are of literals, and so are both
    sides of all concatenations; so the checked constructors make the expression again. And a
    step of a recipe makes the factorial of an expression, or the concatenation of two,
    exactly if the checked constructor does not refuse it. -/
theorem checks_accept :
    (∀ (r : Recipe), ∀ e ∈ r.expressions.toList,
      (∀ a, Within (.factorial a) e → a.isLiteral) ∧
      (∀ a b, Within (.concat a b) e → a.isLiteral ∧ b.isLiteral) ∧ e.rebuilt? = .ok e) ∧
    (∀ e : Expr, .factorial e ∈ e.wrappings ↔ ∃ c, factorial? e = .ok c) ∧
    ∀ l r : Expr, .concat l r ∈ l.joins r ↔ ∃ c, concat? l r = .ok c := by
  refine ⟨fun r e he => ⟨fun a ha => permitted_of_within he ha,
    fun a b hab => permitted_of_within he hab, rebuilt?_eq fun p hp => permitted_of_within he hp⟩,
    fun e => ?_, fun l r => ?_⟩
  · simp only [mem_wrappings, factorial?_eq_ok_iff, exists_and_left, exists_eq', and_true]
    constructor
    · rintro (_ | _ | h)
      exact h
    · exact .factorial
  · simp only [mem_joins, concat?_eq_ok_iff, exists_and_left, exists_eq', and_true]
    constructor
    · rintro (_ | ⟨hl, hr⟩)
      exact ⟨hl, hr⟩
    · rintro ⟨hl, hr⟩
      exact .concat hl hr

/-- The square root of `210!`, where `210` is joined of `2` and the join of `1` and `0`. -/
theorem checks_accept_nested :
    let digit (d : Nat) := operand (Float.ofNat d)
    let r := wrapped (wrapped (joined (digit 2) (joined (digit 1) (digit 0))))
    let c := Expr.concat (.constant (Float.ofNat 2))
      (.concat (.constant (Float.ofNat 1)) (.constant (Float.ofNat 0)))
    .sqrt (.factorial c) ∈ r.expressions.toList ∧
      rebuilt? (.sqrt (.factorial c)) = .ok (.sqrt (.factorial c)) := by
  intro digit r c
  have hmem : .sqrt (.factorial c) ∈ r.expressions.toList := by
    simp [r, c, digit, wrappings, joins, isLiteral]
  exact ⟨hmem, (checks_accept.1 r _ hmem).2.2⟩

end Recipe

end DigitReach

import DigitReach.Enumeration.Recipe
import DigitReach.Proofs.Bracketings

/-!
# The expressions over some operands

Which expressions use some operands, each once and in their order, is said by two rules
(`Expr.Uses`): an operand stands for itself, and expressions over the two parts of the
operands are joined by an operator, or, if both are literals, by concatenation; whatever
is made may be wrapped once, in a square root, or, if it is a literal, in a factorial.

Expressions over the same operands are tried in an order (`Expr.Before`): first by their
trees, from those that split off few operands at the root to those that split off many;
and within a tree first by what is on the left, then by what is on the right, then by the
join, and last by the wrapping.

* `mem_candidates`: the search of an ordering tries exactly the expressions that use its
  operands;
* `pairwise_candidates`: it tries them in that order;
* `Expr.Before.asymm`: no two expressions are before each other, so none is tried twice.
-/

namespace DigitReach

namespace Expr

/-! ## Rules -/

/-- `e` is `c`, its square root, or, if `c` is a literal, its factorial. -/
inductive Wraps (c : Expr) : Expr → Prop
  | bare : Wraps c c
  | sqrt : Wraps c (.sqrt c)
  | factorial : c.isLiteral → Wraps c (.factorial c)

/-- `c` joins `a` and `b`: by an operator, or, if both are literals, by concatenation. -/
inductive Joins (a b : Expr) : Expr → Prop
  | binary (o : Operator) : Joins a b (.binary o a b)
  | concat : a.isLiteral → b.isLiteral → Joins a b (.concat a b)

/-- `e` uses each of the operands once, in their order. -/
inductive Uses : List Float → Expr → Prop
  | operand {x : Float} {e : Expr} : Wraps (.constant x) e → Uses [x] e
  | join {xs ys : List Float} {a b c e : Expr} :
    Uses xs a → Uses ys b → Joins a b c → Wraps c e → Uses (xs ++ ys) e

theorem mem_wrappings {c e : Expr} : e ∈ c.wrappings ↔ Wraps c e := by
  rw [wrappings, List.mem_append, List.mem_cons, List.mem_singleton]
  constructor
  · rintro ((rfl | rfl) | h)
    · exact .bare
    · exact .sqrt
    · split at h
      · next hc => exact List.mem_singleton.1 h ▸ .factorial hc
      · exact absurd h List.not_mem_nil
  · rintro (_ | _ | hc)
    · exact .inl (.inl rfl)
    · exact .inl (.inr rfl)
    · exact .inr (by rw [if_pos hc]; exact List.mem_singleton_self _)

theorem mem_joins {a b c : Expr} : c ∈ a.joins b ↔ Joins a b c := by
  rw [joins, List.mem_append, List.mem_map]
  constructor
  · rintro (⟨o, -, rfl⟩ | h)
    · exact .binary o
    · split at h
      · next hab =>
        rw [Bool.and_eq_true] at hab
        exact List.mem_singleton.1 h ▸ .concat hab.1 hab.2
      · exact absurd h List.not_mem_nil
  · rintro (o | ⟨ha, hb⟩)
    · exact .inl ⟨o, by cases o <;> decide, rfl⟩
    · exact .inr (by rw [ha, hb]; exact List.mem_singleton_self _)

end Expr

namespace Recipe

open DigitReach.Expr

theorem mem_expressions_leaf {x : Float} {e : Expr} :
    e ∈ (leaf x).expressions.toList ↔ Wraps (.constant x) e := by
  simp [leaf, mem_wrappings]

theorem mem_expressions_node {l r : Recipe} {e : Expr} :
    e ∈ (node l r).expressions.toList ↔ ∃ a ∈ l.expressions.toList,
      ∃ b ∈ r.expressions.toList, ∃ c, Joins a b c ∧ Wraps c e := by
  simp only [node, toList_expressions_wrapped, toList_expressions_joined, List.mem_flatMap,
    mem_wrappings, mem_joins]
  constructor
  · rintro ⟨c, ⟨a, ha, b, hb, hc⟩, he⟩
    exact ⟨a, ha, b, hb, c, hc, he⟩
  · rintro ⟨a, ha, b, hb, c, hc, he⟩
    exact ⟨c, ⟨a, ha, b, hb, hc⟩, he⟩

end Recipe

/-! ## The order of trial -/

namespace Expr

/-- The tree of an expression. -/
def shape : Expr → Shape
  | constant _ => .leaf
  | sqrt e | factorial e => e.shape
  | concat l r | binary _ l r => .node l.shape r.shape

/-- The place of a join among those of the same two expressions. -/
def joinPlace : Expr → Nat
  | binary .add _ _ => 0
  | binary .subtract _ _ => 1
  | binary .multiply _ _ => 2
  | binary .divide _ _ => 3
  | binary .power _ _ => 4
  | concat _ _ => 5
  | constant _ | sqrt _ | factorial _ => 0

/-- The place of a wrapping among those of the same expression. -/
def wrapPlace : Expr → Nat
  | sqrt _ => 1
  | factorial _ => 2
  | constant _ | concat _ _ | binary _ _ _ => 0

/-- Of two expressions of one tree, the first one is tried earlier: what it joins on the
    left is tried earlier; or that is the same, and what it joins on the right is tried
    earlier; or that is the same too, and it joins both earlier; or it wraps the same
    expression earlier, which is not wrapped itself. -/
inductive Earlier : Expr → Expr → Prop
  | left {a a' b b' c c' e e' : Expr} : Earlier a a' →
    Joins a b c → Wraps c e → Joins a' b' c' → Wraps c' e' → Earlier e e'
  | right {a b b' c c' e e' : Expr} : Earlier b b' →
    Joins a b c → Wraps c e → Joins a b' c' → Wraps c' e' → Earlier e e'
  | join {a b c c' e e' : Expr} : c.joinPlace < c'.joinPlace →
    Joins a b c → Wraps c e → Joins a b c' → Wraps c' e' → Earlier e e'
  | wrap {c e e' : Expr} : e.wrapPlace < e'.wrapPlace →
    c.wrapPlace = 0 → Wraps c e → Wraps c e' → Earlier e e'

/-- Of two expressions over the same operands, the first one is tried before the second. -/
def Before (e e' : Expr) : Prop :=
  e.shape.Before e'.shape ∨ e.shape = e'.shape ∧ e.Earlier e'

/-- A wrapped join wraps no other join. -/
theorem Joins.eq_of_wraps {a a' b b' c c' e : Expr} (hc : Joins a b c) (he : Wraps c e)
    (hc' : Joins a' b' c') (he' : Wraps c' e) : c = c' := by
  cases hc <;> cases he <;> cases hc' <;> cases he' <;> rfl

/-- A join joins no others. -/
theorem Joins.inj {a a' b b' c : Expr} (h : Joins a b c) (h' : Joins a' b' c) :
    a = a' ∧ b = b' := by
  cases h <;> cases h' <;> exact ⟨rfl, rfl⟩

theorem Earlier.irrefl {e e' : Expr} (h : e.Earlier e') : e ≠ e' := by
  induction h with
  | left _ hc he hc' he' ih =>
    rintro rfl
    obtain rfl := hc.eq_of_wraps he hc' he'
    exact ih (hc.inj hc').1
  | right _ hc he hc' he' ih =>
    rintro rfl
    obtain rfl := hc.eq_of_wraps he hc' he'
    exact ih (hc.inj hc').2
  | join hlt hc he hc' he' =>
    rintro rfl
    obtain rfl := hc.eq_of_wraps he hc' he'
    exact Nat.lt_irrefl _ hlt
  | wrap hlt =>
    rintro rfl
    exact Nat.lt_irrefl _ hlt

theorem Joins.wrapPlace_eq {a b c : Expr} (h : Joins a b c) : c.wrapPlace = 0 := by
  cases h <;> rfl

/-- An expression wraps at most one that is not wrapped. -/
theorem Wraps.unique {c d e : Expr} (h : Wraps c e) (h' : Wraps d e) (hc : c.wrapPlace = 0)
    (hd : d.wrapPlace = 0) : c = d := by
  cases h <;> cases h' <;>
    first | rfl | exact absurd hc (Nat.succ_ne_zero _) | exact absurd hd (Nat.succ_ne_zero _)

/-- Of two joins, the order is that of their left sides, or else of their right sides, or
    else of their places, or else of their wrappings. -/
theorem Earlier.of_joins {a a' b b' c c' e e' : Expr} (h : Earlier e e')
    (hc : Joins a b c) (he : Wraps c e) (hc' : Joins a' b' c') (he' : Wraps c' e') :
    Earlier a a' ∨ a = a' ∧ (Earlier b b' ∨
      b = b' ∧ (c.joinPlace < c'.joinPlace ∨ c = c' ∧ e.wrapPlace < e'.wrapPlace)) := by
  cases h with
  | left hlt hd hf hd' hf' =>
    obtain rfl := hd.eq_of_wraps hf hc he
    obtain rfl := hd'.eq_of_wraps hf' hc' he'
    rw [(hc.inj hd).1, (hc'.inj hd').1]
    exact .inl hlt
  | right hlt hd hf hd' hf' =>
    obtain rfl := hd.eq_of_wraps hf hc he
    obtain rfl := hd'.eq_of_wraps hf' hc' he'
    rw [(hc.inj hd).2, (hc'.inj hd').2]
    exact .inr ⟨(hc.inj hd).1.trans (hc'.inj hd').1.symm, .inl hlt⟩
  | join hlt hd hf hd' hf' =>
    obtain rfl := hd.eq_of_wraps hf hc he
    obtain rfl := hd'.eq_of_wraps hf' hc' he'
    exact .inr ⟨(hc.inj hd).1.trans (hc'.inj hd').1.symm,
      .inr ⟨(hc.inj hd).2.trans (hc'.inj hd').2.symm, .inl hlt⟩⟩
  | wrap hlt hd hf hf' =>
    obtain rfl := hf.unique he hd hc.wrapPlace_eq
    obtain rfl := hf'.unique he' hd hc'.wrapPlace_eq
    exact .inr ⟨(hc.inj hc').1, .inr ⟨(hc.inj hc').2, .inr ⟨rfl, hlt⟩⟩⟩

/-- The wrappings of one expression are tried in the order of their places. -/
theorem Earlier.wrapPlace_lt {c e e' : Expr} (h : Earlier e e') (hc : c.wrapPlace = 0)
    (he : Wraps c e) (he' : Wraps c e') : e.wrapPlace < e'.wrapPlace := by
  cases h with
  | left hlt hd hf hd' hf' =>
    obtain rfl := he.unique hf hc hd.wrapPlace_eq
    obtain rfl := he'.unique hf' hc hd'.wrapPlace_eq
    exact absurd (hd.inj hd').1 hlt.irrefl
  | right hlt hd hf hd' hf' =>
    obtain rfl := he.unique hf hc hd.wrapPlace_eq
    obtain rfl := he'.unique hf' hc hd'.wrapPlace_eq
    exact absurd (hd.inj hd').2 hlt.irrefl
  | join hlt hd hf hd' hf' =>
    obtain rfl := he.unique hf hc hd.wrapPlace_eq
    obtain rfl := he'.unique hf' hc hd'.wrapPlace_eq
    exact absurd hlt (Nat.lt_irrefl _)
  | wrap hlt => exact hlt

theorem Earlier.asymm {e e' : Expr} (h : e.Earlier e') : ¬ e'.Earlier e := by
  intro h'
  -- Where the first pair differs, the second one does, and there it is the other way round.
  induction h with
  | left hlt hc he hc' he' ih =>
    rcases h'.of_joins hc' he' hc he with ha | ⟨rfl, -⟩
    · exact ih ha
    · exact hlt.irrefl rfl
  | right hlt hc he hc' he' ih =>
    rcases h'.of_joins hc' he' hc he with ha | ⟨-, hb | ⟨rfl, -⟩⟩
    · exact ha.irrefl rfl
    · exact ih hb
    · exact hlt.irrefl rfl
  | join hlt hc he hc' he' =>
    rcases h'.of_joins hc' he' hc he with ha | ⟨-, hb | ⟨-, hgt | ⟨rfl, -⟩⟩⟩
    · exact ha.irrefl rfl
    · exact hb.irrefl rfl
    · exact Nat.lt_asymm hlt hgt
    · exact Nat.lt_irrefl _ hlt
  | wrap hlt hc he he' => exact Nat.lt_asymm hlt (h'.wrapPlace_lt hc he' he)

theorem Wraps.shape_eq {c e : Expr} (h : Wraps c e) : e.shape = c.shape := by
  cases h <;> rfl

theorem Joins.shape_eq {a b c : Expr} (h : Joins a b c) : c.shape = .node a.shape b.shape := by
  cases h <;> rfl

/-- Of two expressions, only one is tried before the other. -/
theorem Before.asymm {e e' : Expr} (h : e.Before e') : ¬ e'.Before e := by
  rintro (hshape' | ⟨heq', hearlier'⟩)
  · rcases h with hshape | ⟨heq, -⟩
    · exact hshape.asymm hshape'
    · rw [heq] at hshape'
      exact hshape'.irrefl
  · rcases h with hshape | ⟨-, hearlier⟩
    · rw [heq'] at hshape
      exact hshape.irrefl
    · exact hearlier.asymm hearlier'

/-- The wrappings of an expression that is not wrapped are tried in their order. -/
theorem pairwise_wrappings {c : Expr} (h : c.wrapPlace = 0) : c.wrappings.Pairwise Earlier := by
  have hplaces : c.wrappings.Pairwise fun e e' => e.wrapPlace < e'.wrapPlace := by
    have hsqrt : (sqrt c).wrapPlace = 1 := rfl
    have hfactorial : (factorial c).wrapPlace = 2 := rfl
    rw [wrappings]
    split <;> simp [h, hsqrt, hfactorial]
  exact hplaces.imp_of_mem fun he he' hlt => .wrap hlt h (mem_wrappings.1 he) (mem_wrappings.1 he')

theorem pairwise_joins (a b : Expr) :
    (a.joins b).Pairwise fun c c' => c.joinPlace < c'.joinPlace := by
  rw [joins, Operator.all]
  split <;> simp [joinPlace]

end Expr

namespace Recipe

open DigitReach.Expr

/-- The tree of the expressions of a recipe. -/
def shape : Recipe → Shape
  | operand _ => .leaf
  | wrapped s => s.shape
  | joined l r => .node l.shape r.shape

theorem shape_of_mem {r : Recipe} {e : Expr} (h : e ∈ r.expressions.toList) :
    e.shape = r.shape := by
  induction r generalizing e with
  | operand x =>
    rw [toList_expressions_operand, List.mem_singleton] at h
    rw [h]
    rfl
  | wrapped s ih =>
    rw [toList_expressions_wrapped, List.mem_flatMap] at h
    obtain ⟨c, hc, he⟩ := h
    exact (mem_wrappings.1 he).shape_eq.trans (ih hc)
  | joined l r ihl ihr =>
    simp only [toList_expressions_joined, List.mem_flatMap] at h
    obtain ⟨a, ha, b, hb, hc⟩ := h
    rw [(mem_joins.1 hc).shape_eq, ihl ha, ihr hb, shape]

theorem pairwise_expressions_leaf (x : Float) : (leaf x).expressions.toList.Pairwise Earlier := by
  rw [leaf, toList_expressions_wrapped, toList_expressions_operand, List.flatMap_singleton]
  exact pairwise_wrappings rfl

/-- The expressions of a node are in the order of trial, if those of its parts are. -/
theorem pairwise_expressions_node {l r : Recipe} (hl : l.expressions.toList.Pairwise Earlier)
    (hr : r.expressions.toList.Pairwise Earlier) :
    (node l r).expressions.toList.Pairwise Earlier := by
  rw [node, toList_expressions_wrapped, toList_expressions_joined, List.pairwise_flatMap]
  refine ⟨fun c hc => ?_, List.pairwise_flatMap.2 ⟨fun a _ => List.pairwise_flatMap.2
    ⟨fun b _ => ?_, hr.imp ?_⟩, hl.imp ?_⟩⟩
  · -- One join, wrapped in several ways.
    simp only [List.mem_flatMap, mem_joins] at hc
    obtain ⟨a, -, b, -, hc⟩ := hc
    exact pairwise_wrappings hc.wrapPlace_eq
  · -- The same two expressions, joined in several ways.
    refine (pairwise_joins a b).imp_of_mem fun hc hc' hlt e he e' he' => ?_
    exact .join hlt (mem_joins.1 hc) (mem_wrappings.1 he) (mem_joins.1 hc') (mem_wrappings.1 he')
  · -- Different expressions on the right.
    intro b b' hb c hc c' hc' e he e' he'
    exact .right hb (mem_joins.1 hc) (mem_wrappings.1 he) (mem_joins.1 hc') (mem_wrappings.1 he')
  · -- Different expressions on the left.
    intro a a' ha c hc c' hc' e he e' he'
    obtain ⟨b, -, hc⟩ := List.mem_flatMap.1 hc
    obtain ⟨b', -, hc'⟩ := List.mem_flatMap.1 hc'
    exact .left ha (mem_joins.1 hc) (mem_wrappings.1 he) (mem_joins.1 hc') (mem_wrappings.1 he')

end Recipe

/-! ## What a search tries -/

/-- The expressions that the search of an ordering tries. -/
def candidates (ordering : List Recipe) : List Expr :=
  (bracketings Recipe.node ordering).toList.flatMap fun tree => tree.expressions.toList

theorem mem_candidates_iff {ordering : List Recipe} {e : Expr} :
    e ∈ candidates ordering ↔
      ∃ tree, Bracketed Recipe.node ordering tree ∧ e ∈ tree.expressions.toList := by
  simp only [candidates, List.mem_flatMap, mem_bracketings]

/-- The search of an ordering tries exactly the expressions that use its operands. -/
theorem mem_candidates {xs : List Float} {e : Expr} :
    e ∈ candidates (xs.map .leaf) ↔ e.Uses xs := by
  rw [mem_candidates_iff]
  constructor
  · rintro ⟨tree, htree, he⟩
    -- By the rules of the bracketing; the ordering must not be lost from them.
    generalize hordering : xs.map Recipe.leaf = ordering at htree
    induction htree generalizing xs e with
    | single a =>
      obtain ⟨x, rfl, rfl⟩ := List.map_eq_singleton_iff.1 hordering
      exact .operand (Recipe.mem_expressions_leaf.1 he)
    | combined _ _ ihl ihr =>
      obtain ⟨xs, ys, rfl, rfl, rfl⟩ := List.map_eq_append_iff.1 hordering
      obtain ⟨a, ha, b, hb, c, hc, he⟩ := Recipe.mem_expressions_node.1 he
      exact .join (ihl ha rfl) (ihr hb rfl) hc he
  · intro h
    induction h with
    | operand h => exact ⟨_, .single _, Recipe.mem_expressions_leaf.2 h⟩
    | join _ _ hc he iha ihb =>
      obtain ⟨l, hl, ha⟩ := iha
      obtain ⟨r, hr, hb⟩ := ihb
      rw [List.map_append]
      exact ⟨_, .combined hl hr, Recipe.mem_expressions_node.2 ⟨_, ha, _, hb, _, hc, he⟩⟩

/-- The expressions of each tree of an ordering are in the order of trial. -/
theorem pairwise_expressions_of_bracketed {xs : List Float} {tree : Recipe}
    (h : Bracketed Recipe.node (xs.map .leaf) tree) :
    tree.expressions.toList.Pairwise Expr.Earlier := by
  generalize hordering : xs.map Recipe.leaf = ordering at h
  induction h generalizing xs with
  | single r =>
    obtain ⟨x, rfl, rfl⟩ := List.map_eq_singleton_iff.1 hordering
    exact Recipe.pairwise_expressions_leaf x
  | combined _ _ ihl ihr =>
    obtain ⟨xs, ys, rfl, rfl, rfl⟩ := List.map_eq_append_iff.1 hordering
    exact Recipe.pairwise_expressions_node (ihl rfl) (ihr rfl)

/-- The search of an ordering tries its expressions in the order of trial. -/
theorem pairwise_candidates (xs : List Float) :
    (candidates (xs.map .leaf)).Pairwise Expr.Before := by
  have hleaf : ∀ r ∈ xs.map Recipe.leaf, r.shape = .leaf := by
    rintro r hr
    obtain ⟨x, -, rfl⟩ := List.mem_map.1 hr
    rfl
  refine List.pairwise_flatMap.2
    ⟨fun tree htree => ?_, (pairwise_bracketings (fun _ _ => rfl) hleaf).imp ?_⟩
  · refine (pairwise_expressions_of_bracketed (mem_bracketings.1 htree)).imp_of_mem ?_
    intro e e' he he' hearlier
    exact .inr ⟨(Recipe.shape_of_mem he).trans (Recipe.shape_of_mem he').symm, hearlier⟩
  · intro s t hst e he e' he'
    rw [← Recipe.shape_of_mem he, ← Recipe.shape_of_mem he'] at hst
    exact .inl hst

end DigitReach

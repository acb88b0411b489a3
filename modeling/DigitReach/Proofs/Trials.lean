import DigitReach.Proofs.Digits
import DigitReach.Proofs.Search

/-!
# How often an expression is tried

Which expressions use some operands is said in `Proofs.Grammar` by the rules they are made
by. It can also be said by looking at them: the operands stand in the expression in their
order (`Expr.operands`), and everywhere in it a square root is of something that is not
wrapped, a factorial of a literal, and a concatenation of two literals (`Expr.Tidy`).

* `uses_iff`: both say the same;
* `nodup_candidates`: the search of an ordering tries no expression twice;
* `countP_allCandidates`: the search of all orderings tries each expression as often as
  equal operands can be exchanged;
* `evaluates_each_exactly`: so often a search evaluates each expression, whether it goes
  through the orderings in turn or apart, and it evaluates no other.
-/

namespace DigitReach

namespace Expr

/-! ## The expressions over some operands -/

/-- The operands of an expression, from left to right. -/
def operands : Expr → List Float
  | constant x => [x]
  | sqrt e | factorial e => e.operands
  | concat l r | binary _ l r => l.operands ++ r.operands

/-- Everywhere in the expression, what is under a square root is not wrapped, and what is
    under a factorial or a concatenation is a literal. -/
def Tidy : Expr → Prop
  | constant _ => True
  | concat l r => (l.isLiteral ∧ r.isLiteral) ∧ l.Tidy ∧ r.Tidy
  | sqrt e => e.wrapPlace = 0 ∧ e.Tidy
  | factorial e => e.isLiteral ∧ e.Tidy
  | binary _ l r => l.Tidy ∧ r.Tidy

instance decidableTidy : (e : Expr) → Decidable e.Tidy
  | constant _ => inferInstanceAs (Decidable True)
  | concat l r =>
    have := decidableTidy l
    have := decidableTidy r
    inferInstanceAs (Decidable ((l.isLiteral ∧ r.isLiteral) ∧ l.Tidy ∧ r.Tidy))
  | sqrt e =>
    have := decidableTidy e
    inferInstanceAs (Decidable (e.wrapPlace = 0 ∧ e.Tidy))
  | factorial e =>
    have := decidableTidy e
    inferInstanceAs (Decidable (e.isLiteral ∧ e.Tidy))
  | binary _ l r =>
    have := decidableTidy l
    have := decidableTidy r
    inferInstanceAs (Decidable (l.Tidy ∧ r.Tidy))

variable {xs ys : List Float} {a b c e : Expr}

/-- A literal is not wrapped. -/
theorem wrapPlace_of_isLiteral (h : c.isLiteral) : c.wrapPlace = 0 := by
  cases c with
  | constant _ | concat _ _ | binary _ _ _ => rfl
  | sqrt _ | factorial _ => exact absurd h Bool.false_ne_true

theorem Wraps.operands_eq (h : Wraps c e) : e.operands = c.operands := by
  cases h <;> rfl

theorem Joins.operands_eq (h : Joins a b c) : c.operands = a.operands ++ b.operands := by
  cases h <;> rfl

theorem Wraps.tidy (h : Wraps c e) (hc : c.Tidy) (hplace : c.wrapPlace = 0) : e.Tidy := by
  cases h with
  | bare => exact hc
  | sqrt => exact ⟨hplace, hc⟩
  | factorial hliteral => exact ⟨hliteral, hc⟩

theorem Joins.tidy (h : Joins a b c) (ha : a.Tidy) (hb : b.Tidy) : c.Tidy := by
  cases h with
  | binary o => exact ⟨ha, hb⟩
  | concat hal hbl => exact ⟨⟨hal, hbl⟩, ha, hb⟩

/-- What is not wrapped yet may be wrapped. -/
theorem Uses.wrap (h : c.Uses xs) (hc : c.wrapPlace = 0) (he : Wraps c e) : e.Uses xs := by
  cases h with
  | operand h =>
    obtain rfl := h.unique .bare rfl hc
    exact .operand he
  | join ha hb hjoin h =>
    obtain rfl := h.unique .bare hjoin.wrapPlace_eq hc
    exact .join ha hb hjoin he

/-- An expression uses some operands exactly if they stand in it in their order, and it is
    tidy. -/
theorem uses_iff : e.Uses xs ↔ e.operands = xs ∧ e.Tidy := by
  constructor
  · intro h
    induction h with
    | operand h => exact ⟨h.operands_eq, h.tidy trivial rfl⟩
    | join _ _ hjoin hwrap iha ihb =>
      obtain ⟨rfl, ha⟩ := iha
      obtain ⟨rfl, hb⟩ := ihb
      exact ⟨hwrap.operands_eq.trans hjoin.operands_eq,
        hwrap.tidy (hjoin.tidy ha hb) hjoin.wrapPlace_eq⟩
  · rintro ⟨rfl, h⟩
    induction e with
    | constant x => exact .operand .bare
    | concat l r ihl ihr => exact .join (ihl h.2.1) (ihr h.2.2) (.concat h.1.1 h.1.2) .bare
    | sqrt e ih => exact (ih h.2).wrap h.1 .sqrt
    | factorial e ih => exact (ih h.2).wrap (wrapPlace_of_isLiteral h.1) (.factorial h.1)
    | binary o l r ihl ihr => exact .join (ihl h.1) (ihr h.2) (.binary o) .bare

end Expr

deriving instance DecidableEq for Expr

/-! ## How often -/

/-- The search of an ordering tries no expression twice. -/
theorem nodup_candidates (xs : List Float) : (candidates (xs.map .leaf)).Nodup := by
  refine (pairwise_candidates xs).imp fun hbefore heq => ?_
  subst heq
  exact hbefore.asymm hbefore

section

variable {xs : List Float} {e : Expr}

/-- The search of an ordering tries an expression that uses its operands once. -/
theorem countP_candidates (h : e.Uses xs) : (candidates (xs.map .leaf)).countP (· = e) = 1 := by
  have hcount := @List.count_eq_one_of_mem Expr instBEqOfDecidableEq _ e _ (nodup_candidates xs)
    (mem_candidates.2 h)
  exact hcount

/-- The search of an ordering tries no expression that does not use its operands. -/
theorem countP_candidates_eq_zero (h : ¬ e.Uses xs) :
    (candidates (xs.map .leaf)).countP (· = e) = 0 := by
  rw [List.countP_eq_zero]
  rintro e' he'
  rw [decide_eq_true_eq]
  rintro rfl
  exact h (mem_candidates.1 he')

end

variable {operands : List Nat} {e : Expr}

/-- An expression that uses the operands in some order is tried in that order only. But the
    order is gone through as often as equal operands can be exchanged. -/
theorem countP_allCandidates (hdigit : ∀ operand ∈ operands, operand ≤ maxOperand) {ds : List Nat}
    (hperm : ds.Perm operands) (huses : e.Uses (ds.map Float.ofNat)) :
    (allCandidates (orderingsOf operands)).countP (· = e) = exchanges operands := by
  have hblock : ∀ ds' ∈ rearrangements operands,
      (candidates ((ds'.map Float.ofNat).map .leaf)).countP (· = e) =
        if decide (ds' = ds) then 1 else 0 := by
    intro ds' hds'
    by_cases heq : ds' = ds
    · rw [heq, countP_candidates huses, if_pos (by simp)]
    · rw [countP_candidates_eq_zero, if_neg (by simpa using heq)]
      -- The operands stand in the expression in one order only.
      intro huses'
      refine heq (map_ofNat_inj (fun d hd => ?_) (fun d hd => ?_)
        ((Expr.uses_iff.1 huses').1.symm.trans (Expr.uses_iff.1 huses).1))
      · exact hdigit d ((mem_rearrangements.1 hds').mem_iff.1 hd)
      · exact hdigit d (hperm.mem_iff.1 hd)
  rw [allCandidates, orderingsOf_eq, List.flatMap_map, countP_flatMap_eq_mul hblock, Nat.mul_one,
    countP_rearrangements hperm]

/-- The search of all orderings tries no expression that does not use the operands. -/
theorem countP_allCandidates_eq_zero
    (h : ¬ ∃ ds : List Nat, ds.Perm operands ∧ e.Uses (ds.map Float.ofNat)) :
    (allCandidates (orderingsOf operands)).countP (· = e) = 0 := by
  rw [List.countP_eq_zero]
  rintro e' he'
  rw [decide_eq_true_eq]
  rintro rfl
  exact h (mem_allCandidates.1 he')

/-- An expression uses the operands in some order exactly if they stand in it in some order,
    and it is tidy. -/
theorem exists_uses_iff : (∃ ds : List Nat, ds.Perm operands ∧ e.Uses (ds.map Float.ofNat)) ↔
    e.operands.Perm (operands.map Float.ofNat) ∧ e.Tidy := by
  rw [← mem_rearrangements, rearrangements_map, List.mem_map]
  simp only [Expr.uses_iff, mem_rearrangements]
  constructor
  · rintro ⟨ds, hperm, heq, htidy⟩
    exact ⟨⟨ds, hperm, heq.symm⟩, htidy⟩
  · rintro ⟨⟨ds, hperm, heq⟩, htidy⟩
    exact ⟨ds, hperm, heq.symm, htidy⟩

/-- Of operands that are digits, at least one, every tidy expression in which they stand in
    some order is evaluated, by a search in turn as by one apart, as often as equal operands
    can be exchanged, and no other expression is. -/
theorem evaluates_each_exactly (hne : operands ≠ [])
    (hdigit : ∀ operand ∈ operands, operand ≤ maxOperand) :
    -- Over an ordering, each of its expressions is tried once.
    (∀ xs : List Float, xs ≠ [] →
      ∃ trees, bracketings? Recipe.node (xs.map .leaf) = .ok trees ∧
        let tried := trees.toList.flatMap fun tree => tree.expressions.toList
        tried.Nodup ∧ ∀ e, e ∈ tried ↔ e.operands = xs ∧ e.Tidy) ∧
    -- What is tried over all orderings is what a search evaluates.
    let leaves := operands.map fun operand => Recipe.leaf (Float.ofNat operand)
    let tried := (rearrangements leaves).map candidates
    let inTurn := Findings.of .empty tried.flatten
    let apart := merged (tried.map (.of .empty))
    Yields (searchAll .inTurn leaves) (.ok (inTurn.registry, inTurn.stats)) ∧
    Yields (searchAll .apart leaves) (.ok apart) ∧
    inTurn.stats.evaluated = tried.flatten.length ∧ apart.2.evaluated = tried.flatten.length ∧
    ∀ e : Expr,
      (e.operands.Perm (operands.map Float.ofNat) ∧ e.Tidy →
        tried.flatten.countP (· = e) = ∏ d ∈ operands.toFinset, (operands.count d).factorial) ∧
      (¬ (e.operands.Perm (operands.map Float.ofNat) ∧ e.Tidy) →
        tried.flatten.countP (· = e) = 0) := by
  refine ⟨fun xs hxs => ⟨bracketings Recipe.node (xs.map .leaf), ?_, nodup_candidates xs,
    fun e => ?_⟩, ?_⟩
  · rw [bracketings?, if_neg (by simpa using hxs)]
  · rw [← Expr.uses_iff, ← mem_candidates]
    rfl
  intro leaves tried inTurn apart
  have hflatten : tried.flatten = allCandidates (orderingsOf operands) :=
    (List.flatMap_def ..).symm
  have hapart : apart = searchedAll operands .apart :=
    congrArg merged List.map_map
  have hinTurn : (inTurn.registry, inTurn.stats) = searchedAll operands .inTurn := by
    rw [searchedAll, ← hflatten]
  refine ⟨?_, ?_, Findings.evaluated_of _ _, ?_, fun e => ?_⟩
  · rw [hinTurn]
    exact yields_searchAll .inTurn hne
  · rw [hapart]
    exact yields_searchAll .apart hne
  · rw [hapart, hflatten]
    exact evaluated_searchedAll operands .apart
  · rw [hflatten, ← exists_uses_iff]
    refine ⟨?_, countP_allCandidates_eq_zero⟩
    rintro ⟨ds, hperm, huses⟩
    exact countP_allCandidates hdigit hperm huses

/-- Where one operand is given twice, the search evaluates `3 + sqrt(2) * 2!` twice. -/
theorem evaluates_each_exactly_twice : [2, 3, 2] ≠ [] ∧
    (∀ operand ∈ [2, 3, 2], operand ≤ maxOperand) ∧
    let leaves := [2, 3, 2].map fun operand => Recipe.leaf (Float.ofNat operand)
    let two := Expr.constant (Float.ofNat 2)
    ((rearrangements leaves).map candidates).flatten.countP
      (· = .binary .add (.constant (Float.ofNat 3)) (.binary .multiply two.sqrt two.factorial)) =
        2 := by
  refine ⟨by decide, by decide, ?_⟩
  have hcount := (@evaluates_each_exactly [2, 3, 2] (by decide) (by decide)).2.2.2.2.2
  have horder : [Float.ofNat 3, Float.ofNat 2, Float.ofNat 2].Perm
      ([2, 3, 2].map Float.ofNat) := .swap ..
  refine ((hcount _).1 ?_).trans ?_
  · exact ⟨horder, by decide⟩
  · decide

end DigitReach

import DigitReach.Proofs.Optimality

/-!
# The order of the operands

A synthesis puts the operands in every order, so the order in which they are given should
not matter. It does, to the texts: of two expressions of equal rank, the answer is the one
that is met first. It does not to which numbers are reached, nor at which rank:

* the rank of the best answer of some expressions depends on which expressions there are,
  and neither on their order nor on how often they occur (`rank_bestAnswer?_congr`);
* which targets a registry lists, and which it misses, is known by the ranks of its answers
  (`Registry.ranks_congr`, `Registry.missing_congr`);
* `synthesize_perm`: so two syntheses of the same operands in different orders reach the
  same numbers at the same ranks.
-/

namespace DigitReach

/-! ## The rank of the best answer -/

section

variable {n : Nat} {es es' : List Expr}

/-- The rank of the best answer is the least rank of the expressions that reach the number. -/
theorem rank_bestAnswer?_eq_some_iff {k : Nat} : (bestAnswer? n es).map Answer.rank = some k ↔
    (∃ e ∈ es, e.Reaches n ∧ e.rank = k) ∧ ∀ e ∈ es, e.Reaches n → k ≤ e.rank := by
  rw [Option.map_eq_some_iff]
  constructor
  · rintro ⟨answer, hanswer, rfl⟩
    obtain ⟨best, hbest, rfl⟩ := bestAnswer?_eq_some_iff.1 hanswer
    exact ⟨⟨best, hbest.mem, hbest.reaches, rfl⟩, fun x => hbest.rank_le⟩
  · rintro ⟨⟨e, he, hreaches, rfl⟩, hleast⟩
    obtain ⟨best, hbest⟩ := exists_isFirstBest ⟨e, he, hreaches⟩
    exact ⟨best.answer, hbest.bestAnswer?,
      (hbest.rank_le he hreaches).antisymm (hleast best hbest.mem hbest.reaches)⟩

/-- The rank of the best answer depends on nothing but which expressions there are. -/
theorem rank_bestAnswer?_congr (h : ∀ e, e ∈ es ↔ e ∈ es') (n : Nat) :
    (bestAnswer? n es).map Answer.rank = (bestAnswer? n es').map Answer.rank := by
  refine Option.ext fun k => ?_
  rw [rank_bestAnswer?_eq_some_iff, rank_bestAnswer?_eq_some_iff]
  simp only [h]

end

/-! ## What the ranks of a registry tell of it -/

namespace Registry

variable {r s : Registry}

/-- The rank of the answer to a number, if there is one. -/
def rank? (r : Registry) (n : Nat) : Option Nat := (r.get? n).map Answer.rank

/-- The targets with an answer, and its rank. -/
def ranks (r : Registry) : List (Target × Nat) :=
  r.entries.map fun (target, answer) => (target, answer.rank)

theorem ranks_eq (r : Registry) : r.ranks =
    (List.finRange (maxTarget + 1)).filterMap fun target =>
      (r.rank? target.val).map fun rank => (target, rank) := by
  rw [ranks, entries, List.map_filterMap]
  refine List.filterMap_congr fun target _ => ?_
  rw [rank?, get?_target r target.isLt, Option.map_map, Option.map_map]
  rfl

theorem length_ranks (r : Registry) : r.ranks.length = r.size := List.length_map ..

theorem ranks_congr (h : ∀ n, r.rank? n = s.rank? n) : r.ranks = s.ranks := by
  simp only [ranks_eq, h]

theorem missing_congr (h : ∀ n, r.rank? n = s.rank? n) : r.missing = s.missing := by
  refine List.filter_congr fun target _ => ?_
  have hrank := congrArg Option.isNone (h target.val)
  rw [rank?, rank?, Option.isNone_map, Option.isNone_map] at hrank
  rwa [← get?_target r target.isLt, ← get?_target s target.isLt]

/-- The ranks of a registry that was offered some expressions. -/
theorem rank?_afterAll (es : List Expr) (n : Nat) :
    (empty.afterAll es).rank? n = (bestAnswer? n es).map Answer.rank := by
  rw [rank?, get?_afterAll, get?_empty, Answer.better_none_left]

end Registry

/-! ## The result -/

/-- The candidates are the same for the same operands in another order. -/
theorem mem_allCandidates_perm {operands operands' : List Nat} (hperm : operands'.Perm operands)
    (e : Expr) :
    e ∈ allCandidates (orderingsOf operands) ↔ e ∈ allCandidates (orderingsOf operands') := by
  rw [mem_allCandidates, mem_allCandidates]
  exact exists_congr fun ds => and_congr_left' (hperm.symm.congr_right ds)

/-- Two syntheses of the same digits, in whatever orders they are given and searched, reach
    the same numbers at the same ranks; so they list as many, and miss the same. -/
theorem synthesize_perm (mode mode' : Mode) {operands operands' : List Nat}
    (hne : operands ≠ []) (hdigit : ∀ operand ∈ operands, operand ≤ maxOperand)
    (hperm : operands'.Perm operands) (journal journal' : Array Event) :
    ∃ registry registry',
      ((synthesize mode operands).run.run journal).1 = .ok registry ∧
      ((synthesize mode' operands').run.run journal').1 = .ok registry' ∧
      (∀ n, (registry.get? n).map Answer.rank = (registry'.get? n).map Answer.rank) ∧
      registry.entries.map (fun (target, answer) => (target, answer.rank)) =
        registry'.entries.map (fun (target, answer) => (target, answer.rank)) ∧
      registry.size = registry'.size ∧ registry.missing = registry'.missing := by
  have hne' : operands' ≠ [] := fun h => hne (by rwa [h, List.nil_perm] at hperm)
  have hdigit' : ∀ operand ∈ operands', operand ≤ maxOperand :=
    fun operand hoperand => hdigit operand (hperm.mem_iff.1 hoperand)
  have hranks (n : Nat) :
      (Registry.empty.afterAll (allCandidates (orderingsOf operands))).rank? n =
        (Registry.empty.afterAll (allCandidates (orderingsOf operands'))).rank? n := by
    rw [Registry.rank?_afterAll, Registry.rank?_afterAll]
    exact rank_bestAnswer?_congr (mem_allCandidates_perm hperm) n
  refine ⟨_, _, ?_, ?_, hranks, Registry.ranks_congr hranks, ?_, Registry.missing_congr hranks⟩
  · rw [yields_synthesize, synthesized, refusal?_eq_none hne hdigit]
  · rw [yields_synthesize, synthesized, refusal?_eq_none hne' hdigit']
  · rw [← Registry.length_ranks, ← Registry.length_ranks, Registry.ranks_congr hranks]

/-- Operands that are exchanged, one searched in turn and the other apart. -/
theorem synthesize_perm_exchanged : [2, 5] ≠ [] ∧ (∀ operand ∈ [2, 5], operand ≤ maxOperand) ∧
    [5, 2].Perm [2, 5] ∧ ∃ registry registry',
      ((synthesize .inTurn [2, 5]).run.run #[]).1 = .ok registry ∧
      ((synthesize .apart [5, 2]).run.run #[]).1 = .ok registry' ∧
      (∀ n, (registry.get? n).map Answer.rank = (registry'.get? n).map Answer.rank) ∧
      registry.entries.map (fun (target, answer) => (target, answer.rank)) =
        registry'.entries.map (fun (target, answer) => (target, answer.rank)) ∧
      registry.size = registry'.size ∧ registry.missing = registry'.missing :=
  ⟨by decide, by decide, .swap .., synthesize_perm .inTurn .apart (by decide) (by decide)
    (.swap ..) #[] #[]⟩

end DigitReach

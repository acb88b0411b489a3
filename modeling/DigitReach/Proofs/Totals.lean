import DigitReach.Proofs.Concurrency
import DigitReach.Proofs.Optimality
import DigitReach.Proofs.Recipes

/-!
# How many expressions are tried

The number of expressions that a search evaluates depends on nothing but the number of
operands: each recipe yields as many as `Proofs.Recipes` says, and there are as many
bracketings as `Proofs.Bracketings` says.

* `Recipe.length_flatMap_node`: what two rows of recipes yield, each of the one joined with
  each of the other;
* `length_candidates`: so the search of an ordering of `n` operands tries `trialCount n`
  expressions, and there are `n !` orderings (`length_allCandidates`);
* `evaluated_eq_trialCount`: a search evaluates them all, whether it goes through the
  orderings in turn, apart, or at the same time.
-/

namespace DigitReach

open Relation (ReflTransGen)

/-! ## Expressions of the trees -/

namespace Recipe

theorem length_expressions_leaf (x : Float) : (leaf x).expressions.toList.length = 3 := by
  rw [leaf, length_expressions_wrapped]
  rfl

theorem length_expressions_node (l r : Recipe) :
    (node l r).expressions.toList.length =
      10 * (l.expressions.toList.length * r.expressions.toList.length) + 3 := by
  rw [node, length_expressions_wrapped, length_expressions_joined]
  ring

/-- All pairs of two rows of recipes. -/
theorem length_flatMap_node (ls rs : List Recipe) :
    (ls.flatMap fun l => rs.flatMap fun r => (node l r).expressions.toList).length =
      10 * ((ls.flatMap fun l => l.expressions.toList).length *
        (rs.flatMap fun r => r.expressions.toList).length) + 3 * (ls.length * rs.length) := by
  have hrow (l : Recipe) : (rs.flatMap fun r => (node l r).expressions.toList).length =
      10 * (l.expressions.toList.length * (rs.flatMap fun r => r.expressions.toList).length) +
        3 * rs.length := by
    induction rs with
    | nil => simp
    | cons r rs ih =>
      simp only [List.flatMap_cons, List.length_append, List.length_cons, ih,
        length_expressions_node]
      ring
  induction ls with
  | nil => simp
  | cons l ls ih =>
    simp only [List.flatMap_cons, List.length_append, List.length_cons, ih, hrow]
    ring

end Recipe

/-! ## Bracketings and orderings -/

/-- The number of expressions that the search of an ordering of `n` operands tries. An operand
    alone is tried bare and wrapped. Of more operands, the first `i` make one expression and
    the others another; each two of these are joined by five operators, with and without a
    square root. Besides, for each bracketing, there is the literal that it makes, in three
    ways. -/
def trialCount : Nat → Nat
  | 0 => 0
  | 1 => 3
  | n + 2 => 10 * (∑ i : Fin (n + 1), trialCount (i.val + 1) * trialCount (n + 1 - i.val)) +
      3 * catalan (n + 1)
decreasing_by
  · have := i.isLt
    omega
  · omega

/-- The candidates of two or more recipes, by the trees of both parts. -/
theorem candidates_cons_cons (a b : Recipe) (rest : List Recipe) :
    candidates (a :: b :: rest) = (List.finRange (rest.length + 1)).flatMap fun i =>
      (bracketings Recipe.node ((a :: b :: rest).take (i.val + 1))).toList.flatMap fun l =>
        (bracketings Recipe.node ((a :: b :: rest).drop (i.val + 1))).toList.flatMap fun r =>
          (Recipe.node l r).expressions.toList := by
  rw [candidates, toList_bracketings_cons_cons]
  simp only [List.flatMap_assoc, List.flatMap_map]

/-- The search of an ordering tries as many expressions, whatever its operands are. -/
theorem length_candidates {ordering : List Recipe} (hne : ordering ≠ [])
    (hleaf : ∀ r ∈ ordering, r.expressions.toList.length = 3) :
    (candidates ordering).length = trialCount ordering.length := by
  induction ordering using bracketings.induct with
  | case1 => exact absurd rfl hne
  | case2 r =>
    rw [candidates, toList_bracketings_singleton, List.flatMap_singleton,
      hleaf r (List.mem_singleton_self r), List.length_singleton, trialCount]
  | case3 a b rest ihr ihl =>
    have hsplit (i : Fin (rest.length + 1)) :
        ((bracketings Recipe.node ((a :: b :: rest).take (i.val + 1))).toList.flatMap fun l =>
          (bracketings Recipe.node ((a :: b :: rest).drop (i.val + 1))).toList.flatMap fun r =>
            (Recipe.node l r).expressions.toList).length =
          10 * (trialCount (i.val + 1) * trialCount (rest.length + 1 - i.val)) +
            3 * (catalan i.val * catalan (rest.length - i.val)) := by
      obtain ⟨hl, hr⟩ := length_take_drop a b rest i
      have hpos : 0 < rest.length + 1 - i.val := Nat.sub_pos_of_lt i.isLt
      have hleft := ihl i (List.ne_nil_of_length_pos (hl ▸ Nat.succ_pos _))
        fun r hr => hleaf r (List.mem_of_mem_take hr)
      have hright := ihr i (List.ne_nil_of_length_pos (hr ▸ hpos))
        fun r hr => hleaf r (List.mem_of_mem_drop hr)
      rw [hl] at hleft
      rw [hr] at hright
      rw [Nat.succ_sub (Nat.le_of_lt_succ i.isLt)] at hr
      rw [Recipe.length_flatMap_node, length_bracketings _ hl, length_bracketings _ hr, ← hleft,
        ← hright]
      rfl
    rw [candidates_cons_cons, List.length_flatMap]
    simp only [hsplit]
    rw [← Fin.sum_univ_def, Finset.sum_add_distrib, ← Finset.mul_sum, ← Finset.mul_sum,
      List.length_cons, List.length_cons, trialCount, catalan_succ]

section

variable {operands : List Nat}

/-- Every ordering of the operands has as many candidates. -/
theorem length_candidates_of_mem (hne : operands ≠ []) {ordering : List Recipe}
    (h : ordering ∈ orderingsOf operands) :
    (candidates ordering).length = trialCount operands.length := by
  have hordering := ne_nil_of_mem_orderingsOf hne ordering h
  rw [orderingsOf_eq, List.mem_map] at h
  obtain ⟨ds, hds, rfl⟩ := h
  rw [← (mem_rearrangements.1 hds).length_eq, length_candidates hordering, List.length_map,
    List.length_map]
  intro r hr
  obtain ⟨x, -, rfl⟩ := List.mem_map.1 hr
  exact Recipe.length_expressions_leaf x

/-- And there are as many orderings as the factorial says. -/
theorem length_allCandidates (hne : operands ≠ []) :
    (allCandidates (orderingsOf operands)).length =
      operands.length.factorial * trialCount operands.length := by
  have hlength : (orderingsOf operands).length = operands.length.factorial := by
    rw [orderingsOf, length_rearrangements, List.length_map, factorialNat_eq]
  have hconst : (orderingsOf operands).map (fun ordering => (candidates ordering).length) =
      List.replicate operands.length.factorial (trialCount operands.length) :=
    List.eq_replicate_iff.2 ⟨(List.length_map _).trans hlength,
      List.forall_mem_map.2 fun ordering h => length_candidates_of_mem hne h⟩
  rw [allCandidates, List.length_flatMap, hconst, List.sum_replicate_nat]

/-! ## The entry that closes a search -/

/-- What is noted last is the last entry of the journal. -/
theorem Yields.back?_note {ε α β : Type} {x : ExceptT ε Journaled α} {a : α}
    (h : Yields x (.ok a)) (event : α → Event) (result : α → β) (journal : Array Event) :
    ((x >>= fun a => do DigitReach.note (event a); return result a).run.run journal).2.back? =
      some (event a) := by
  rw [run_bind, h.run_eq]
  exact Array.back?_push ..

/-- The last entry that a synthesis makes tells how many expressions were evaluated. -/
theorem back?_synthesize (mode : Mode) (h : refusal? operands = none) (journal : Array Event) :
    ((synthesize mode operands).run.run journal).2.back? =
      some (.synthesized (searchedAll operands mode).2.evaluated
        (searchedAll operands mode).2.improved (searchedAll operands mode).1.size) := by
  have hcheck := yields_checkOperands operands
  rw [h] at hcheck
  have hall := (yields_searchAll mode (ne_nil_of_refusal? h)).adapt SynthesisError.enumeration
  rw [synthesize, Yields.run_bind, hcheck.run_eq]
  exact hall.back?_note (fun found => .synthesized found.2.evaluated found.2.improved found.1.size)
    Prod.fst _

/-! ## The result -/

open scoped Nat in
/-- Of `n` digits, at least one, the search of every ordering evaluates `trialCount n`
    expressions, from whatever registry it goes on; and the search of all orderings evaluates
    `n !` times as many, whether it goes through them in turn or apart, or at the same time in
    whatever order of steps. So says the entry that closes a synthesis. -/
theorem evaluated_eq_trialCount (hne : operands ≠ [])
    (hdigit : ∀ operand ∈ operands, operand ≤ maxOperand) (journal : Array Event) :
    let leaves := operands.map fun operand => Recipe.leaf (Float.ofNat operand)
    let orderings := (Orderings.of leaves).remaining.toList
    let n := operands.length
    (∀ ordering ∈ orderings, ∀ registry, ∃ found,
      searchOrdering registry ordering = .ok found ∧ found.stats.evaluated = trialCount n) ∧
    (∀ mode, ∃ found, ((searchAll mode leaves).run.run journal).1 = .ok found ∧
      found.2.evaluated = n ! * trialCount n) ∧
    (∀ crew result, ReflTransGen CrewStep (orderings.map .waiting) crew → Collected crew result →
      ∃ found, result = .ok found ∧ found.2.evaluated = n ! * trialCount n) ∧
    ∀ mode, ∃ improved reached, ((synthesize mode operands).run.run journal).2.back? =
      some (.synthesized (n ! * trialCount n) improved reached) := by
  intro leaves orderings n
  have horderings : orderings = orderingsOf operands := Orderings.toList_remaining leaves
  have htotal := length_allCandidates hne
  have hordering := ne_nil_of_mem_orderingsOf hne
  refine ⟨fun ordering h registry => ?_, fun mode => ?_, fun crew result hrun hcollect => ?_,
    fun mode => ?_⟩
  · rw [horderings] at h
    refine ⟨_, searchOrdering_eq registry (hordering ordering h), ?_⟩
    rw [searched, Findings.evaluated_of, length_candidates_of_mem hne h]
  · refine ⟨_, yields_searchAll mode hne journal, ?_⟩
    rw [evaluated_searchedAll, htotal]
  · rw [horderings] at hrun
    refine ⟨_, (collected_iff hordering).1 ⟨crew, hrun, hcollect⟩, ?_⟩
    rw [evaluated_merged, htotal]
  · have hclose := back?_synthesize mode (refusal?_eq_none hne hdigit) journal
    rw [evaluated_searchedAll, htotal] at hclose
    exact ⟨_, _, hclose⟩

/-- Of three operands, though two of them are equal, the search of an ordering evaluates
    `10 * (3 * 93 + 93 * 3) + 3 * 2` expressions, and a synthesis six times as many. -/
theorem evaluated_eq_trialCount_three : [2, 5, 2] ≠ [] ∧
    (∀ operand ∈ [2, 5, 2], operand ≤ maxOperand) ∧ trialCount 3 = 5586 ∧
    let leaves := [2, 5, 2].map fun operand => Recipe.leaf (Float.ofNat operand)
    (∀ ordering ∈ (Orderings.of leaves).remaining.toList, ∀ registry, ∃ found,
      searchOrdering registry ordering = .ok found ∧ found.stats.evaluated = 5586) ∧
    ∀ mode, ∃ improved reached, ((synthesize mode [2, 5, 2]).run.run #[]).2.back? =
      some (.synthesized 33516 improved reached) := by
  have htrials : trialCount 3 = 5586 := by
    simp [trialCount, Fin.sum_univ_succ, catalan_two]
  have htotal : Nat.factorial 3 * trialCount 3 = 33516 := by
    rw [htrials]
    rfl
  obtain ⟨hordering, -, -, hclose⟩ :=
    @evaluated_eq_trialCount [2, 5, 2] (by decide) (by decide) #[]
  exact ⟨by decide, by decide, htrials, htrials ▸ hordering, htotal ▸ hclose⟩

end

end DigitReach

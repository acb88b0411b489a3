import DigitReach.Proofs.Chronicle
import DigitReach.Proofs.Totals

/-!
# How often a registry is improved

Each improvement of an answer lowers its rank, and ranks go from `0` to `5`. So however many
expressions a registry is offered, each target is improved at most six times, and all of them
together at most `606` times.

Searches in turn go on from what was found before, and searches apart begin with nothing. A
registry that knows more is improved by no other offers than one that knows less
(`Registry.Covers`), and so a search in turn counts no more improvements than one that searches
the orderings apart; both evaluate the same expressions, and reach the same targets.

* `length_changes_allCandidates_le`: ordering by ordering, from whatever registry, there are at
  most as many improvements as from an empty one;
* `improved_bounds` puts the bounds together.
-/

namespace DigitReach

open Relation (ReflTransGen)

/-! ## Improvements of each mode -/

/-- Orderings searched from some registry on, one after the other, make at most the improvements
    that each of them makes of an empty registry. -/
theorem length_changes_allCandidates_le (r : Registry) (orderings : List (List Recipe)) :
    (r.changes (allCandidates orderings)).length ≤
      (Stats.total (orderings.map (searched .empty))).improved := by
  induction orderings generalizing r with
  | nil => exact le_rfl
  | cons ordering rest ih =>
    have hfirst : (searched .empty ordering).stats.improved =
        (Registry.empty.changes (candidates ordering)).length := by rw [searched, Findings.of_eq]
    calc (r.changes (allCandidates (ordering :: rest))).length
        = (r.changes (candidates ordering)).length +
          ((r.afterAll (candidates ordering)).changes (allCandidates rest)).length := by
          rw [allCandidates_cons, Registry.changes_append, List.length_append]
      _ ≤ (searched .empty ordering).stats.improved +
          (Stats.total (rest.map (searched .empty))).improved :=
          Nat.add_le_add (hfirst ▸ r.covers_empty.length_changes_le _) (ih _)

section

variable (operands : List Nat)

/-- How the orderings are searched matters to nothing but the improvements. -/
theorem searchedAll_eq (mode : Mode) : searchedAll operands mode =
    ((searchedAll operands .inTurn).1,
      ⟨(searchedAll operands .inTurn).2.evaluated, (searchedAll operands mode).2.improved⟩) := by
  have hevaluated := (evaluated_searchedAll operands mode).trans
    (evaluated_searchedAll operands .inTurn).symm
  refine Prod.ext ?_ (congrArg (Stats.mk · _) hevaluated)
  rw [registry_searchedAll, registry_searchedAll]

theorem improved_searchedAll_inTurn :
    (searchedAll operands .inTurn).2.improved =
      (Registry.empty.changes (allCandidates (orderingsOf operands))).length := by
  rw [searchedAll, Findings.of_eq]

/-- There are at least as many improvements as targets that are reached. -/
theorem size_le_improved_inTurn :
    (searchedAll operands .inTurn).1.size ≤ (searchedAll operands .inTurn).2.improved := by
  rw [improved_searchedAll_inTurn, registry_searchedAll, Registry.size_afterAll,
    Registry.size_empty, Nat.zero_add]
  exact List.countP_le_length

theorem improved_inTurn_le_apart :
    (searchedAll operands .inTurn).2.improved ≤ (searchedAll operands .apart).2.improved := by
  rw [improved_searchedAll_inTurn, searchedAll, snd_merged]
  exact length_changes_allCandidates_le _ _

end

/-! ## The result -/

/-- However many expressions an empty registry is offered: a target that is not reached was never
    improved; one that is reached was improved at least once, each time to a lower rank, and so
    at most as often as the last rank leaves room for; and of all the offers at most `606` make a
    change. An offer that changes a registry would also change an empty one that was offered the
    same before. So, of digits, at least one, a synthesis that searches the orderings apart
    counts at least as many improvements as one in turn, also when it searches them at the same
    time; this one at least as many as targets are reached; and both evaluate as many
    expressions. -/
theorem improved_bounds :
    (∀ es : List Expr,
      let replies := Registry.empty.replies es
      let final := Registry.empty.afterAll es
      (∀ n, final.get? n = none → changesOf n replies.reduceOption = []) ∧
      (∀ n answer, final.get? n = some answer →
        let changes := changesOf n replies.reduceOption
        1 ≤ changes.length ∧ changes.length ≤ 6 - answer.rank ∧
        changes.Pairwise fun c d => d.answer.rank < c.answer.rank) ∧
      replies.countP Option.isSome ≤ 606) ∧
    (∀ (r : Registry) (es : List Expr), List.Forall₂ (fun reply reply' =>
      reply.isSome → reply'.isSome) (r.replies es) (Registry.empty.replies es)) ∧
    ∀ operands : List Nat, operands ≠ [] → (∀ operand ∈ operands, operand ≤ maxOperand) →
      ∃ (registry : Registry) (evaluated inTurn apart : Nat),
        (∀ journal : Array Event,
          ((synthesize .inTurn operands).run.run journal).1 = .ok registry ∧
          ((synthesize .inTurn operands).run.run journal).2.back? =
            some (.synthesized evaluated inTurn registry.size)) ∧
        (∀ journal : Array Event,
          ((synthesize .apart operands).run.run journal).1 = .ok registry ∧
          ((synthesize .apart operands).run.run journal).2.back? =
            some (.synthesized evaluated apart registry.size)) ∧
        (∀ crew result, ReflTransGen CrewStep ((Orderings.of (operands.map fun operand =>
            Recipe.leaf (Float.ofNat operand))).remaining.toList.map .waiting) crew →
          Collected crew result → result = .ok (registry, ⟨evaluated, apart⟩)) ∧
        registry.size ≤ inTurn ∧ inTurn ≤ apart ∧ inTurn ≤ 606 := by
  refine ⟨fun es => ⟨fun n hn => ?_, fun n answer hanswer => ⟨?_, ?_, ?_⟩, ?_⟩,
    fun r es => r.covers_empty.replies es, fun operands hne hdigit => ?_⟩
  · exact ((Registry.descent_changes .empty es n).eq_none hn).2
  · have hdescent := Registry.descent_changes .empty es n
    rw [Registry.get?_empty, hanswer] at hdescent
    exact List.length_pos_iff.2 hdescent.ne_nil
  · have hroom := (Registry.descent_changes .empty es n).length_add_room_le
    rw [Registry.get?_empty, hanswer] at hroom
    exact Nat.le_sub_of_add_le hroom
  · exact (Registry.descent_changes .empty es n).pairwise
  · rw [← Registry.length_changes]
    exact Registry.length_changes_empty_le es
  · have hrefusal := refusal?_eq_none hne hdigit
    have hordering := ne_nil_of_mem_orderingsOf hne
    have hclose (mode : Mode) (journal : Array Event) :
        ((synthesize mode operands).run.run journal).1 = .ok (searchedAll operands .inTurn).1 ∧
          ((synthesize mode operands).run.run journal).2.back? =
            some (.synthesized (searchedAll operands .inTurn).2.evaluated
              (searchedAll operands mode).2.improved (searchedAll operands .inTurn).1.size) := by
      rw [back?_synthesize mode hrefusal, searchedAll_eq operands mode, yields_synthesize,
        synthesized, hrefusal, registry_searchedAll]
      exact ⟨rfl, rfl⟩
    refine ⟨_, _, _, _, hclose .inTurn, hclose .apart, fun crew result hrun hcollect => ?_,
      size_le_improved_inTurn operands, improved_inTurn_le_apart operands, ?_⟩
    · rw [Orderings.toList_remaining] at hrun
      rw [(collected_iff hordering).1 ⟨crew, hrun, hcollect⟩, ← searchedAll_eq operands .apart]
      rfl
    · rw [improved_searchedAll_inTurn]
      exact Registry.length_changes_empty_le _

/-- `1 + 2` reaches `3`, and `3` itself ranks lower: these are two improvements. The counts of a
    synthesis from `2` and `5`. -/
theorem improved_bounds_two :
    (let es : List Expr := [.binary .add (.constant (Float.ofNat 1)) (.constant (Float.ofNat 2)),
        .constant (Float.ofNat 3)]
      let changes := fun n => changesOf n (Registry.empty.replies es).reduceOption
      (Registry.empty.afterAll es).get? 7 = none ∧ changes 7 = [] ∧
      (Registry.empty.afterAll es).get? 3 = some ⟨0, "3"⟩ ∧ (changes 3).length = 2 ∧
      (changes 3).length ≤ 6 - 0 ∧
      (changes 3).Pairwise fun c d => d.answer.rank < c.answer.rank) ∧
    [2, 5] ≠ [] ∧ (∀ operand ∈ [2, 5], operand ≤ maxOperand) ∧
    ∃ (registry : Registry) (evaluated inTurn apart : Nat),
      ((synthesize .inTurn [2, 5]).run.run #[]).2.back? =
        some (.synthesized evaluated inTurn registry.size) ∧
      ((synthesize .apart [2, 5]).run.run #[]).2.back? =
        some (.synthesized evaluated apart registry.size) ∧
      registry.size ≤ inTurn ∧ inTurn ≤ apart := by
  obtain ⟨hoffers, -, hsyntheses⟩ := improved_bounds
  obtain ⟨registry, evaluated, inTurn, apart, hinTurn, hapart, -, hsize, hle, -⟩ :=
    hsyntheses [2, 5] (by decide) (by decide)
  refine ⟨?_, by decide, by decide, registry, evaluated, inTurn, apart, (hinTurn #[]).2,
    (hapart #[]).2, hsize, hle⟩
  intro es changes
  have hnone : (Registry.empty.afterAll es).get? 7 = none := by decide +kernel
  have hsome : (Registry.empty.afterAll es).get? 3 = some ⟨0, "3"⟩ := by decide +kernel
  obtain ⟨-, hle, hlower⟩ := (hoffers es).2.1 3 _ hsome
  exact ⟨hnone, (hoffers es).1 7 hnone, hsome, by decide +kernel, hle, hlower⟩

end DigitReach

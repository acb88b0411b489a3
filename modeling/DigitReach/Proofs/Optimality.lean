import DigitReach.Proofs.Search

/-!
# What a synthesis finds

An *attempt* at a target puts the operands in some order, and uses each of them once, in
this order, in an expression (`Attempt`). Attempts are made one after the other
(`Attempt.Before`): by the orderings of the positions, lexicographically, and then as
`Expr.Before` says. The *best* attempt at a number is the first one of the least rank
(`Attempt.IsBest`).

* `attempts` lists all attempts, in their order, and its expressions are those that a
  synthesis offers (`map_expr_attempts`);
* `synthesize_optimal`: of operands that are digits, at least one, a synthesis knows an
  answer to a number if and only if there is an attempt that reaches it; and the answer is
  that of the best one.
-/

namespace DigitReach

variable {operands : List Nat}

/-! ## Attempts -/

/-- The operands at some positions, as numbers. -/
def operandsAt (operands : List Nat) (positions : List (Fin operands.length)) : List Float :=
  positions.map fun i => Float.ofNat (operands.get i)

/-- An ordering of the operands, and an expression that uses each of them in this order. -/
structure Attempt (operands : List Nat) where
  /-- The positions of the operands, in their new order. -/
  positions : List (Fin operands.length)
  /-- Each position occurs once. -/
  complete : positions.Perm (List.finRange operands.length)
  /-- The expression. -/
  expr : Expr
  /-- It uses the operands in the new order. -/
  uses : expr.Uses (operandsAt operands positions)

namespace Attempt

/-- The first attempt is made before the second. -/
def Before (a b : Attempt operands) : Prop :=
  a.positions < b.positions ∨ a.positions = b.positions ∧ a.expr.Before b.expr

theorem Before.asymm {a b : Attempt operands} (h : a.Before b) : ¬ b.Before a := by
  rintro (hlt' | ⟨heq', hexpr'⟩)
  · rcases h with hlt | ⟨heq, -⟩
    · exact lt_asymm hlt hlt'
    · exact hlt'.ne heq.symm
  · rcases h with hlt | ⟨-, hexpr⟩
    · exact hlt.ne heq'.symm
    · exact hexpr.asymm hexpr'

/-- Of the attempts that reach a number, the first one of the least rank. -/
structure IsBest (n : Nat) (a : Attempt operands) : Prop where
  reaches : a.expr.Reaches n
  least : ∀ b : Attempt operands, b.expr.Reaches n → a.expr.rank ≤ b.expr.rank
  first : ∀ b : Attempt operands, b.expr.Reaches n → b.expr.rank = a.expr.rank →
    a = b ∨ a.Before b

end Attempt

/-! ## The list of attempts -/

/-- The attempts with the operands in a given order. -/
def attemptsAt {positions : List (Fin operands.length)}
    (h : positions.Perm (List.finRange operands.length)) : List (Attempt operands) :=
  (candidates ((operandsAt operands positions).map .leaf)).attach.map fun e =>
    ⟨positions, h, e.val, mem_candidates.1 e.property⟩

/-- All attempts, in the order in which they are made. -/
def attempts (operands : List Nat) : List (Attempt operands) :=
  (rearrangements (List.finRange operands.length)).attach.flatMap fun positions =>
    attemptsAt (mem_rearrangements.1 positions.property)

theorem mem_attempts (a : Attempt operands) : a ∈ attempts operands := by
  obtain ⟨positions, hcomplete, e, huses⟩ := a
  have hpositions := mem_rearrangements.2 hcomplete
  have he := mem_candidates.2 huses
  exact List.mem_flatMap.2 ⟨⟨positions, hpositions⟩, List.mem_attach _ _,
    List.mem_map.2 ⟨⟨e, he⟩, List.mem_attach _ _, rfl⟩⟩

theorem pairwise_attach {α : Type} {R : α → α → Prop} {as : List α} (h : as.Pairwise R) :
    as.attach.Pairwise fun a b => R a.val b.val := by
  rw [← List.pairwise_map, List.attach_map_subtype_val]
  exact h

/-- The attempts are listed in the order in which they are made. -/
theorem pairwise_attempts (operands : List Nat) : (attempts operands).Pairwise Attempt.Before := by
  have hpositions : (rearrangements (List.finRange operands.length)).attach.Pairwise
      fun ps qs => ps.val < qs.val :=
    pairwise_attach (pairwise_rearrangements (List.pairwise_lt_finRange _))
  refine List.pairwise_flatMap.2 ⟨fun ps _ => ?_, hpositions.imp fun hlt => ?_⟩
  · rw [attemptsAt, List.pairwise_map]
    exact (pairwise_attach (pairwise_candidates _)).imp fun h => .inr ⟨rfl, h⟩
  · intro a ha b hb
    obtain ⟨e, -, rfl⟩ := List.mem_map.1 ha
    obtain ⟨e', -, rfl⟩ := List.mem_map.1 hb
    exact .inl hlt

theorem orderingsOf_eq_map (operands : List Nat) :
    orderingsOf operands = (rearrangements (List.finRange operands.length)).map
      fun positions => (operandsAt operands positions).map .leaf := by
  have hleaves : operands.map (fun operand => Recipe.leaf (Float.ofNat operand)) =
      (List.finRange operands.length).map
        ((fun operand => Recipe.leaf (Float.ofNat operand)) ∘ operands.get) := by
    rw [← List.map_map, List.map_get_finRange]
  rw [orderingsOf, hleaves, rearrangements_map]
  refine List.map_congr_left fun positions _ => ?_
  rw [operandsAt, List.map_map]
  rfl

/-- The expressions of the attempts are those that a synthesis offers. -/
theorem map_expr_attempts (operands : List Nat) :
    (attempts operands).map Attempt.expr = allCandidates (orderingsOf operands) := by
  have hat (positions : {ps // ps ∈ rearrangements (List.finRange operands.length)}) :
      (attemptsAt (mem_rearrangements.1 positions.property)).map Attempt.expr =
        candidates ((operandsAt operands positions.val).map .leaf) := by
    rw [attemptsAt, List.map_map]
    exact List.attach_map_subtype_val _
  rw [attempts, List.map_flatMap, funext hat, orderingsOf_eq_map, allCandidates,
    List.flatMap_map, ← List.flatMap_map Subtype.val
      fun positions => candidates ((operandsAt operands positions).map .leaf),
    List.attach_map_subtype_val]

section

variable {n : Nat} {e : Expr}

/-- What a registry keeps of all attempts is the expression of a best one. -/
theorem exists_isBest (h : IsFirstBest n ((attempts operands).map Attempt.expr) e) :
    ∃ a : Attempt operands, a.IsBest n ∧ a.expr = e := by
  obtain ⟨before, behind, hsplit, hreaches, hbefore, hbehind⟩ := h
  -- The list of attempts is split as the list of their expressions is.
  obtain ⟨as, rest, hattempts, rfl, hrest⟩ := List.map_eq_append_iff.1 hsplit
  obtain ⟨a, bs, rfl, rfl, rfl⟩ := List.map_eq_cons_iff.1 hrest
  have horder := pairwise_attempts operands
  rw [hattempts, List.pairwise_append, List.pairwise_cons] at horder
  have hplace (b : Attempt operands) : b ∈ as ∨ b = a ∨ b ∈ bs := by
    rw [← List.mem_cons, ← List.mem_append, ← hattempts]
    exact mem_attempts b
  refine ⟨a, ⟨hreaches, fun b hb => ?_, fun b hb hrank => ?_⟩, rfl⟩
  · rcases hplace b with hb' | rfl | hb'
    · exact (hbefore _ (List.mem_map_of_mem hb') hb).le
    · exact le_rfl
    · exact hbehind _ (List.mem_map_of_mem hb') hb
  · rcases hplace b with hb' | rfl | hb'
    · exact absurd hrank (hbefore _ (List.mem_map_of_mem hb') hb).ne'
    · exact .inl rfl
    · exact .inr (horder.2.1.1 b hb')

/-- The expression of a best attempt is what a registry keeps of all. -/
theorem Attempt.IsBest.isFirstBest {a : Attempt operands} (h : a.IsBest n) :
    IsFirstBest n ((attempts operands).map Attempt.expr) a.expr := by
  obtain ⟨as, bs, hattempts⟩ := List.append_of_mem (mem_attempts a)
  have horder := pairwise_attempts operands
  rw [hattempts, List.pairwise_append] at horder
  refine ⟨as.map Attempt.expr, bs.map Attempt.expr, ?_, h.reaches, ?_, ?_⟩
  · rw [hattempts, List.map_append, List.map_cons]
  · intro e he hreaches
    obtain ⟨b, hb, rfl⟩ := List.mem_map.1 he
    have hbefore := horder.2.2 b hb a List.mem_cons_self
    refine (h.least b hreaches).lt_of_ne fun hrank => ?_
    -- On a tie `a` would be before `b`, which is before `a` in the list.
    rcases h.first b hreaches hrank.symm with rfl | hbehind
    · exact hbefore.asymm hbefore
    · exact hbefore.asymm hbehind
  · intro e he hreaches
    obtain ⟨b, -, rfl⟩ := List.mem_map.1 he
    exact h.least b hreaches

end

/-! ## The result -/

theorem refusal?_eq_none (hne : operands ≠ [])
    (hdigit : ∀ operand ∈ operands, operand ≤ maxOperand) : refusal? operands = none :=
  refusal?_eq_none_iff.2 ⟨hne, hdigit⟩

/-- Of operands that are digits, at least one, a synthesis knows an answer to exactly those
    numbers that an attempt reaches, and the answer is that of the best attempt. -/
theorem synthesize_optimal (mode : Mode) (hne : operands ≠ [])
    (hdigit : ∀ operand ∈ operands, operand ≤ maxOperand) (journal : Array Event) :
    ∃ registry, ((synthesize mode operands).run.run journal).1 = .ok registry ∧
      ∀ n, ((registry.get? n).isSome ↔ ∃ a : Attempt operands, a.expr.Reaches n) ∧
        ∀ answer, registry.get? n = some answer ↔
          ∃ a : Attempt operands, a.IsBest n ∧ a.expr.answer = answer := by
  refine ⟨Registry.empty.afterAll (allCandidates (orderingsOf operands)), ?_, fun n => ?_⟩
  · rw [yields_synthesize, synthesized, refusal?_eq_none hne hdigit]
  · have hsummarizes := Registry.summarizes_afterAll (allCandidates (orderingsOf operands))
    rw [← map_expr_attempts] at hsummarizes ⊢
    constructor
    · rw [Option.isSome_iff_ne_none, Ne, hsummarizes.get?_eq_none_iff, List.forall_mem_map]
      push Not
      constructor
      · rintro ⟨a, -, ha⟩
        exact ⟨a, ha⟩
      · rintro ⟨a, ha⟩
        exact ⟨a, mem_attempts a, ha⟩
    · intro answer
      rw [hsummarizes.get?_eq_some_iff]
      constructor
      · rintro ⟨e, he, hanswer⟩
        obtain ⟨a, hbest, rfl⟩ := exists_isBest he
        exact ⟨a, hbest, hanswer⟩
      · rintro ⟨a, hbest, hanswer⟩
        exact ⟨a.expr, hbest.isFirstBest, hanswer⟩

/-- Two equal operands are a list that is searched. -/
theorem synthesize_optimal_twos : [2, 2] ≠ [] ∧ (∀ operand ∈ [2, 2], operand ≤ maxOperand) ∧
    ∃ registry, ((synthesize .inTurn [2, 2]).run.run #[]).1 = .ok registry ∧
      ∀ n, ((registry.get? n).isSome ↔ ∃ a : Attempt [2, 2], a.expr.Reaches n) ∧
        ∀ answer, registry.get? n = some answer ↔
          ∃ a : Attempt [2, 2], a.IsBest n ∧ a.expr.answer = answer :=
  ⟨by decide, by decide, synthesize_optimal .inTurn (by decide) (by decide) #[]⟩

end DigitReach

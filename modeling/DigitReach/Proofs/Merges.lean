import DigitReach.Proofs.OperandOrder

/-!
# Laws of merging

A merge is an operation on registries. It is associative, the empty registry is its neutral
element, and to merge again what has been merged before changes nothing, whatever has come
in between: registries are a *left-regular band* (`LeftRegularBand`), since the answers to
each number are one under `Answer.better`. The order matters to the texts only: of two
answers of equal rank, the first one stays.

* `LeftRegularBand.fold_eq`: in a band, it does not matter how a row is grouped;
* `LeftRegularBand.foldl_of_mem`: nor does what comes again at the end of a row;
* `Registry.merge_comm_iff`: it matters which of two registries comes first exactly if they
  answer a number at the same rank with different texts;
* `merge_laws`: so the registries of searches apart may be merged in any groups, if these are
  kept in the order of the orderings.
-/

namespace DigitReach

universe u

/-! ## Bands -/

/-- The operation is associative, with a neutral element, and takes in nothing for a second
    time. -/
structure LeftRegularBand {α : Type u} (op : α → α → α) (neutral : α) : Prop where
  assoc : ∀ a b c, op (op a b) c = op a (op b c)
  neutral_left : ∀ a, op neutral a = a
  neutral_right : ∀ a, op a neutral = a
  self : ∀ a, op a a = a
  absorb : ∀ a b, op (op a b) a = op a b

namespace LeftRegularBand

variable {α : Type u} {op : α → α → α} {neutral : α}

theorem foldl_items (h : LeftRegularBand op neutral) (g : Grouping α) (a : α) :
    g.items.foldl op a = op a (g.fold op) := by
  induction g generalizing a with
  | item b => rfl
  | pair l r ihl ihr =>
    rw [Grouping.items, List.foldl_append, ihl, ihr, h.assoc, Grouping.fold]

/-- However a row is grouped, it comes to what it comes to from left to right. -/
theorem fold_eq (h : LeftRegularBand op neutral) (g : Grouping α) :
    g.fold op = g.items.foldl op neutral := by
  rw [h.foldl_items, h.neutral_left]

/-- What has been taken in once stays so. -/
theorem foldl_absorb (h : LeftRegularBand op neutral) {a x : α} (hx : op a x = a)
    (bs : List α) : op (bs.foldl op a) x = bs.foldl op a := by
  induction bs generalizing a with
  | nil => exact hx
  | cons b bs ih =>
    refine ih ?_
    calc op (op a b) x = op (op (op a x) b) x := by rw [hx]
      _ = op a (op (op x b) x) := by rw [h.assoc a x b, h.assoc]
      _ = op a b := by rw [h.absorb, ← h.assoc, hx]

/-- So nothing changes if an item of a row comes again at its end. -/
theorem foldl_of_mem (h : LeftRegularBand op neutral) {as : List α} {x : α} (hx : x ∈ as) :
    op (as.foldl op neutral) x = as.foldl op neutral := by
  obtain ⟨before, behind, rfl⟩ := List.append_of_mem hx
  rw [List.foldl_append, List.foldl_cons]
  refine h.foldl_absorb ?_ behind
  rw [h.assoc, h.self]

end LeftRegularBand

/-! ## Answers -/

namespace Answer

theorem leftRegularBand_better : LeftRegularBand better none where
  assoc := better_assoc
  neutral_left := better_none_left
  neutral_right := better_none_right
  self a := by
    rcases a with _ | a
    · rfl
    · exact if_neg (Nat.lt_irrefl _)
  absorb a b := by
    rcases a with _ | a
    · rw [better_none_right]
    rcases b with _ | b
    · exact if_neg (Nat.lt_irrefl _)
    -- The better one ranks no higher than the first, which therefore does not come back.
    rw [better_some]
    split
    · next hlt => exact if_neg (Nat.lt_asymm hlt)
    · exact if_neg (Nat.lt_irrefl _)

/-- In whatever order two answers come, the better one has the same rank. -/
theorem rank_better_comm (a b : Option Answer) :
    (better a b).map rank = (better b a).map rank := by
  rcases a with _ | a
  · rw [better_none_left, better_none_right]
  rcases b with _ | b
  · rw [better_none_left, better_none_right]
  rw [better_some, better_some]
  rcases Nat.lt_trichotomy a.rank b.rank with hlt | heq | hlt
  · rw [if_neg (Nat.lt_asymm hlt), if_pos hlt]
  · rw [if_neg heq.not_gt, if_neg heq.not_lt, Option.map_some, Option.map_some, heq]
  · rw [if_pos hlt, if_neg (Nat.lt_asymm hlt)]

/-- It matters which of two answers comes first exactly if they rank the same, and their texts
    differ. -/
theorem better_comm_iff (a b : Option Answer) : better a b = better b a ↔
    ¬ ∃ x y, a = some x ∧ b = some y ∧ x.rank = y.rank ∧ x.text ≠ y.text := by
  rcases a with _ | a
  · simp
  rcases b with _ | b
  · simp
  have htie : (∃ x y, some a = some x ∧ some b = some y ∧ x.rank = y.rank ∧ x.text ≠ y.text) ↔
      a.rank = b.rank ∧ a.text ≠ b.text := by simp
  rw [htie, better_some, better_some]
  rcases Nat.lt_trichotomy a.rank b.rank with hlt | heq | hlt
  · rw [if_neg (Nat.lt_asymm hlt), if_pos hlt]
    exact ⟨fun _ htie => hlt.ne htie.1, fun _ => rfl⟩
  · rw [if_neg heq.not_gt, if_neg heq.not_lt, Option.some.injEq]
    constructor
    · rintro rfl ⟨-, hne⟩
      exact hne rfl
    · intro h
      obtain ⟨rank, text⟩ := a
      obtain ⟨rank', text'⟩ := b
      obtain rfl : rank = rank' := heq
      obtain rfl : text = text' := not_not.1 fun hne => h ⟨rfl, hne⟩
      rfl
  · rw [if_pos hlt, if_neg (Nat.lt_asymm hlt)]
    exact ⟨fun _ htie => hlt.ne' htie.1, fun _ => rfl⟩

end Answer

/-! ## Registries -/

namespace Registry

theorem leftRegularBand_merge : LeftRegularBand merge empty where
  assoc a b c := ext_get? fun n => by
    simp only [get?_merge, Answer.leftRegularBand_better.assoc]
  neutral_left a := ext_get? fun n => by
    rw [get?_merge, get?_empty, Answer.leftRegularBand_better.neutral_left]
  neutral_right a := ext_get? fun n => by
    rw [get?_merge, get?_empty, Answer.leftRegularBand_better.neutral_right]
  self a := ext_get? fun n => by
    rw [get?_merge, Answer.leftRegularBand_better.self]
  absorb a b := ext_get? fun n => by
    simp only [get?_merge, Answer.leftRegularBand_better.absorb]

theorem rank?_merge_comm (a b : Registry) (n : Nat) :
    (a.merge b).rank? n = (b.merge a).rank? n := by
  rw [rank?, rank?, get?_merge, get?_merge, Answer.rank_better_comm]

/-- It matters which of two registries comes first exactly if there is a tie between answers
    with different texts. -/
theorem merge_comm_iff (a b : Registry) : a.merge b = b.merge a ↔
    ¬ ∃ n x y, a.get? n = some x ∧ b.get? n = some y ∧ x.rank = y.rank ∧ x.text ≠ y.text := by
  have hext : a.merge b = b.merge a ↔ ∀ n, (a.merge b).get? n = (b.merge a).get? n :=
    ⟨fun h n => by rw [h], ext_get?⟩
  simp only [hext, get?_merge, Answer.better_comm_iff, not_exists]

end Registry

/-! ## Searches apart -/

theorem mapM_searchOrdering {orderings : List (List Recipe)} (h : ∀ o ∈ orderings, o ≠ []) :
    orderings.mapM (searchOrdering .empty) = .ok (orderings.map (searched .empty)) := by
  induction orderings with
  | nil => rfl
  | cons o os ih =>
    rw [List.forall_mem_cons] at h
    rw [List.mapM_cons, searchOrdering_eq _ h.1, ih h.2]
    rfl

/-- Registries are a left-regular band under merging. Two of them, merged in one order and in
    the other, have the same entries but for the texts; and these are the same, unless both
    answer a number at the same rank with different texts. In a row of registries it does not
    matter how they are grouped; so the registries of the orderings of some digits, searched
    apart, come in any groups to what a synthesis comes to. -/
theorem merge_laws :
    LeftRegularBand Registry.merge .empty ∧
    (∀ a b : Registry,
      (∀ n, ((a.merge b).get? n).map Answer.rank = ((b.merge a).get? n).map Answer.rank) ∧
      (a.merge b).entries.map (fun (target, answer) => (target, answer.rank)) =
        (b.merge a).entries.map (fun (target, answer) => (target, answer.rank)) ∧
      (a.merge b = b.merge a ↔ ¬ ∃ n x y, a.get? n = some x ∧ b.get? n = some y ∧
        x.rank = y.rank ∧ x.text ≠ y.text)) ∧
    (∀ g : Grouping Registry, g.fold .merge = g.items.foldl .merge .empty ∧
      ∀ r ∈ g.items, (g.fold .merge).merge r = g.fold .merge) ∧
    ∀ operands : List Nat, operands ≠ [] → (∀ operand ∈ operands, operand ≤ maxOperand) →
      ∃ parts, ((Orderings.of (operands.map fun operand =>
          Recipe.leaf (Float.ofNat operand))).remaining.toList).mapM (searchOrdering .empty) =
            .ok parts ∧
        ∀ g : Grouping Registry, g.items = parts.map Findings.registry →
          ∀ (mode : Mode) (journal : Array Event),
            ((synthesize mode operands).run.run journal).1 = .ok (g.fold .merge) := by
  have hband := Registry.leftRegularBand_merge
  refine ⟨hband, fun a b => ⟨a.rank?_merge_comm b, Registry.ranks_congr (a.rank?_merge_comm b),
    a.merge_comm_iff b⟩, fun g => ⟨hband.fold_eq g, fun r hr => ?_⟩,
    fun operands hne hdigit => ⟨(orderingsOf operands).map (searched .empty), ?_,
      fun g hitems mode journal => ?_⟩⟩
  · rw [hband.fold_eq]
    exact hband.foldl_of_mem hr
  · rw [Orderings.toList_remaining]
    exact mapM_searchOrdering (ne_nil_of_mem_orderingsOf hne)
  · rw [hband.fold_eq, hitems, ← fst_merged, registry_merged, yields_synthesize, synthesized,
      refusal?_eq_none hne hdigit]

/-- Of two answers to `3` that rank the same, the first one stays. Two operands have two
    orderings, and the registries of both are merged. -/
theorem merge_laws_tie :
    let a := Registry.empty.record ⟨3, none, 1, "1 + 2"⟩
    let b := Registry.empty.record ⟨3, none, 1, "2 + 1"⟩
    a.merge b ≠ b.merge a ∧ (a.merge b).merge a = a.merge b ∧
    [2, 5] ≠ [] ∧ (∀ operand ∈ [2, 5], operand ≤ maxOperand) ∧
    let two := Recipe.leaf (Float.ofNat 2)
    let five := Recipe.leaf (Float.ofNat 5)
    let g := Grouping.pair (.item (searched .empty [two, five]).registry)
      (.item (searched .empty [five, two]).registry)
    ((synthesize .apart [2, 5]).run.run #[]).1 = .ok (g.fold .merge) := by
  obtain ⟨hband, hcomm, -, hsearch⟩ := merge_laws
  refine ⟨fun h => ?_, hband.absorb _ _, by decide, by decide, ?_⟩
  · refine (hcomm _ _).2.2.1 h ⟨3, ⟨1, "1 + 2"⟩, ⟨1, "2 + 1"⟩, ?_, ?_, rfl, by decide⟩ <;>
      exact Registry.get?_record ..
  · obtain ⟨parts, hparts, hgroup⟩ := hsearch [2, 5] (by decide) (by decide)
    have hall := mapM_searchOrdering (@ne_nil_of_mem_orderingsOf [2, 5] (by decide))
    rw [Orderings.toList_remaining] at hparts
    obtain rfl := Except.ok.inj (hparts.symm.trans hall)
    refine hgroup _ ?_ .apart #[]
    simp [Grouping.items, orderingsOf, rearrangements_cons, List.finRange_succ]

end DigitReach

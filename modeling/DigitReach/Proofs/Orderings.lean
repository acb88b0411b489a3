import DigitReach.Enumeration.Orderings
import Mathlib

/-!
# The orderings of a list

The rearrangements of a list are listed by moving each item in turn to the front, and
rearranging the others behind it (`rearrangements`). The enumeration of orderings does
not recur like this: it steps from one list of positions to the next by `nextLex?`.
Both come to the same (`Proofs.Cursors`):

* `mem_rearrangements` and `pairwise_rearrangements`: every rearrangement is listed, in
  lexicographic order if the list is ascending, and so none is listed twice;
* `countP_rearrangements`: of a list with equal items, each rearrangement is listed as
  often as these can be exchanged;
* `climb_rearrangements`: for an ascending list of numbers, each rearrangement but the
  last is taken to the one behind it by `nextLex?`. Within a block of rearrangements
  that have the same head, this is so by recursion; from the end of a block, where the
  others descend, `nextLex?` turns to the next head (`nextLex?_turn`).
-/

namespace DigitReach

universe u v

variable {α : Type u} {β : Type v}

/-! ## Rearrangements -/

/-- The rearrangements of a list: each item in turn is moved to the front, and the others
    are rearranged behind it. -/
def rearrangements (as : List α) : List (List α) :=
  match as with
  | [] => [[]]
  | a :: rest =>
    (List.finRange (rest.length + 1)).flatMap fun i =>
      (rearrangements ((a :: rest).eraseIdx i.val)).map ((a :: rest).get i :: ·)
termination_by as.length
decreasing_by
  rw [List.length_eraseIdx_of_lt i.isLt]
  exact Nat.lt_succ_self _

@[simp] theorem rearrangements_nil : rearrangements ([] : List α) = [[]] := by
  rw [rearrangements]

theorem rearrangements_cons (a : α) (rest : List α) :
    rearrangements (a :: rest) = (List.finRange (rest.length + 1)).flatMap fun i =>
      (rearrangements ((a :: rest).eraseIdx i.val)).map ((a :: rest).get i :: ·) := by
  rw [rearrangements]

theorem length_eraseIdx_cons (a : α) (rest : List α) (i : Fin (rest.length + 1)) :
    ((a :: rest).eraseIdx i.val).length = rest.length :=
  List.length_eraseIdx_of_lt i.isLt

/-- Induction over the lists without one of their items. -/
theorem eraseIdx_induction {motive : List α → Prop} (nil : motive [])
    (cons : ∀ a rest, (∀ i : Fin (rest.length + 1), motive ((a :: rest).eraseIdx i.val)) →
      motive (a :: rest)) (as : List α) : motive as := by
  induction h : as.length generalizing as with
  | zero => exact List.length_eq_zero_iff.1 h ▸ nil
  | succ n ih =>
    obtain ⟨a, rest, rfl⟩ := List.exists_cons_of_length_eq_add_one h
    refine cons a rest fun i => ih _ ?_
    rw [length_eraseIdx_cons]
    exact Nat.succ.inj h

/-- There are as many rearrangements as the factorial of the length says. -/
theorem length_rearrangements (as : List α) :
    (rearrangements as).length = factorialNat as.length := by
  induction as using eraseIdx_induction with
  | nil => rw [rearrangements_nil]; rfl
  | cons a rest ih =>
    simp only [rearrangements_cons, List.length_flatMap, List.length_map, ih, length_eraseIdx_cons,
      List.map_const', List.sum_replicate_nat, List.length_finRange]
    rfl

theorem factorialNat_eq (n : Nat) : factorialNat n = n.factorial := by
  induction n with
  | zero => rfl
  | succ n ih => rw [factorialNat, ih, Nat.factorial_succ]

/-- The listing has exactly the rearrangements. -/
theorem mem_rearrangements {as bs : List α} : bs ∈ rearrangements as ↔ bs.Perm as := by
  induction as using eraseIdx_induction generalizing bs with
  | nil => rw [rearrangements_nil, List.mem_singleton, List.perm_nil]
  | cons a rest ih =>
    simp only [rearrangements_cons, List.mem_flatMap, List.mem_map, ih]
    constructor
    · rintro ⟨i, -, cs, hcs, rfl⟩
      exact (hcs.cons _).trans (List.getElem_cons_eraseIdx_perm i.isLt)
    · intro h
      rcases bs with _ | ⟨b, bs⟩
      · exact absurd h.length_eq (by simp)
      -- The first item is one of the list, and the others are those without it.
      obtain ⟨i, hi, rfl⟩ := List.getElem_of_mem (h.mem_iff.1 List.mem_cons_self)
      refine ⟨⟨i, hi⟩, List.mem_finRange _, bs, ?_, rfl⟩
      exact (h.trans (List.getElem_cons_eraseIdx_perm hi).symm).cons_inv

/-- The listing, with the heads looked up by their places. -/
theorem rearrangements_eq_range (a : α) (rest : List α) :
    rearrangements (a :: rest) = (List.range (rest.length + 1)).flatMap fun i =>
      (rearrangements ((a :: rest).eraseIdx i)).map ((a :: rest)[i]?.toList ++ ·) := by
  rw [rearrangements_cons, ← List.map_coe_finRange_eq_range, List.flatMap_map]
  congr 1
  funext i
  rw [List.getElem?_eq_getElem i.isLt]
  rfl

/-- To rearrange the images of the items is to map the rearrangements. -/
theorem rearrangements_map (f : α → β) (as : List α) :
    rearrangements (as.map f) = (rearrangements as).map (List.map f) := by
  induction as using eraseIdx_induction with
  | nil => rw [List.map_nil, rearrangements_nil, rearrangements_nil]; rfl
  | cons a rest ih =>
    have hblock : ∀ i ∈ List.range (rest.length + 1),
        (rearrangements (((a :: rest).map f).eraseIdx i)).map
            (((a :: rest).map f)[i]?.toList ++ ·) =
          ((rearrangements ((a :: rest).eraseIdx i)).map ((a :: rest)[i]?.toList ++ ·)).map
            (List.map f) := fun i hi => by
      rw [List.eraseIdx_map, ih ⟨i, List.mem_range.1 hi⟩, List.getElem?_map]
      simp [Function.comp_def, Option.toList_map]
    rw [List.map_cons, rearrangements_eq_range, rearrangements_eq_range, List.map_flatMap,
      List.length_map]
    exact List.flatMap_congr hblock

/-- The rearrangements of an ascending list are in lexicographic order. -/
theorem pairwise_rearrangements [LinearOrder α] {as : List α} (h : as.Pairwise (· < ·)) :
    (rearrangements as).Pairwise (· < ·) := by
  induction as using eraseIdx_induction with
  | nil => rw [rearrangements_nil]; exact List.pairwise_singleton _ _
  | cons a rest ih =>
    rw [rearrangements_cons, List.pairwise_flatMap]
    refine ⟨fun i _ => ?_, ?_⟩
    · -- In a block, the heads are the same.
      rw [List.pairwise_map]
      exact (ih i (h.sublist (List.eraseIdx_sublist _ _))).imp fun hlt => List.Lex.cons hlt
    · -- Across blocks, the heads ascend.
      refine (List.pairwise_lt_finRange _).imp fun {i j} hij bs hbs cs hcs => ?_
      obtain ⟨bs, -, rfl⟩ := List.mem_map.1 hbs
      obtain ⟨cs, -, rfl⟩ := List.mem_map.1 hcs
      exact List.Lex.rel (List.pairwise_iff_getElem.1 h i j i.isLt j.isLt hij)

/-! ### Equal items -/

/-- A property that holds of as many items in each of some lists, and of none in the others. -/
theorem countP_flatMap_eq_mul {p : β → Bool} {q : α → Bool} {f : α → List β} {n : Nat} {as : List α}
    (h : ∀ a ∈ as, (f a).countP p = if q a then n else 0) :
    (as.flatMap f).countP p = as.countP q * n := by
  induction as with
  | nil => exact (Nat.zero_mul n).symm
  | cons a as ih =>
    rw [List.forall_mem_cons] at h
    rw [List.flatMap_cons, List.countP_append, h.1, ih h.2, List.countP_cons, Nat.add_mul,
      Nat.add_comm]
    split
    · rw [Nat.one_mul]
    · rw [Nat.zero_mul]

section

variable [DecidableEq α] {as bs : List α} {a : α}

/-- The number of ways to exchange equal items of a list. -/
def exchanges (as : List α) : Nat := ∏ a ∈ as.toFinset, (as.count a).factorial

/-- Items that do not occur can be exchanged in one way only. -/
theorem exchanges_eq_prod {s : Finset α} (h : as.toFinset ⊆ s) :
    exchanges as = ∏ a ∈ s, (as.count a).factorial := by
  refine Finset.prod_subset h fun a _ ha => ?_
  rw [List.count_eq_zero.2 (mt List.mem_toFinset.2 ha), Nat.factorial_zero]

theorem exchanges_perm (h : as.Perm bs) : exchanges as = exchanges bs := by
  rw [exchanges, exchanges, List.toFinset_eq_of_perm as bs h]
  exact Finset.prod_congr rfl fun a _ => by rw [h.count_eq]

/-- An item is exchanged for one that is equal to it, and then the others are exchanged. -/
theorem exchanges_eq_mul (h : a ∈ as) :
    exchanges as = as.count a * exchanges (as.erase a) := by
  have hsub : (as.erase a).toFinset ⊆ as.toFinset := fun b hb =>
    List.mem_toFinset.2 (List.mem_of_mem_erase (List.mem_toFinset.1 hb))
  have hmem := List.mem_toFinset.2 h
  have hothers : ∏ b ∈ as.toFinset.erase a, ((as.erase a).count b).factorial =
      ∏ b ∈ as.toFinset.erase a, (as.count b).factorial :=
    Finset.prod_congr rfl fun b hb => by rw [List.count_erase_of_ne (Finset.ne_of_mem_erase hb)]
  rw [exchanges_eq_prod hsub, exchanges, ← Finset.mul_prod_erase _ _ hmem,
    ← Finset.mul_prod_erase _ _ hmem, hothers, List.count_erase_self, ← mul_assoc,
    Nat.mul_factorial_pred (List.count_pos_iff.2 h).ne']

/-- Each rearrangement is listed as often as equal items can be exchanged. -/
theorem countP_rearrangements (h : bs.Perm as) :
    (rearrangements as).countP (· = bs) = exchanges as := by
  induction as using eraseIdx_induction generalizing bs with
  | nil =>
    obtain rfl := List.perm_nil.1 h
    rw [rearrangements_nil]
    rfl
  | cons a rest ih =>
    have hne : bs ≠ [] := by
      rintro rfl
      exact absurd h.length_eq (by simp)
    obtain ⟨b, tail, hbs⟩ := List.exists_cons_of_ne_nil hne
    have hmem : b ∈ a :: rest := h.mem_iff.1 (hbs ▸ List.mem_cons_self)
    -- In a block with the head `b`, the others are rearranged as those of `bs` are.
    have hblock : ∀ i ∈ List.finRange (rest.length + 1),
        ((rearrangements ((a :: rest).eraseIdx i.val)).map ((a :: rest).get i :: ·)).countP
          (· = bs) = if (a :: rest).get i == b then exchanges ((a :: rest).erase b) else 0 := by
      intro i _
      rw [List.countP_map]
      split
      · next hi =>
        have hperm : ((a :: rest).get i :: (a :: rest).eraseIdx i.val).Perm (a :: rest) :=
          List.getElem_cons_eraseIdx_perm i.isLt
        rw [beq_iff_eq] at hi
        rw [hi] at hperm
        have herase : ((a :: rest).eraseIdx i.val).Perm ((a :: rest).erase b) :=
          (hperm.trans (List.perm_cons_erase hmem)).cons_inv
        rw [← exchanges_perm herase, ← ih i (hbs ▸ h.trans hperm.symm).cons_inv]
        refine List.countP_congr fun cs _ => ?_
        rw [Function.comp_apply, decide_eq_true_eq, decide_eq_true_eq, hi, hbs, List.cons_inj_right]
      · next hi =>
        rw [List.countP_eq_zero]
        intro cs _ heq
        rw [Function.comp_apply, decide_eq_true_eq, hbs] at heq
        exact hi (beq_iff_eq.2 (List.cons.inj heq).1)
    have hheads : (List.finRange (rest.length + 1)).countP (fun i => (a :: rest).get i == b) =
        (a :: rest).count b := by
      conv_rhs => rw [← List.map_get_finRange (a :: rest), List.count_eq_countP, List.countP_map]
      rfl
    calc (rearrangements (a :: rest)).countP (· = bs)
        = (List.finRange (rest.length + 1)).countP (fun i => (a :: rest).get i == b) *
            exchanges ((a :: rest).erase b) := by
          rw [rearrangements_cons]
          exact countP_flatMap_eq_mul hblock
      _ = exchanges (a :: rest) := by rw [hheads, ← exchanges_eq_mul hmem]

end

/-! ## The next rearrangement -/

theorem nextLex?_cons {a : Nat} {tail next : List Nat} (h : nextLex? tail = some next) :
    nextLex? (a :: tail) = some (a :: next) := by
  rw [nextLex?, h]

/-- A list that nowhere ascends has no next rearrangement. -/
theorem nextLex?_of_descending {as : List Nat} (h : as.Pairwise (· ≥ ·)) :
    nextLex? as = none := by
  induction as with
  | nil => rfl
  | cons a tail ih =>
    obtain ⟨ha, htail⟩ := List.pairwise_cons.1 h
    have hlow : tail.reverse.dropWhile (· ≤ a) = [] := by
      rw [List.dropWhile_eq_nil_iff]
      exact fun b hb => decide_eq_true (ha b (List.mem_reverse.1 hb))
    simp only [nextLex?, ih htail, hlow]

/-- Where the tail nowhere ascends, the head gives way to the least greater item, and the
    others are put behind it in ascending order. -/
theorem nextLex?_turn {low high : List Nat} {a b : Nat} (hlow : ∀ x ∈ low, x ≤ a) (hab : a < b)
    (h : (low ++ b :: high).Pairwise (· ≤ ·)) :
    nextLex? (a :: (low ++ b :: high).reverse) = some (b :: (low ++ a :: high)) := by
  have hnone : nextLex? (low ++ b :: high).reverse = none :=
    nextLex?_of_descending (List.pairwise_reverse.2 h)
  have hle : ∀ x ∈ low, decide (x ≤ a) = true := fun x hx => decide_eq_true (hlow x hx)
  have hb : ¬ b ≤ a := Nat.not_le.2 hab
  have htake : (low ++ b :: high).takeWhile (· ≤ a) = low := by
    rw [List.takeWhile_append_of_pos hle, List.takeWhile_cons_of_neg (by simpa using hb),
      List.append_nil]
  have hdrop : (low ++ b :: high).dropWhile (· ≤ a) = b :: high := by
    rw [List.dropWhile_append_of_pos hle, List.dropWhile_cons_of_neg (by simpa using hb)]
  simp only [nextLex?, hnone, List.reverse_reverse, htake, hdrop, List.cons_append]

/-- So the last rearrangement with the item `i` in front is followed by the first one with
    the next item in front. -/
theorem nextLex?_eraseIdx {as : List Nat} (h : as.Pairwise (· < ·)) {i : Nat}
    (hi : i + 1 < as.length) :
    nextLex? (as[i] :: (as.eraseIdx i).reverse) = some (as[i + 1] :: as.eraseIdx (i + 1)) := by
  -- The list is split around both items.
  have hdrop : as.drop (i + 1) = as[i + 1] :: as.drop (i + 1 + 1) := List.drop_eq_getElem_cons hi
  have htake : as.take (i + 1) = as.take i ++ [as[i]] :=
    (List.take_append_getElem (Nat.lt_of_succ_lt hi)).symm
  have hsplit : as = as.take i ++ as[i] :: as[i + 1] :: as.drop (i + 1 + 1) := by
    rw [← hdrop, List.getElem_cons_drop, List.take_append_drop]
  rw [List.eraseIdx_eq_take_drop_succ, List.eraseIdx_eq_take_drop_succ, htake, hdrop,
    List.append_assoc]
  have hall : (as.take i ++ as[i] :: as[i + 1] :: as.drop (i + 1 + 1)).Pairwise (· < ·) :=
    hsplit ▸ h
  have hothers := hall.sublist (List.Sublist.append_left (List.sublist_cons_self _ _) (as.take i))
  obtain ⟨-, hright, hcross⟩ := List.pairwise_append.1 hall
  exact nextLex?_turn (fun x hx => (hcross x hx _ List.mem_cons_self).le)
    ((List.pairwise_cons.1 hright).1 _ List.mem_cons_self) (hothers.imp Nat.le_of_lt)

/-- `nextLex?` leads from the first list through all of the given ones to the last. -/
inductive Climb : List Nat → List (List Nat) → List Nat → Prop
  | stay (p : List Nat) : Climb p [p] p
  | step {p q z : List Nat} {ps : List (List Nat)} :
    nextLex? p = some q → Climb q ps z → Climb p (p :: ps) z

namespace Climb

variable {p q y z : List Nat} {ps qs : List (List Nat)}

/-- Behind the same head, the tails climb as they do alone. -/
theorem cons (a : Nat) (h : Climb p ps z) : Climb (a :: p) (ps.map (a :: ·)) (a :: z) := by
  induction h with
  | stay p => exact .stay (a :: p)
  | step hnext _ ih => exact .step (nextLex?_cons hnext) ih

theorem append (h : Climb p ps z) (hturn : nextLex? z = some q) (h' : Climb q qs y) :
    Climb p (ps ++ qs) y := by
  induction h with
  | stay p => exact .step hturn h'
  | step hnext _ ih => exact .step hnext (ih hturn)

/-- Blocks that climb make a climb, if each leads to the next. -/
theorem flatMap {n : Nat} {first last : Fin (n + 1) → List Nat}
    {block : Fin (n + 1) → List (List Nat)} (hblock : ∀ i, Climb (first i) (block i) (last i))
    (hturn : ∀ i : Fin n, nextLex? (last i.castSucc) = some (first i.succ)) :
    Climb (first 0) ((List.finRange (n + 1)).flatMap block) (last (Fin.last n)) := by
  induction n with
  | zero => simpa [List.finRange_succ] using hblock 0
  | succ n ih =>
    rw [List.finRange_succ, List.flatMap_cons, List.flatMap_map]
    exact (hblock 0).append (hturn 0)
      (ih (fun i => hblock i.succ) fun i => hturn i.succ)

end Climb

/-- The rearrangements of an ascending list climb from the list to its reverse. -/
theorem climb_rearrangements {as : List Nat} (h : as.Pairwise (· < ·)) :
    Climb as (rearrangements as) as.reverse := by
  induction as using eraseIdx_induction with
  | nil => rw [rearrangements_nil]; exact .stay []
  | cons a rest ih =>
    have hblock (i : Fin (rest.length + 1)) := (ih i
      (h.sublist (List.eraseIdx_sublist _ _))).cons ((a :: rest).get i)
    have hturn (i : Fin rest.length) := nextLex?_eraseIdx h (Nat.succ_lt_succ i.isLt)
    -- In the last block the head is the greatest item, and the others descend behind it.
    have hlast : (a :: rest).get (Fin.last rest.length) ::
        ((a :: rest).eraseIdx (Fin.last rest.length).val).reverse = (a :: rest).reverse := by
      have hget : (a :: rest).get (Fin.last rest.length) =
          (a :: rest).getLast (List.cons_ne_nil a rest) := by
        rw [List.getLast_eq_getElem]
        rfl
      rw [hget, Fin.val_last, List.eraseIdx_eq_dropLast rfl, ← List.reverse_concat,
        List.dropLast_concat_getLast]
    rw [rearrangements_cons, ← hlast]
    exact Climb.flatMap hblock hturn

end DigitReach

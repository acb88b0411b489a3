import DigitReach.Proofs.Histories

/-!
# What offers change

Of the expressions that a registry is offered, some change it: `Registry.replies` says of each
offer whether it does, and how, and `Registry.changes` lists the changes alone. The changes of
one target come down from the first to the last (`Descent`): each replaces the answer that
stands, which is the one before it has given, by one that ranks lower. Since ranks go from `0`
to `5`, there are few of them.

* `Registry.descent_changes`: the changes of a target lead from the answer before the offers to
  the answer after;
* `Registry.foldl_record_changes`: all changes, made once more, lead from the registry before
  the offers to the registry after;
* `Registry.length_changes_le`: with each change, there is less *room* for others
  (`Answer.room`);
* `Registry.size_afterAll`: a target gets its first answer by a change that replaces none;
* `Registry.Covers.replies`: an offer that changes a registry also changes one that knows less.
-/

namespace DigitReach

/-! ## Ranks -/

/-- Ranks go up to `5`. -/
theorem Expr.rank_le (e : Expr) : e.rank ≤ 5 := by
  induction e with
  | constant x => exact Nat.zero_le 5
  | concat l r _ _ => exact le_rfl
  | sqrt e ih | factorial e ih => exact max_le ih (by decide)
  | binary o l r ihl ihr => exact max_le (max_le ihl ihr) (by cases o <;> decide)

namespace Answer

/-- How often an answer can give way to one that ranks lower, ranks being at most `5`. -/
def room : Option Answer → Nat
  | none => 6
  | some answer => answer.rank

/-- The rank of an answer. Where there is none, it is beyond all ranks. -/
def rankOf : Option Answer → WithTop Nat
  | none => ⊤
  | some answer => answer.rank

/-- The better of two answers has the lower rank. -/
theorem rankOf_better (a b : Option Answer) :
    rankOf (better a b) = min (rankOf a) (rankOf b) := by
  rcases a with _ | a
  · rw [better_none_left, rankOf, min_eq_right le_top]
  rcases b with _ | b
  · rw [better_none_right, rankOf, rankOf, min_eq_left le_top]
  rw [better_some]
  split
  · next hlt => exact (min_eq_right (WithTop.coe_le_coe.2 hlt.le)).symm
  · next hge => exact (min_eq_left (WithTop.coe_le_coe.2 (Nat.le_of_not_lt hge))).symm

end Answer

/-! ## Changes of one target -/

/-- The changes of the answer to a number. -/
def changesOf (n : Nat) (cs : List Change) : List Change := cs.filter (·.target.val = n)

/-- The change `d` replaces the answer to `n` that the change `c` has given. -/
structure Change.Replaces (n : Nat) (d c : Change) : Prop where
  target : d.target.val = n
  former : d.former = some c.answer.rank
  lower : d.answer.rank < c.answer.rank

/-- Changes of the answer to a number, one after the other, from the answer that stands at
    first to the one that stands in the end. -/
inductive Descent (n : Nat) : Option Answer → List Change → Option Answer → Prop
  | stay (a : Option Answer) : Descent n a [] a
  | step {a b : Option Answer} {c : Change} {cs : List Change} (htarget : c.target.val = n)
      (hformer : c.former = a.map Answer.rank) (hlower : c.answer.rank < Answer.room a)
      (hrest : Descent n (some c.answer) cs b) : Descent n a (c :: cs) b

namespace Descent

variable {n : Nat} {a b : Option Answer} {cs : List Change}

/-- The first change replaces the answer that stands at first. -/
theorem of_mem_head? (h : Descent n a cs b) {c : Change} (hc : c ∈ cs.head?) :
    c.target.val = n ∧ c.former = a.map Answer.rank ∧ c.answer.rank < Answer.room a := by
  cases h with
  | stay => cases hc
  | step htarget hformer hlower _ =>
    cases hc
    exact ⟨htarget, hformer, hlower⟩

/-- Each other change replaces what the one before it has given. -/
theorem isChain (h : Descent n a cs b) : cs.IsChain fun c d => d.Replaces n c := by
  induction h with
  | stay => exact .nil
  | step _ _ _ hrest ih =>
    refine List.isChain_cons.2 ⟨fun d hd => ?_, ih⟩
    obtain ⟨htarget, hformer, hlower⟩ := hrest.of_mem_head? hd
    exact ⟨htarget, hformer, hlower⟩

/-- The ranks go down. -/
theorem pairwise (h : Descent n a cs b) :
    cs.Pairwise fun c d => d.answer.rank < c.answer.rank := by
  have htrans : IsTrans Change fun c d => d.answer.rank < c.answer.rank :=
    ⟨fun _ _ _ hcd hde => hde.trans hcd⟩
  exact (h.isChain.imp fun _ _ hreplaces => hreplaces.lower).pairwise

/-- Each change takes some of the room. -/
theorem length_add_room_le (h : Descent n a cs b) :
    cs.length + Answer.room b ≤ Answer.room a := by
  induction h with
  | stay => exact (Nat.zero_add _).le
  | @step a b c cs _ _ hlower _ ih =>
    calc (c :: cs).length + Answer.room b = cs.length + Answer.room b + 1 := by
          rw [List.length_cons, Nat.add_right_comm]
      _ ≤ c.answer.rank + 1 := Nat.succ_le_succ ih
      _ ≤ Answer.room a := hlower

/-- Once there is an answer, there always is. -/
theorem eq_none (h : Descent n a cs b) (hb : b = none) : a = none ∧ cs = [] := by
  induction h with
  | stay => exact ⟨hb, rfl⟩
  | step _ _ _ _ ih => cases (ih hb).1

/-- A first answer takes a change. -/
theorem ne_nil {answer : Answer} (h : Descent n none cs (some answer)) : cs ≠ [] := by
  rintro rfl
  cases h

/-- Only a first answer replaces none. -/
theorem countP_isNone (h : Descent n a cs b) :
    a.isSome.toNat + cs.countP (·.former.isNone) = b.isSome.toNat := by
  induction h with
  | stay => rfl
  | @step a b c cs _ hformer _ _ ih =>
    rw [← ih, List.countP_cons, hformer, Option.isNone_map]
    cases a <;> simp [Nat.add_comm]

end Descent

namespace Registry

/-! ## Replies and changes -/

/-- The replies to the offers of some expressions, one after the other. -/
def replies (r : Registry) : List Expr → List (Option Change)
  | [] => []
  | e :: es => (r.offer e).2 :: (r.after e).replies es

/-- The changes that the offers of some expressions make, one after the other. -/
def changes (r : Registry) (es : List Expr) : List Change := (r.replies es).reduceOption

variable {r s : Registry} {e : Expr} {es : List Expr} {c : Change}

theorem snd_offer (r : Registry) (e : Expr) : (r.offer e).2 = r.change? e := by
  rw [offer]
  rcases r.change? e with _ | c <;> rfl

theorem changes_cons (r : Registry) (e : Expr) (es : List Expr) :
    r.changes (e :: es) = (r.offer e).2.toList ++ (r.after e).changes es := by
  rw [changes, replies]
  rcases (r.offer e).2 with _ | c
  · exact List.reduceOption_cons_of_none _
  · exact List.reduceOption_cons_of_some _ _

theorem changes_cons_of_change (h : r.change? e = some c) :
    r.changes (e :: es) = c :: (r.record c).changes es := by
  rw [changes_cons, snd_offer, h, after_of_change h]
  rfl

theorem changes_cons_of_no_change (h : r.change? e = none) :
    r.changes (e :: es) = r.changes es := by
  rw [changes_cons, snd_offer, h, after_of_no_change h]
  rfl

theorem changes_append (r : Registry) (es es' : List Expr) :
    r.changes (es ++ es') = r.changes es ++ (r.afterAll es).changes es' := by
  induction es generalizing r with
  | nil => rfl
  | cons e es ih =>
    rw [List.cons_append, changes_cons, changes_cons, ih, List.append_assoc, afterAll_cons]

theorem length_changes (r : Registry) (es : List Expr) :
    (r.changes es).length = (r.replies es).countP Option.isSome := by
  rw [changes, List.reduceOption_length_eq, List.countP_eq_length_filter]

/-- The changes, made once more, lead to the same registry. -/
theorem foldl_record_changes (r : Registry) (es : List Expr) :
    (r.changes es).foldl record r = r.afterAll es := by
  induction es generalizing r with
  | nil => rfl
  | cons e es ih =>
    rw [afterAll_cons]
    rcases hchange : r.change? e with _ | c
    · rw [changes_cons_of_no_change hchange, after_of_no_change hchange, ih]
    · rw [changes_cons_of_change hchange, after_of_change hchange, List.foldl_cons, ih]

/-- A change is lower than what it replaces. -/
theorem rank_lt_room (h : r.change? e = some c) :
    c.answer.rank < Answer.room (r.get? c.target.val) := by
  obtain ⟨-, hanswer, -, hlower⟩ := change?_eq_some_iff.1 h
  rw [hanswer]
  rcases hold : r.get? c.target.val with _ | old
  · exact Nat.lt_succ_of_le e.rank_le
  · exact hlower old hold

/-- The changes of the answer to a number lead from the answer before the offers to the answer
    after. -/
theorem descent_changes (r : Registry) (es : List Expr) (n : Nat) :
    Descent n (r.get? n) (changesOf n (r.changes es)) ((r.afterAll es).get? n) := by
  induction es generalizing r with
  | nil => exact .stay _
  | cons e es ih =>
    rw [afterAll_cons]
    rcases hchange : r.change? e with _ | c
    · rw [changes_cons_of_no_change hchange, after_of_no_change hchange]
      exact ih r
    · have hrest := ih (r.record c)
      rw [get?_record] at hrest
      rw [changes_cons_of_change hchange, after_of_change hchange, changesOf]
      by_cases hn : n = c.target.val
      · subst hn
        rw [if_pos rfl] at hrest
        rw [List.filter_cons_of_pos (by simp)]
        exact .step rfl (change?_eq_some_iff.1 hchange).2.2.1 (rank_lt_room hchange) hrest
      · -- A change of another target is left out, and does not touch the answer to `n`.
        rw [if_neg hn] at hrest
        rw [List.filter_cons_of_neg (by simpa using Ne.symm hn)]
        exact hrest

/-! ## Changes of all targets -/

/-- Changes are counted target by target. -/
theorem countP_eq_sum (p : Change → Bool) (cs : List Change) :
    cs.countP p = ∑ target : Target, (changesOf target.val cs).countP p := by
  simp only [changesOf, List.countP_filter, Fin.val_inj]
  induction cs with
  | nil => simp
  | cons c cs ih =>
    simp only [List.countP_cons, Finset.sum_add_distrib, ← ih, Bool.and_eq_true, decide_eq_true_eq]
    by_cases hc : p c <;> simp [hc]

theorem size_eq_sum (r : Registry) :
    r.size = ∑ target : Target, (r.get? target.val).isSome.toNat := by
  have hcount (targets : List Target) : targets.countP (fun target => r.answers[target].isSome) =
      (targets.map fun target => (r.get? target.val).isSome.toNat).sum := by
    induction targets with
    | nil => rfl
    | cons target targets ih =>
      rw [List.countP_cons, ih, List.map_cons, List.sum_cons, get?_target r target.isLt, Nat.add_comm]
      cases r.answers[target].isSome <;> rfl
  rw [Fin.sum_univ_def, ← hcount, size, entries, List.length_filterMap_eq_countP]
  simp only [Option.isSome_map]

theorem size_empty : empty.size = 0 := by
  rw [size_eq_sum]
  simp

/-- Targets are reached by the changes that replace no answer. -/
theorem size_afterAll (r : Registry) (es : List Expr) :
    (r.afterAll es).size = r.size + (r.changes es).countP (·.former.isNone) := by
  rw [size_eq_sum, size_eq_sum, countP_eq_sum, ← Finset.sum_add_distrib]
  exact Finset.sum_congr rfl fun target _ => (r.descent_changes es target.val).countP_isNone.symm

/-- There are at most as many changes as there is room. -/
theorem length_changes_le (r : Registry) (es : List Expr) :
    (r.changes es).length ≤ ∑ target : Target, Answer.room (r.get? target.val) := by
  rw [← List.countP_true, countP_eq_sum]
  refine Finset.sum_le_sum fun target _ => ?_
  rw [List.countP_true]
  exact (Nat.le_add_right _ _).trans (r.descent_changes es target.val).length_add_room_le

theorem length_changes_empty_le (es : List Expr) : (empty.changes es).length ≤ 606 := by
  refine (length_changes_le empty es).trans ?_
  simp [Answer.room, maxTarget]

/-! ## Registries that know more -/

/-- The registry has an answer wherever the other one has, and ranks no higher. -/
def Covers (r s : Registry) : Prop :=
  ∀ n, Answer.rankOf (r.get? n) ≤ Answer.rankOf (s.get? n)

theorem covers_empty (r : Registry) : r.Covers empty := fun n => by
  rw [get?_empty]
  exact le_top

namespace Covers

theorem after (h : r.Covers s) (e : Expr) : (r.after e).Covers (s.after e) := fun n => by
  rw [get?_after, get?_after, Answer.rankOf_better, Answer.rankOf_better]
  exact min_le_min_right _ (h n)

/-- What changes nothing in a registry changes nothing in one that knows more. -/
theorem change?_eq_none (h : r.Covers s) (hs : s.change? e = none) : r.change? e = none := by
  refine change?_eq_none_iff.2 fun n hn => ?_
  obtain ⟨old, hold, hrank⟩ := change?_eq_none_iff.1 hs n hn
  have hle := h n
  rw [hold] at hle
  rcases hr : r.get? n with _ | answer
  · rw [hr] at hle
    exact absurd hle (by simp [Answer.rankOf])
  · rw [hr] at hle
    exact ⟨answer, rfl, (WithTop.coe_le_coe.1 hle).trans hrank⟩

/-- Of the offers of the same expressions, those that change the one registry also change the
    other. -/
theorem replies (h : r.Covers s) (es : List Expr) :
    List.Forall₂ (fun reply reply' => reply.isSome → reply'.isSome) (r.replies es)
      (s.replies es) := by
  induction es generalizing r s with
  | nil => exact .nil
  | cons e es ih =>
    refine .cons (fun hreply => ?_) (ih (h.after e))
    rw [snd_offer] at hreply ⊢
    by_contra hnone
    rw [Option.not_isSome_iff_eq_none] at hnone
    rw [h.change?_eq_none hnone] at hreply
    cases hreply

theorem length_changes_le (h : r.Covers s) (es : List Expr) :
    (r.changes es).length ≤ (s.changes es).length := by
  have hreplies := h.replies es
  rw [length_changes, length_changes]
  generalize r.replies es = replies, s.replies es = replies' at hreplies ⊢
  induction hreplies with
  | nil => exact le_rfl
  | @cons reply reply' replies replies' hreply _ ih =>
    rw [List.countP_cons, List.countP_cons]
    refine Nat.add_le_add ih ?_
    split
    · next hsome => rw [if_pos (hreply hsome)]
    · exact Nat.zero_le _

end Covers

end Registry

end DigitReach

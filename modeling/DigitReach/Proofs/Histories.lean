import DigitReach.Proofs.Registry

/-!
# Histories of registries

A registry forgets all expressions but the winners. Its *history* is the list of the
expressions that it has been offered, directly or by way of registries that were merged
into it. What a registry knows is a function of its history: to each number it gives the
answer of the first expression of the least rank (`IsFirstBest`) among those of the
history that reach the number (`Registry.Summarizes`).

* `Registry.get?_afterAll` and `Registry.merge_afterAll` say what offers add to a
  registry, and that a merge adds what the offers of the other history would add;
* `Keeper.run` runs *commands* (make, clone, offer, merge) on any number of registries,
  and on their histories; by `Keeper.map_run` both runs correspond at every step;
* `summarizes_run` is the result: after any commands, each registry summarises its
  history, an offer reports a change exactly if there is one, and a merge does what the
  offers of the later history do one by one.
-/

namespace DigitReach

/-! ## The first of the best -/

/-- Of the expressions of a history that reach `n`, `e` is the first of the least rank:
    those in front of it rank higher, and those behind it no lower. -/
def IsFirstBest (n : Nat) (history : List Expr) (e : Expr) : Prop :=
  ∃ before behind, history = before ++ e :: behind ∧ e.Reaches n ∧
    (∀ x ∈ before, x.Reaches n → e.rank < x.rank) ∧
    ∀ x ∈ behind, x.Reaches n → e.rank ≤ x.rank

/-- The registry gives to each number the answer of the first expression of the least
    rank among those of the history that reach it, and none if there is no such. -/
structure Registry.Summarizes (r : Registry) (history : List Expr) : Prop where
  get?_eq_none_iff : ∀ n, r.get? n = none ↔ ∀ e ∈ history, ¬ e.Reaches n
  get?_eq_some_iff : ∀ n a, r.get? n = some a ↔ ∃ e, IsFirstBest n history e ∧ e.answer = a

/-- The best answer of some expressions to a number. -/
def bestAnswer? (n : Nat) : List Expr → Option Answer
  | [] => none
  | e :: es => Answer.better (e.answerTo? n) (bestAnswer? n es)

section

variable {n : Nat} {e : Expr} {es : List Expr}

theorem bestAnswer?_append (n : Nat) (es es' : List Expr) :
    bestAnswer? n (es ++ es') = Answer.better (bestAnswer? n es) (bestAnswer? n es') := by
  induction es with
  | nil => rw [List.nil_append, bestAnswer?, Answer.better_none_left]
  | cons e es ih => rw [List.cons_append, bestAnswer?, ih, bestAnswer?, Answer.better_assoc]

theorem bestAnswer?_eq_none_iff : bestAnswer? n es = none ↔ ∀ e ∈ es, ¬ e.Reaches n := by
  induction es with
  | nil => simp [bestAnswer?]
  | cons e es ih =>
    rw [bestAnswer?, Answer.better_eq_none_iff, ih, List.forall_mem_cons, Expr.answerTo?]
    split
    · next h => simp [h]
    · next h => simp [h]

/-- A best answer is given by one of the expressions. -/
theorem exists_of_bestAnswer? {a : Answer} (h : bestAnswer? n es = some a) :
    ∃ e ∈ es, e.Reaches n ∧ e.answer = a := by
  induction es with
  | nil => cases h
  | cons e es ih =>
    rw [bestAnswer?] at h
    rcases Answer.eq_or_eq_of_better h with h | h
    · rw [Expr.answerTo?] at h
      split at h
      · next hreaches => exact ⟨e, List.mem_cons_self, hreaches, Option.some.inj h⟩
      · cases h
    · obtain ⟨x, hx, hreaches⟩ := ih h
      exact ⟨x, List.mem_cons_of_mem e hx, hreaches⟩

theorem IsFirstBest.mem (h : IsFirstBest n es e) : e ∈ es := by
  obtain ⟨before, behind, rfl, -⟩ := h
  exact List.mem_append_right _ List.mem_cons_self

theorem IsFirstBest.reaches (h : IsFirstBest n es e) : e.Reaches n := by
  obtain ⟨before, behind, -, hreaches, -⟩ := h
  exact hreaches

/-- The first of the best is of the least rank. -/
theorem IsFirstBest.rank_le {x : Expr} (h : IsFirstBest n es e) (hx : x ∈ es)
    (hreaches : x.Reaches n) : e.rank ≤ x.rank := by
  obtain ⟨before, behind, rfl, -, hbefore, hbehind⟩ := h
  rcases List.mem_append.1 hx with hx | hx
  · exact (hbefore x hx hreaches).le
  · rcases List.mem_cons.1 hx with rfl | hx
    · exact le_rfl
    · exact hbehind x hx hreaches

/-- The first of the best gives the best answer. -/
theorem IsFirstBest.bestAnswer? (h : IsFirstBest n es e) : bestAnswer? n es = some e.answer := by
  obtain ⟨before, behind, rfl, hreaches, hbefore, hbehind⟩ := h
  have hkeeps : Answer.better (some e.answer) (DigitReach.bestAnswer? n behind) =
      some e.answer := by
    rw [Answer.better_eq_left_iff]
    intro later hlater
    obtain ⟨x, hx, hxn, rfl⟩ := exists_of_bestAnswer? hlater
    exact hbehind x hx hxn
  -- What is in front of `e`, if it reaches `n` at all, ranks higher.
  rw [bestAnswer?_append, DigitReach.bestAnswer?, Expr.answerTo?, if_pos hreaches, hkeeps]
  rcases hold : DigitReach.bestAnswer? n before with _ | old
  · rw [Answer.better_none_left]
  · obtain ⟨x, hx, hxn, rfl⟩ := exists_of_bestAnswer? hold
    exact if_pos (hbefore x hx hxn)

/-- Among expressions of which one reaches a number, there is a first of the best. -/
theorem exists_isFirstBest (h : ∃ e ∈ es, e.Reaches n) : ∃ e, IsFirstBest n es e := by
  induction es with
  | nil => obtain ⟨e, he, -⟩ := h; exact absurd he List.not_mem_nil
  | cons x xs ih =>
    by_cases hxs : ∃ e ∈ xs, e.Reaches n
    · obtain ⟨e, before, behind, rfl, hreaches, hbefore, hbehind⟩ := ih hxs
      -- The first expression takes the place of the best of the others on a tie.
      by_cases hx : x.Reaches n ∧ x.rank ≤ e.rank
      · refine ⟨x, [], _, rfl, hx.1, by simp, fun y hy hyn => ?_⟩
        rcases List.mem_append.1 hy with hy | hy
        · exact Nat.le_trans hx.2 (Nat.le_of_lt (hbefore y hy hyn))
        · rcases List.mem_cons.1 hy with rfl | hy
          · exact hx.2
          · exact Nat.le_trans hx.2 (hbehind y hy hyn)
      · refine ⟨e, x :: before, behind, rfl, hreaches, fun y hy hyn => ?_, hbehind⟩
        rcases List.mem_cons.1 hy with rfl | hy
        · exact Nat.lt_of_not_le fun hle => hx ⟨hyn, hle⟩
        · exact hbefore y hy hyn
    · obtain ⟨e, he, hreaches⟩ := h
      rcases List.mem_cons.1 he with rfl | he
      · exact ⟨e, [], xs, rfl, hreaches, by simp, fun y hy hyn => absurd ⟨y, hy, hyn⟩ hxs⟩
      · exact absurd ⟨e, he, hreaches⟩ hxs

theorem bestAnswer?_eq_some_iff {a : Answer} :
    bestAnswer? n es = some a ↔ ∃ e, IsFirstBest n es e ∧ e.answer = a := by
  constructor
  · intro h
    obtain ⟨x, hx, hreaches, -⟩ := exists_of_bestAnswer? h
    obtain ⟨e, he⟩ := exists_isFirstBest ⟨x, hx, hreaches⟩
    exact ⟨e, he, Option.some.inj (he.bestAnswer?.symm.trans h)⟩
  · rintro ⟨e, he, rfl⟩
    exact he.bestAnswer?

end

/-! ## Offers and merges in terms of histories -/

namespace Registry

/-- Offers set the best of the expressions against the answer that stands. -/
theorem get?_afterAll (r : Registry) (es : List Expr) (n : Nat) :
    (r.afterAll es).get? n = Answer.better (r.get? n) (bestAnswer? n es) := by
  induction es generalizing r with
  | nil => rw [afterAll_nil, bestAnswer?, Answer.better_none_right]
  | cons e es ih => rw [afterAll_cons, ih, get?_after, Answer.better_assoc, bestAnswer?]

/-- A merge does what the offers of the later history do one by one. -/
theorem merge_afterAll (r : Registry) (es : List Expr) :
    r.merge (empty.afterAll es) = r.afterAll es :=
  ext_get? fun n => by
    rw [get?_merge, get?_afterAll, get?_afterAll, get?_empty, Answer.better_none_left]

/-- The registry that was offered a history summarises it. -/
theorem summarizes_afterAll (history : List Expr) :
    (empty.afterAll history).Summarizes history := by
  have hget (n : Nat) : (empty.afterAll history).get? n = bestAnswer? n history := by
    rw [get?_afterAll, get?_empty, Answer.better_none_left]
  exact ⟨fun n => by rw [hget, bestAnswer?_eq_none_iff],
    fun n a => by rw [hget, bestAnswer?_eq_some_iff]⟩

end Registry

/-! ## Runs with any number of registries -/

/-- A command to a row of registries, which are known by their places. A command that
    names a place where there is none does nothing. -/
inductive Command where
  /-- Makes an empty registry, at the end of the row. -/
  | new
  /-- Makes a copy of a registry, at the end of the row. -/
  | clone (i : Nat)
  /-- Offers an expression to a registry. -/
  | offer (i : Nat) (e : Expr)
  /-- Merges a copy of the registry `j` into the registry `i`. -/
  | merge (i j : Nat)

/-- What commands do to what is kept in the row. -/
structure Keeper (α : Type) where
  /-- What is kept at first. -/
  empty : α
  /-- What is kept after an offer. -/
  offer : α → Expr → α
  /-- What is kept after a merge. -/
  merge : α → α → α

namespace Keeper

variable {α β : Type}

/-- Carries out a command. -/
def step (k : Keeper α) (row : List α) : Command → List α
  | .new => row ++ [k.empty]
  | .clone i => row ++ row[i]?.toList
  | .offer i e => row.modify i (k.offer · e)
  | .merge i j => row[j]?.elim row fun later => row.modify i (k.merge · later)

/-- Carries out commands, one after the other, from an empty row. -/
def run (k : Keeper α) (commands : List Command) : List α := commands.foldl k.step []

/-- Keeps the registries. -/
def registries : Keeper Registry := ⟨.empty, .after, .merge⟩

/-- Keeps their histories. -/
def histories : Keeper (List Expr) := ⟨[], fun history e => history ++ [e], (· ++ ·)⟩

/-- A map from what one keeper keeps to what another one does, in step with both. -/
structure Map (k : Keeper α) (l : Keeper β) (f : α → β) : Prop where
  empty : f k.empty = l.empty
  offer : ∀ a e, f (k.offer a e) = l.offer (f a) e
  merge : ∀ a b, f (k.merge a b) = l.merge (f a) (f b)

theorem map_modify {α β : Type*} {f : α → β} {g : α → α} {g' : β → β}
    (h : ∀ a, f (g a) = g' (f a)) (row : List α) (i : Nat) :
    (row.modify i g).map f = (row.map f).modify i g' := by
  induction row generalizing i with
  | nil => rw [List.modify_nil, List.map_nil, List.modify_nil]
  | cons a row ih =>
    cases i with
    | zero => simp [h]
    | succ i => simp [ih]

theorem Map.step {k : Keeper α} {l : Keeper β} {f : α → β} (h : Map k l f) (row : List α)
    (c : Command) : (k.step row c).map f = l.step (row.map f) c := by
  cases c with
  | new => simp [Keeper.step, h.empty]
  | clone i => simp [Keeper.step, Option.toList_map]
  | offer i e => exact map_modify (h.offer · e) row i
  | merge i j =>
    rw [Keeper.step, Keeper.step, List.getElem?_map]
    rcases row[j]? with _ | later
    · rfl
    · exact map_modify (h.merge · later) row i

/-- Runs stay in step. -/
theorem Map.run {k : Keeper α} {l : Keeper β} {f : α → β} (h : Map k l f)
    (commands : List Command) : (k.run commands).map f = l.run commands := by
  induction commands using List.reverseRecOn with
  | nil => rfl
  | append_singleton commands c ih =>
    rw [Keeper.run, Keeper.run, List.foldl_append, List.foldl_append]
    exact (h.step _ c).trans (congrArg (l.step · c) ih)

/-- A history gives the registry that was offered all of it. -/
theorem map_afterAll : Map histories registries Registry.empty.afterAll where
  empty := rfl
  offer history e := Registry.afterAll_append .empty history [e]
  merge history later := (Registry.afterAll_append .empty history later).trans
    ((Registry.empty.afterAll history).merge_afterAll later).symm

/-- Offers to one registry, one after the other. -/
theorem run_offers (commands : List Command) (i : Nat) (es : List Expr) :
    registries.run (commands ++ es.map (.offer i)) =
      (registries.run commands).modify i (Registry.afterAll · es) := by
  induction es using List.reverseRecOn with
  | nil =>
    rw [List.map_nil, List.append_nil]
    exact (List.modify_id i _).symm
  | append_singleton es e ih =>
    rw [List.map_append, ← List.append_assoc, run, List.foldl_append]
    change (registries.run _).modify i (Registry.after · e) = _
    rw [ih, List.modify_modify_eq]
    congr 1
    funext r
    exact (r.afterAll_append es [e]).symm

end Keeper

/-- After any commands, each registry summarises its history. Moreover, an offer to any
    registry reports a change exactly if there is one; and the merge of `j` into `i` does
    what the offers of the history of `j` to `i` do one by one. -/
theorem summarizes_run (commands : List Command) :
    List.Forall₂ Registry.Summarizes (Keeper.registries.run commands)
        (Keeper.histories.run commands) ∧
      (∀ (r : Registry) (e : Expr), (r.offer e).2.isSome ↔ (r.offer e).1 ≠ r) ∧
      ∀ i j, Keeper.registries.run (commands ++ [.merge i j]) =
        Keeper.registries.run
          (commands ++ ((Keeper.histories.run commands)[j]?.getD []).map (.offer i)) := by
  have hmap := Keeper.map_afterAll.run commands
  refine ⟨?_, Registry.offer_changes_iff, fun i j => ?_⟩
  · rw [← hmap, List.forall₂_map_left_iff, List.forall₂_same]
    exact fun history _ => Registry.summarizes_afterAll history
  · -- If there is no registry `j`, nothing is merged, and nothing is offered.
    rw [Keeper.run_offers, Keeper.run, List.foldl_append]
    change Keeper.registries.step (Keeper.registries.run commands) (.merge i j) = _
    rw [Keeper.step, ← hmap, List.getElem?_map]
    rcases (Keeper.histories.run commands)[j]? with _ | later
    · exact (List.modify_id ..).symm
    · refine congrArg (List.modify _ i ·) ?_
      funext r
      exact r.merge_afterAll later

end DigitReach

import DigitReach.Proofs.Chronicle

/-!
# Repetitions

A registry *knows* an expression if an offer of it would change nothing (`Registry.Knows`). After
an offer, the registry knows the expression, and what a registry knows it does not forget, since
its answers get none but lower ranks. So what comes again costs time only:

* `Registry.replies_of_knows`, `Registry.afterAll_of_knows`: the offers of expressions that are
  known, in whatever order, are refused, and change nothing;
* `Keeper.knows_run`: after any commands, a registry knows its history, and
  `Keeper.exists_subset_foldl` says that no command takes anything from a history;
* `InTurn.getElem?_eq_of_repeated`: orderings with the same digits have the same candidates, so
  a search in turn finds nothing new in the second one;
* `repetitions_change_nothing` puts both together.
-/

namespace DigitReach

/-! ## What a registry knows -/

namespace Registry

variable {r s : Registry} {e : Expr} {es : List Expr}

/-- An offer of the expression would change nothing. -/
def Knows (r : Registry) (e : Expr) : Prop := r.change? e = none

theorem knows_after (r : Registry) (e : Expr) : (r.after e).Knows e := by
  rcases hchange : r.change? e with _ | c
  · rwa [after_of_no_change hchange]
  · obtain ⟨hreaches, hanswer, -, -⟩ := change?_eq_some_iff.1 hchange
    rw [after_of_change hchange]
    refine change?_eq_none_iff.2 fun n hn => ⟨c.answer, ?_, ?_⟩
    · rw [get?_record, if_pos (hn.unique hreaches)]
    · rw [hanswer]
      exact le_rfl

/-- A registry that is offered something knows more. -/
theorem covers_afterAll (r : Registry) (es : List Expr) : (r.afterAll es).Covers r := by
  intro n
  rw [get?_afterAll, Answer.rankOf_better]
  exact min_le_left _ _

/-- And it knows what it was offered. -/
theorem knows_afterAll (r : Registry) (h : e ∈ es) : (r.afterAll es).Knows e := by
  obtain ⟨before, behind, rfl⟩ := List.append_of_mem h
  -- Right after its own offer `e` is known, and so it is after those behind it.
  rw [afterAll_append, afterAll_cons]
  exact (covers_afterAll _ behind).change?_eq_none (knows_after _ e)

/-- Nothing that is known changes the registry. -/
theorem afterAll_of_knows (h : ∀ e ∈ es, r.Knows e) : r.afterAll es = r := by
  induction es with
  | nil => rfl
  | cons e es ih =>
    rw [List.forall_mem_cons] at h
    rw [afterAll_cons, after_of_no_change h.1, ih h.2]

/-- Offers of what is known are refused, every time. -/
theorem replies_of_knows (h : ∀ e ∈ es, r.Knows e) :
    r.replies es = List.replicate es.length none := by
  induction es with
  | nil => rfl
  | cons e es ih =>
    rw [List.forall_mem_cons] at h
    rw [replies, snd_offer, after_of_no_change h.1, ih h.2, h.1, List.length_cons,
      List.replicate_succ]

end Registry

/-! ## Histories -/

namespace Keeper

/-- After any commands, each registry knows its history. -/
theorem knows_run {commands : List Command} {i : Nat} {history : List Expr}
    (h : (histories.run commands)[i]? = some history) :
    ∃ r, (registries.run commands)[i]? = some r ∧ ∀ e ∈ history, r.Knows e := by
  refine ⟨Registry.empty.afterAll history, ?_, fun e => Registry.empty.knows_afterAll⟩
  rw [← map_afterAll.run, List.getElem?_map, h, Option.map_some]

/-- Offers of what a registry knows change nothing in the row. -/
theorem run_offers_of_knows {commands : List Command} {i : Nat} {r : Registry} {es : List Expr}
    (hr : (registries.run commands)[i]? = some r) (h : ∀ e ∈ es, r.Knows e) :
    registries.run (commands ++ es.map (.offer i)) = registries.run commands := by
  rw [run_offers]
  refine List.ext_getElem? fun j => ?_
  rw [List.getElem?_modify]
  by_cases hj : i = j
  · subst hj
    simp [hr, Registry.afterAll_of_knows h]
  · simp [hj]

/-- A command takes nothing from a history. -/
theorem exists_subset_step {row : List (List Expr)} {i : Nat} {history : List Expr}
    (h : row[i]? = some history) (c : Command) :
    ∃ history', (histories.step row c)[i]? = some history' ∧ history ⊆ history' := by
  have hmodify (j : Nat) (later : List Expr) : ∃ history',
      (row.modify j (· ++ later))[i]? = some history' ∧ history ⊆ history' := by
    rw [List.getElem?_modify, h]
    by_cases hj : j = i
    · exact ⟨history ++ later, by simp [hj], List.subset_append_left _ _⟩
    · exact ⟨history, by simp [hj], List.Subset.refl _⟩
  have happend (more : List (List Expr)) : (row ++ more)[i]? = some history := by
    rw [List.getElem?_append_left (List.getElem?_eq_some_iff.1 h).1, h]
  cases c with
  | new => exact ⟨history, happend _, List.Subset.refl _⟩
  | clone j => exact ⟨history, happend _, List.Subset.refl _⟩
  | offer j e => exact hmodify j [e]
  | merge j k =>
    rw [step]
    rcases row[k]? with _ | later
    · exact ⟨history, h, List.Subset.refl _⟩
    · exact hmodify j later

theorem exists_subset_foldl {row : List (List Expr)} {i : Nat} {history : List Expr}
    (h : row[i]? = some history) (commands : List Command) :
    ∃ history', (commands.foldl histories.step row)[i]? = some history' ∧
      history ⊆ history' := by
  induction commands generalizing row history with
  | nil => exact ⟨history, h, List.Subset.refl _⟩
  | cons c commands ih =>
    obtain ⟨history', h', hsubset⟩ := exists_subset_step h c
    obtain ⟨history'', h'', hsubset'⟩ := ih h'
    exact ⟨history'', h'', List.Subset.trans hsubset hsubset'⟩

/-- What a registry was offered is in its history, whatever has been done since. -/
theorem exists_mem_history {before : List Command} {i : Nat}
    (h : i < (registries.run before).length) (e : Expr) (between : List Command) :
    ∃ history, (histories.run (before ++ .offer i e :: between))[i]? = some history ∧
      e ∈ history := by
  rw [← map_afterAll.run, List.length_map] at h
  have hoffer : (histories.step (histories.run before) (.offer i e))[i]? =
      some ((histories.run before)[i] ++ [e]) := by
    rw [step, List.getElem?_modify_eq, List.getElem?_eq_getElem h]
    rfl
  obtain ⟨history, hhistory, hsubset⟩ := exists_subset_foldl hoffer between
  refine ⟨history, ?_, hsubset (List.mem_append_right _ (List.mem_singleton_self e))⟩
  rw [run, List.foldl_append, List.foldl_cons]
  exact hhistory

end Keeper

/-! ## Orderings with the same digits -/

namespace InTurn

variable {registry last : Registry} {orderings : List (List Recipe)} {parts : List Findings}

/-- The search of an ordering goes on from what the candidates of those before it have left. -/
theorem getElem?_eq (h : InTurn registry orderings parts last) (i : Nat) :
    parts[i]? = orderings[i]?.map
      (searched (registry.afterAll (allCandidates (orderings.take i)))) := by
  induction h generalizing i with
  | done => rfl
  | search h _ ih =>
    obtain rfl := eq_searched h
    cases i with
    | zero => rfl
    | succ i =>
      rw [List.getElem?_cons_succ, List.getElem?_cons_succ, List.take_succ_cons,
        allCandidates_cons, Registry.afterAll_append, ih, registry_searched]

/-- What is then in the registry, the candidates of all orderings so far have left. -/
theorem registry_of_getElem? (h : InTurn registry orderings parts last) {i : Nat} {f : Findings}
    (hf : parts[i]? = some f) :
    f.registry = registry.afterAll (allCandidates (orderings.take (i + 1))) := by
  rw [h.getElem?_eq, Option.map_eq_some_iff] at hf
  obtain ⟨ordering, hordering, rfl⟩ := hf
  rw [registry_searched, ← Registry.afterAll_append, List.take_add_one, hordering]
  simp [allCandidates]

/-- In an ordering that has come before, nothing new is found. -/
theorem getElem?_eq_of_repeated (h : InTurn registry orderings parts last) {i j : Nat}
    {ordering : List Recipe} (hij : j < i) (hj : orderings[j]? = some ordering)
    (hi : orderings[i]? = some ordering) : parts[i]? =
      some ⟨registry.afterAll (allCandidates (orderings.take i)),
        ⟨(candidates ordering).length, 0⟩, #[]⟩ := by
  -- Each candidate was offered when the ordering came for the first time.
  have hknows : ∀ e ∈ candidates ordering,
      (registry.afterAll (allCandidates (orderings.take i))).Knows e := by
    refine fun e he => registry.knows_afterAll (List.mem_flatMap.2 ⟨ordering, ?_, he⟩)
    rw [List.mem_iff_getElem?]
    exact ⟨j, by rw [List.getElem?_take_of_lt hij, hj]⟩
  rw [h.getElem?_eq, hi, Option.map_some, searched, Findings.of_eq,
    Registry.afterAll_of_knows hknows, Registry.changes, Registry.replies_of_knows hknows,
    List.reduceOption_replicate_none]
  rfl

end InTurn

theorem mem_eventsFrom {parts : List Findings} {i : Nat} {f : Findings}
    (h : parts[i]? = some f) :
    .searchedOrdering i f.stats.evaluated f.stats.improved ∈ eventsFrom 0 parts := by
  refine List.mem_flatMap.2 ⟨(f, i), List.mem_zipIdx_iff_getElem?.2 h, ?_⟩
  exact List.mem_append_right _ (List.mem_singleton_self _)

/-! ## The result -/

/-- Where two orderings of the operands of a search in turn have the same digits, the second
    evaluates as many expressions as the first, improves nothing, and leaves the registry as it
    was; and so the journal says. More generally, offers of expressions that are in the history
    of a registry are refused, every time and in whatever order, and change nothing; and what was
    once offered stays in the history, whatever is made, cloned, offered or merged in between. -/
theorem repetitions_change_nothing :
    (∀ operands : List Nat, operands ≠ [] → (∀ operand ∈ operands, operand ≤ maxOperand) →
      let leaf := fun operand => Recipe.leaf (Float.ofNat operand)
      let orderings := (Orderings.of operands).remaining.toList
      (Orderings.of (operands.map leaf)).remaining.toList = orderings.map (List.map leaf) ∧
      ∃ (registry : Registry) (parts : List Findings),
        InTurn .empty (Orderings.of (operands.map leaf)).remaining.toList parts registry ∧
        (∀ journal : Array Event,
          ((synthesize .inTurn operands).run.run journal).1 = .ok registry ∧
          ((synthesize .inTurn operands).run.run journal).2.toList =
            journal.toList ++ journalOf operands parts registry) ∧
        ∀ j i ds, j < i → orderings[j]? = some ds → orderings[i]? = some ds →
          ∃ first before again, parts[j]? = some first ∧ parts[i - 1]? = some before ∧
            parts[i]? = some again ∧
            again.stats = ⟨first.stats.evaluated, 0⟩ ∧ again.changes = #[] ∧
            again.registry = before.registry ∧
            .searchedOrdering i first.stats.evaluated 0 ∈ journalOf operands parts registry) ∧
    (∀ (commands : List Command) (i : Nat) (history : List Expr),
      (Keeper.histories.run commands)[i]? = some history →
      ∃ r, (Keeper.registries.run commands)[i]? = some r ∧ ∀ es ⊆ history,
        (∀ reply ∈ r.replies es, reply = none) ∧ r.afterAll es = r ∧
        Keeper.registries.run (commands ++ es.map (.offer i)) =
          Keeper.registries.run commands) ∧
    ∀ (before between : List Command) (i : Nat) (e : Expr),
      i < (Keeper.registries.run before).length →
      ∃ history, (Keeper.histories.run (before ++ .offer i e :: between))[i]? = some history ∧
        e ∈ history := by
  refine ⟨?_, fun commands i history hhistory => ?_,
    fun before between i e hi => Keeper.exists_mem_history hi e between⟩
  · intro operands hne hdigit leaf orderings
    have horderings : orderingsOf operands = orderings.map (List.map leaf) := by
      rw [orderingsOf, rearrangements_map, ← Orderings.toList_remaining]
    rw [Orderings.toList_remaining, ← orderingsOf]
    obtain ⟨parts, hparts⟩ := exists_inTurn (ne_nil_of_mem_orderingsOf hne) .empty
    refine ⟨horderings, _, parts, hparts,
      logs_synthesize (refusal?_eq_none_iff.2 ⟨hne, hdigit⟩) hparts, fun j i ds hij hj hi => ?_⟩
    have hmap {k : Nat} (hk : orderings[k]? = some ds) :
        (orderingsOf operands)[k]? = some (ds.map leaf) := by
      rw [horderings, List.getElem?_map, hk, Option.map_some]
    have hfirst := hparts.getElem?_eq j
    rw [hmap hj, Option.map_some] at hfirst
    have hagain := hparts.getElem?_eq_of_repeated hij (hmap hj) (hmap hi)
    obtain ⟨before, hbefore⟩ : ∃ before, parts[i - 1]? = some before := by
      obtain ⟨hlt, -⟩ := List.getElem?_eq_some_iff.1 hagain
      exact ⟨_, List.getElem?_eq_getElem ((Nat.sub_le i 1).trans_lt hlt)⟩
    have hevaluated (r : Registry) : (searched r (ds.map leaf)).stats.evaluated =
        (candidates (ds.map leaf)).length := Findings.evaluated_of _ _
    refine ⟨_, before, _, hfirst, hbefore, hagain, ?_, rfl, ?_, ?_⟩
    · rw [hevaluated]
    · rw [hparts.registry_of_getElem? hbefore, Nat.sub_add_cancel (Nat.one_le_of_lt hij)]
    · rw [hevaluated]
      exact List.mem_cons_of_mem _ (List.mem_cons_of_mem _
        (List.mem_append_left _ (mem_eventsFrom hagain)))
  · obtain ⟨r, hr, hknows⟩ := Keeper.knows_run hhistory
    refine ⟨r, hr, fun es hes => ?_⟩
    have hknown : ∀ e ∈ es, r.Knows e := fun e he => hknows e (hes he)
    refine ⟨fun reply hreply => ?_, Registry.afterAll_of_knows hknown, ?_⟩
    · rw [Registry.replies_of_knows hknown] at hreply
      exact List.eq_of_mem_replicate hreply
    · exact Keeper.run_offers_of_knows hr hknown

/-- The second ordering of `2` and `2` is the first one once more. A registry that was offered `3`
    is not changed by it again, though another one has been merged into it. -/
theorem repetitions_change_nothing_twos :
    [2, 2] ≠ [] ∧ (∀ operand ∈ [2, 2], operand ≤ maxOperand) ∧
    (Orderings.of [2, 2]).remaining.toList[0]? = some [2, 2] ∧
    (Orderings.of [2, 2]).remaining.toList[1]? = some [2, 2] ∧
    (∃ (registry : Registry) (parts : List Findings) (first again : Findings),
      ((synthesize .inTurn [2, 2]).run.run #[]).1 = .ok registry ∧
      parts[0]? = some first ∧ parts[1]? = some again ∧
      again.stats = ⟨first.stats.evaluated, 0⟩ ∧ again.registry = first.registry) ∧
    let three := Expr.constant (Float.ofNat 3)
    let commands := [.new, .new, .offer 0 three, .offer 1 (.sqrt three), .merge 0 1]
    0 < (Keeper.registries.run [.new, .new]).length ∧
    Keeper.registries.run (commands ++ [.offer 0 three]) = Keeper.registries.run commands := by
  obtain ⟨hsearch, hoffers, hstays⟩ := repetitions_change_nothing
  refine ⟨by decide, by decide, rfl, rfl, ?_, ?_⟩
  · obtain ⟨-, registry, parts, -, hrun, hrepeat⟩ := hsearch [2, 2] (by decide) (by decide)
    obtain ⟨first, before, again, hfirst, hbefore, hagain, hstats, -, hregistry, -⟩ :=
      hrepeat 0 1 [2, 2] Nat.zero_lt_one rfl rfl
    obtain rfl := Option.some.inj (hfirst.symm.trans hbefore)
    exact ⟨registry, parts, first, again, (hrun #[]).1, hfirst, hagain, hstats, hregistry⟩
  · intro three commands
    have hlength : 0 < (Keeper.registries.run [.new, .new]).length := Nat.zero_lt_two
    obtain ⟨history, hhistory, hmem⟩ := hstays [.new, .new] [.offer 1 (.sqrt three), .merge 0 1] 0
      three hlength
    obtain ⟨r, -, hknown⟩ := hoffers commands 0 history hhistory
    exact ⟨hlength, (hknown [three] (List.cons_subset.2 ⟨hmem, List.nil_subset _⟩)).2.2⟩

end DigitReach

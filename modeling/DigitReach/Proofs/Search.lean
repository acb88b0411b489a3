import DigitReach.Proofs.Changes
import DigitReach.Proofs.Cursors
import DigitReach.Proofs.Grammar
import DigitReach.Synthesis

/-!
# What a synthesis comes to

A synthesis keeps a journal, but what it comes to does not depend on the journal
(`Yields`). For operands that are digits, at least one, it comes to the registry that was
offered the candidates of all orderings, one after the other (`yields_synthesize`):

* an offer is evaluated, counted and recorded (`Findings.offer_eq`), and searching one ordering
  offers its candidates (`searchOrdering_eq`);
* searching in turn goes on from one registry to the next (`yields_searchInTurn`);
* searching apart offers the candidates of each ordering to an empty registry, and merges
  the registries (`yields_searchApart`). Since a merge does what the offers would do, this
  comes to the same registry.

Operands that are refused are so at once, however they would be searched.
-/

namespace DigitReach

/-! ## Computations and their results -/

section

variable {ε ε' α β : Type}

/-- Whatever is in the journal, the computation comes to this result. -/
def Yields (x : ExceptT ε Journaled α) (result : Except ε α) : Prop :=
  ∀ journal, (x.run.run journal).1 = result

namespace Yields

variable {x : ExceptT ε Journaled α} {f : α → ExceptT ε Journaled β} {result : Except ε β}

theorem run_bind (x : ExceptT ε Journaled α) (f : α → ExceptT ε Journaled β)
    (journal : Array Event) :
    (x >>= f).run.run journal = match x.run.run journal with
      | (.ok a, journal') => (f a).run.run journal'
      | (.error e, journal') => (.error e, journal') := by
  rw [ExceptT.run_bind, StateT.run_bind]
  rcases StateT.run x.run journal with ⟨_ | _, _⟩ <;> rfl

/-- The result, with what is then in the journal. -/
theorem run_eq {a : Except ε α} (h : Yields x a) (journal : Array Event) :
    x.run.run journal = (a, (x.run.run journal).2) :=
  Prod.ext (h journal) rfl

theorem unique {a a' : Except ε α} (h : Yields x a) (h' : Yields x a') : a = a' :=
  (h #[]).symm.trans (h' #[])

theorem pure (a : α) : Yields (Pure.pure a : ExceptT ε Journaled α) (.ok a) := fun _ => rfl

theorem throw (e : ε) : Yields (MonadExcept.throw e : ExceptT ε Journaled α) (.error e) :=
  fun _ => rfl

theorem bind {a : α} (hx : Yields x (.ok a)) (hf : Yields (f a) result) :
    Yields (x >>= f) result := by
  intro journal
  rw [run_bind]
  rcases hrun : x.run.run journal with ⟨first, journal'⟩
  obtain rfl : first = .ok a := (congrArg Prod.fst hrun).symm.trans (hx journal)
  exact hf journal'

theorem bind_error {e : ε} (hx : Yields x (.error e)) : Yields (x >>= f) (.error e) := by
  intro journal
  rw [run_bind]
  rcases hrun : x.run.run journal with ⟨first, journal'⟩
  obtain rfl : first = .error e := (congrArg Prod.fst hrun).symm.trans (hx journal)
  rfl

/-- What is entered into the journal first does not matter. -/
theorem note {y : ExceptT ε Journaled β} (hy : Yields y result) (event : Event) :
    Yields (do DigitReach.note event; y) result :=
  fun journal => hy (journal.push event)

theorem noteChanges {y : ExceptT ε Journaled β} (hy : Yields y result) (changes : Array Change) :
    Yields (do DigitReach.noteChanges changes; y) result :=
  fun journal => hy (journal ++ changes.map Event.changed)

theorem adapt {a : Except ε α} (hx : Yields x a) (g : ε → ε') :
    Yields (x.adapt g) (a.mapError g) :=
  fun journal => congrArg (Except.mapError g) (hx journal)

end Yields

end

/-! ## One ordering -/

namespace Stats

theorem zero_add (s : Stats) : zero + s = s :=
  congrArg₂ mk (Nat.zero_add _) (Nat.zero_add _)

theorem add_zero (s : Stats) : s + zero = s := rfl

theorem add_assoc (s t u : Stats) : s + t + u = s + (t + u) :=
  congrArg₂ mk (Nat.add_assoc ..) (Nat.add_assoc ..)

/-- The counts of several searches together. -/
def total (parts : List Findings) : Stats :=
  ⟨(parts.map fun f => f.stats.evaluated).sum, (parts.map fun f => f.stats.improved).sum⟩

theorem total_cons (f : Findings) (parts : List Findings) :
    total (f :: parts) = f.stats + total parts := rfl

end Stats

namespace Findings

/-- What is found by evaluating and offering some expressions, one after the other, from a
    registry on. -/
def of (registry : Registry) (es : List Expr) : Findings := es.foldl offer (start registry)

/-- An offer is evaluated; its reply is counted and recorded. -/
theorem offer_eq (f : Findings) (e : Expr) : f.offer e =
    ⟨f.registry.after e, f.stats + ⟨1, (f.registry.offer e).2.toList.length⟩,
      f.changes ++ (f.registry.offer e).2.toList.toArray⟩ := by
  rw [offer, Registry.after]
  rcases f.registry.offer e with ⟨registry, _ | change⟩ <;> simp

/-- All offers are evaluated, and the changes that they make are counted and recorded. -/
theorem foldl_offer_eq (f : Findings) (es : List Expr) : es.foldl offer f =
    ⟨f.registry.afterAll es, f.stats + ⟨es.length, (f.registry.changes es).length⟩,
      f.changes ++ (f.registry.changes es).toArray⟩ := by
  induction es generalizing f with
  | nil => rw [Registry.changes, Registry.replies, List.reduceOption_nil, Array.append_empty]; rfl
  | cons e es ih =>
    have hstats (improved improved' : Nat) : (⟨1, improved⟩ + ⟨es.length, improved'⟩ : Stats) =
        ⟨es.length + 1, improved + improved'⟩ := congrArg₂ Stats.mk (Nat.add_comm ..) rfl
    rw [List.foldl_cons, ih, offer_eq, Registry.afterAll_cons, Registry.changes_cons,
      Stats.add_assoc, hstats, Array.append_assoc, List.length_append, List.length_cons]
    exact congrArg (Findings.mk _ _ <| f.changes ++ ·) (List.append_toArray ..)

theorem of_eq (registry : Registry) (es : List Expr) : of registry es =
    ⟨registry.afterAll es, ⟨es.length, (registry.changes es).length⟩,
      (registry.changes es).toArray⟩ := by
  rw [of, foldl_offer_eq, start, Stats.zero_add, Array.empty_append]

theorem registry_of (registry : Registry) (es : List Expr) :
    (of registry es).registry = registry.afterAll es := by
  rw [of_eq]

theorem evaluated_of (registry : Registry) (es : List Expr) :
    (of registry es).stats.evaluated = es.length := by
  rw [of_eq]

/-- The counts of two searches, of which the second one goes on from the first. -/
theorem stats_of_append (registry : Registry) (es es' : List Expr) :
    (of registry (es ++ es')).stats =
      (of registry es).stats + (of (of registry es).registry es').stats := by
  rw [of_eq, of_eq registry es, of_eq, Registry.changes_append, List.length_append,
    List.length_append]
  rfl

end Findings

/-- What the search of an ordering finds, if there is anything to arrange. -/
def searched (registry : Registry) (ordering : List Recipe) : Findings :=
  .of registry (candidates ordering)

theorem registry_searched (registry : Registry) (ordering : List Recipe) :
    (searched registry ordering).registry = registry.afterAll (candidates ordering) :=
  Findings.registry_of _ _

/-- The search of an ordering offers its candidates, one after the other. -/
theorem searchOrdering_eq (registry : Registry) {ordering : List Recipe} (h : ordering ≠ []) :
    searchOrdering registry ordering = .ok (searched registry ordering) := by
  -- Bracketings are built as they are needed, and so are their expressions.
  have hall : Findings.offerAll = fun f tree => tree.expressions.toList.foldl Findings.offer f := by
    funext f tree
    exact LazyList.foldl_eq ..
  rw [searchOrdering, bracketings?_of_ne_nil h, searched, Findings.of, candidates,
    List.foldl_flatMap, ← hall, ← LazyList.foldl_eq]
  rfl

/-! ## All orderings -/

/-- The candidates of some orderings, one ordering after the other. -/
def allCandidates (orderings : List (List Recipe)) : List Expr := orderings.flatMap candidates

theorem allCandidates_cons (ordering : List Recipe) (rest : List (List Recipe)) :
    allCandidates (ordering :: rest) = candidates ordering ++ allCandidates rest :=
  List.flatMap_cons

/-- Searching in turn finds what comes of offering all candidates. -/
theorem yields_searchInTurn {orderings : LazyList (List Recipe)}
    (h : ∀ ordering ∈ orderings.toList, ordering ≠ []) (index : Nat) (registry : Registry)
    (stats : Stats) : Yields (searchInTurn index registry stats orderings)
      (.ok (registry.afterAll (allCandidates orderings.toList),
        stats + (Findings.of registry (allCandidates orderings.toList)).stats)) := by
  induction orderings generalizing index registry stats with
  | nil => exact .pure _
  | cons ordering rest ih =>
    rw [LazyList.toList_cons, List.forall_mem_cons] at h
    have hrest := ih () h.2 (index + 1) (searched registry ordering).registry
      (stats + (searched registry ordering).stats)
    rw [LazyList.toList_cons, allCandidates_cons, Registry.afterAll_append,
      Findings.stats_of_append, ← Stats.add_assoc, ← registry_searched, searchInTurn,
      searchOrdering_eq registry h.1]
    exact .noteChanges (.note hrest _) _

/-- The findings of several searches, merged in their order. -/
def merged (parts : List Findings) : Registry × Stats :=
  parts.foldl (fun (registry, stats) part =>
    (registry.merge part.registry, stats + part.stats)) (.empty, .zero)

/-- The registries of several searches are merged from the first to the last. -/
theorem fst_merged (parts : List Findings) : (merged parts).1 =
    (parts.map Findings.registry).foldl Registry.merge .empty := by
  rw [List.foldl_map]
  exact (List.foldl_hom Prod.fst fun _ _ => rfl).symm

/-- Their counts are added up. -/
theorem snd_merged (parts : List Findings) : (merged parts).2 = Stats.total parts := by
  have hfold (stats : Stats) : parts.foldl (fun stats part => stats + part.stats) stats =
      stats + Stats.total parts := by
    induction parts generalizing stats with
    | nil => exact stats.add_zero.symm
    | cons f parts ih => rw [List.foldl_cons, ih, Stats.total_cons, Stats.add_assoc]
  rw [← Stats.zero_add (Stats.total parts), ← hfold]
  exact (List.foldl_hom Prod.snd fun _ _ => rfl).symm

/-- The merge of what the orderings yield apart is what they yield in turn. -/
theorem registry_merged (orderings : List (List Recipe)) :
    (merged (orderings.map (searched .empty))).1 =
      Registry.empty.afterAll (allCandidates orderings) := by
  -- From any registry, the merge goes on as the offers do.
  have hfold (registry : Registry) :
      (orderings.map (Findings.registry ∘ searched .empty)).foldl Registry.merge registry =
        registry.afterAll (allCandidates orderings) := by
    induction orderings generalizing registry with
    | nil => rfl
    | cons ordering rest ih =>
      rw [List.map_cons, List.foldl_cons, ih, Function.comp_apply, registry_searched,
        Registry.merge_afterAll, ← Registry.afterAll_append, ← allCandidates_cons]
  rw [fst_merged, List.map_map, hfold]

/-- All candidates are counted. -/
theorem evaluated_merged (orderings : List (List Recipe)) :
    (merged (orderings.map (searched .empty))).2.evaluated =
      (allCandidates orderings).length := by
  rw [snd_merged, Stats.total, allCandidates, List.length_flatMap, List.map_map]
  exact congrArg List.sum (List.map_congr_left fun o _ => Findings.evaluated_of .empty _)

/-- Searching apart merges what each of the orderings yields. -/
theorem yields_searchApart {orderings : List (List Recipe)} (h : ∀ o ∈ orderings, o ≠ []) :
    Yields (searchApart orderings) (.ok (merged (orderings.map (searched .empty)))) := by
  have hparts : Yields (orderings.mapM fun o =>
      (liftM (searchOrdering .empty o) : ExceptT EnumerationError Journaled Findings))
      (.ok (orderings.map (searched .empty))) := by
    induction orderings with
    | nil => exact .pure _
    | cons o os ih =>
      rw [List.forall_mem_cons] at h
      rw [List.mapM_cons, searchOrdering_eq _ h.1]
      exact .bind (.pure _) (.bind (ih h.2) (.pure _))
  exact .note (.bind hparts (.noteChanges (.pure _) _)) _

/-! ## Syntheses -/

/-- Why operands are refused, if they are. -/
def refusal? (operands : List Nat) : Option SynthesisError :=
  if operands = [] then some .noOperands
  else (operands.find? (maxOperand < ·)).map .operandTooLarge

/-- The orderings of the recipes of some operands. -/
def orderingsOf (operands : List Nat) : List (List Recipe) :=
  rearrangements (operands.map fun operand => .leaf (Float.ofNat operand))

/-- The orderings are those of the operands, each with the recipes of its operands. -/
theorem orderingsOf_eq (operands : List Nat) : orderingsOf operands =
    (rearrangements operands).map fun ds => (ds.map Float.ofNat).map .leaf := by
  rw [orderingsOf, rearrangements_map]
  refine List.map_congr_left fun ds _ => ?_
  rw [List.map_map]
  rfl

/-- The candidates of all orderings are the expressions that use the operands in some order. -/
theorem mem_allCandidates {operands : List Nat} {e : Expr} :
    e ∈ allCandidates (orderingsOf operands) ↔
      ∃ ds : List Nat, ds.Perm operands ∧ e.Uses (ds.map Float.ofNat) := by
  rw [allCandidates, orderingsOf_eq, List.flatMap_map]
  simp only [List.mem_flatMap, mem_candidates, mem_rearrangements]

/-- What a synthesis comes to, however the orderings are searched. -/
def synthesized (operands : List Nat) : Except SynthesisError Registry :=
  match refusal? operands with
  | some error => .error error
  | none => .ok (Registry.empty.afterAll (allCandidates (orderingsOf operands)))

/-- Digits are accepted, if there is at least one. -/
theorem refusal?_eq_none_iff {operands : List Nat} : refusal? operands = none ↔
    operands ≠ [] ∧ ∀ operand ∈ operands, operand ≤ maxOperand := by
  rw [refusal?]
  split
  · next h => simp [h]
  · next h => simp [h]

theorem ne_nil_of_refusal? {operands : List Nat} (h : refusal? operands = none) :
    operands ≠ [] :=
  (refusal?_eq_none_iff.1 h).1

theorem ne_nil_of_mem_orderingsOf {operands : List Nat} (h : operands ≠ []) :
    ∀ ordering ∈ orderingsOf operands, ordering ≠ [] := by
  rintro ordering hordering rfl
  exact h (List.map_eq_nil_iff.1 (mem_rearrangements.1 hordering).nil_eq.symm)

theorem yields_checkOperands (operands : List Nat) :
    Yields (checkOperands operands) (match refusal? operands with
      | some error => .error error
      | none => .ok ()) := by
  rw [checkOperands, refusal?]
  rcases operands with _ | ⟨operand, operands⟩
  · exact .note (.bind_error (.throw _)) _
  · rw [List.isEmpty_cons, if_neg Bool.false_ne_true, if_neg (List.cons_ne_nil _ _)]
    refine .bind (.pure _) ?_
    rcases (operand :: operands).find? (maxOperand < ·) with _ | tooLarge
    · exact .pure _
    · exact .note (.throw _) _

/-- The orderings of some items begin with the items as they are. -/
theorem yields_beginOrderings {α : Type} (items : List α) (h : items ≠ []) :
    Yields (beginOrderings items) (.ok (.of items)) := by
  rw [beginOrderings, Orderings.of?, if_neg (by simpa using h)]
  exact .bind (.pure _) (.note (.pure _) _)

/-- What the search of all orderings finds in turn, and apart. -/
def searchedAll (operands : List Nat) : Mode → Registry × Stats
  | .inTurn =>
    let all := Findings.of .empty (allCandidates (orderingsOf operands))
    (all.registry, all.stats)
  | .apart => merged ((orderingsOf operands).map (searched .empty))

/-- Whether in turn or apart, the registry is the one that was offered all candidates. -/
theorem registry_searchedAll (operands : List Nat) (mode : Mode) :
    (searchedAll operands mode).1 =
      Registry.empty.afterAll (allCandidates (orderingsOf operands)) := by
  cases mode with
  | inTurn => exact Findings.registry_of _ _
  | apart => exact registry_merged _

/-- Whether in turn or apart, all candidates are evaluated. -/
theorem evaluated_searchedAll (operands : List Nat) (mode : Mode) :
    (searchedAll operands mode).2.evaluated =
      (allCandidates (orderingsOf operands)).length := by
  cases mode with
  | inTurn => exact Findings.evaluated_of _ _
  | apart => exact evaluated_merged _

theorem yields_searchAll (mode : Mode) {operands : List Nat} (h : operands ≠ []) :
    Yields (searchAll mode (operands.map fun operand => .leaf (Float.ofNat operand)))
      (.ok (searchedAll operands mode)) := by
  have hbegin := yields_beginOrderings
    (operands.map fun operand => Recipe.leaf (Float.ofNat operand)) (mt List.map_eq_nil_iff.1 h)
  have hordering := ne_nil_of_mem_orderingsOf h
  cases mode with
  | inTurn =>
    rw [orderingsOf, ← Orderings.toList_remaining] at hordering
    have hsearch := yields_searchInTurn hordering 0 .empty .zero
    rw [Orderings.toList_remaining, Stats.zero_add, ← Findings.registry_of] at hsearch
    exact .bind hbegin hsearch
  | apart =>
    have hsearch := yields_searchApart hordering
    rw [orderingsOf, ← Orderings.toList_remaining] at hsearch
    rw [searchedAll, orderingsOf, ← Orderings.toList_remaining]
    exact .bind hbegin hsearch

/-- A synthesis comes to the registry of all candidates, or refuses its operands. -/
theorem yields_synthesize (mode : Mode) (operands : List Nat) :
    Yields (synthesize mode operands) (synthesized operands) := by
  rw [synthesize, synthesized]
  have hcheck := yields_checkOperands operands
  rcases hrefusal : refusal? operands with _ | error
  · rw [hrefusal] at hcheck
    have hall := yields_searchAll mode (ne_nil_of_refusal? hrefusal)
    rw [← registry_searchedAll operands mode]
    exact .bind hcheck (.note (.bind (.adapt hall _) (.note (.pure _) _)) _)
  · rw [hrefusal] at hcheck
    exact .bind_error hcheck

end DigitReach

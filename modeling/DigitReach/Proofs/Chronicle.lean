import DigitReach.Proofs.Search

/-!
# The journal of a search

A search in turn can be read off its journal. An offer that changes the registry is followed by
one record of the change, and an offer that does not by none; when an ordering was searched,
its counts are entered; and when all were, their totals (`logs_synthesize`).

* `InTurn` says how the search of an ordering goes on from what the others before it have found;
* `Logs` says which events a computation enters into the journal, whatever is in it;
* `Chronicle` says what the records tell of a registry: made once more, they rebuild it from
  nothing; and those of a target begin with the one that reaches it, and go on with those that
  improve the answer that the record before has given;
* `journal_chronicles`: so do the records of all offers to an empty registry, and those in the
  journal of a synthesis, whose counts add up to the totals.
-/

namespace DigitReach

/-! ## Searches in turn -/

/-- What the searches of some orderings find in turn, from the registry that is there at first
    to the one that is there in the end. -/
inductive InTurn : Registry → List (List Recipe) → List Findings → Registry → Prop
  | done (registry : Registry) : InTurn registry [] [] registry
  | search {registry last : Registry} {ordering : List Recipe} {rest : List (List Recipe)}
      {found : Findings} {parts : List Findings}
      (h : searchOrdering registry ordering = .ok found)
      (hrest : InTurn found.registry rest parts last) :
      InTurn registry (ordering :: rest) (found :: parts) last

theorem eq_searched {registry : Registry} {ordering : List Recipe} {found : Findings}
    (h : searchOrdering registry ordering = .ok found) : found = searched registry ordering := by
  rcases ordering with _ | ⟨recipe, ordering⟩
  · cases h
  · exact Except.ok.inj (h.symm.trans (searchOrdering_eq registry (List.cons_ne_nil _ _)))

theorem exists_inTurn {orderings : List (List Recipe)} (h : ∀ o ∈ orderings, o ≠ [])
    (registry : Registry) :
    ∃ parts, InTurn registry orderings parts (registry.afterAll (allCandidates orderings)) := by
  induction orderings generalizing registry with
  | nil => exact ⟨[], .done registry⟩
  | cons ordering rest ih =>
    rw [List.forall_mem_cons] at h
    obtain ⟨parts, hparts⟩ := ih h.2 (searched registry ordering).registry
    refine ⟨searched registry ordering :: parts, .search (searchOrdering_eq registry h.1) ?_⟩
    rwa [allCandidates_cons, Registry.afterAll_append, ← registry_searched]

namespace InTurn

variable {registry last : Registry} {orderings : List (List Recipe)} {parts : List Findings}

/-- Together the searches make the changes that the offers of all candidates make. -/
theorem changes_eq (h : InTurn registry orderings parts last) :
    parts.flatMap (fun f => f.changes.toList) = registry.changes (allCandidates orderings) := by
  induction h with
  | done => rfl
  | search h _ ih =>
    obtain rfl := eq_searched h
    rw [List.flatMap_cons, ih, allCandidates_cons, Registry.changes_append, searched,
      Findings.of_eq]

theorem total_eq (h : InTurn registry orderings parts last) : Stats.total parts =
    ⟨(allCandidates orderings).length, (registry.changes (allCandidates orderings)).length⟩ := by
  induction h with
  | done => rfl
  | @search registry last ordering rest found parts h _ ih =>
    obtain rfl := eq_searched h
    rw [Stats.total_cons, ih, allCandidates_cons, Registry.changes_append, List.length_append,
      List.length_append, searched, Findings.of_eq]
    rfl

end InTurn

/-! ## Computations and their journals -/

section

variable {ε ε' α β : Type}

/-- Whatever is in the journal, the computation comes to this result, and enters these events. -/
def Logs (x : ExceptT ε Journaled α) (result : Except ε α) (events : List Event) : Prop :=
  ∀ journal, (x.run.run journal).1 = result ∧
    (x.run.run journal).2.toList = journal.toList ++ events

namespace Logs

variable {x : ExceptT ε Journaled α} {f : α → ExceptT ε Journaled β} {y : ExceptT ε Journaled β}
  {result : Except ε β} {events events' : List Event}

theorem pure (a : α) : Logs (Pure.pure a : ExceptT ε Journaled α) (.ok a) [] :=
  fun journal => ⟨rfl, journal.toList.append_nil.symm⟩

theorem bind {a : α} (hx : Logs x (.ok a) events) (hf : Logs (f a) result events') :
    Logs (x >>= f) result (events ++ events') := by
  intro journal
  obtain ⟨hresult, hevents⟩ := hx journal
  rw [Yields.run_bind]
  generalize x.run.run journal = first at hresult hevents ⊢
  obtain ⟨_, journal'⟩ := first
  obtain rfl : _ = Except.ok a := hresult
  obtain ⟨hresult', hevents'⟩ := hf journal'
  exact ⟨hresult', by rw [hevents', hevents, List.append_assoc]⟩

theorem note (hy : Logs y result events) (event : Event) :
    Logs (do DigitReach.note event; y) result (event :: events) := by
  intro journal
  obtain ⟨hresult, hevents⟩ := hy (journal.push event)
  refine ⟨hresult, hevents.trans ?_⟩
  rw [Array.toList_push, List.append_assoc, List.singleton_append]

theorem noteChanges (hy : Logs y result events) (changes : Array Change) :
    Logs (do DigitReach.noteChanges changes; y) result
      (changes.toList.map .changed ++ events) := by
  intro journal
  obtain ⟨hresult, hevents⟩ := hy (journal ++ changes.map .changed)
  refine ⟨hresult, hevents.trans ?_⟩
  rw [Array.toList_append, Array.toList_map, List.append_assoc]

theorem adapt {a : Except ε α} (hx : Logs x a events) (g : ε → ε') :
    Logs (x.adapt g) (a.mapError g) events :=
  fun journal => ⟨congrArg (Except.mapError g) (hx journal).1, (hx journal).2⟩

end Logs

end

/-! ## The journal of a search in turn -/

/-- What the search of an ordering, of a given number, enters into the journal. -/
def Findings.events (index : Nat) (f : Findings) : List Event :=
  f.changes.toList.map .changed ++ [.searchedOrdering index f.stats.evaluated f.stats.improved]

/-- What the searches of orderings, numbered from `index` on, enter into the journal. -/
def eventsFrom (index : Nat) (parts : List Findings) : List Event :=
  (parts.zipIdx index).flatMap fun (f, i) => f.events i

theorem eventsFrom_cons (index : Nat) (f : Findings) (parts : List Findings) :
    eventsFrom index (f :: parts) = f.events index ++ eventsFrom (index + 1) parts := by
  rw [eventsFrom, List.zipIdx_cons, List.flatMap_cons, eventsFrom]

/-- What a synthesis in turn enters into the journal, if its searches come to this registry. -/
def journalOf (operands : List Nat) (parts : List Findings) (registry : Registry) : List Event :=
  .synthesizing operands :: .permuting operands.length :: (eventsFrom 0 parts ++
    [.synthesized (Stats.total parts).evaluated (Stats.total parts).improved registry.size])

theorem logs_searchInTurn {orderings : LazyList (List Recipe)} {registry last : Registry}
    {parts : List Findings} (h : InTurn registry orderings.toList parts last) (index : Nat)
    (stats : Stats) : Logs (searchInTurn index registry stats orderings)
      (.ok (last, stats + .total parts)) (eventsFrom index parts) := by
  induction orderings generalizing registry parts index stats with
  | nil =>
    cases h
    exact .pure _
  | cons ordering rest ih =>
    cases h with
    | @search _ _ _ _ found parts hfound hrest =>
      rw [eventsFrom_cons, Findings.events, List.append_assoc, Stats.total_cons, ← Stats.add_assoc,
        searchInTurn, hfound]
      exact .noteChanges (.note (ih () hrest (index + 1) _) _) _

section

variable {operands : List Nat}

theorem logs_checkOperands (h : refusal? operands = none) :
    Logs (checkOperands operands) (.ok ()) [] := by
  obtain ⟨hne, hdigit⟩ := refusal?_eq_none_iff.1 h
  have hfind : operands.find? (maxOperand < ·) = none := by
    rw [List.find?_eq_none]
    exact fun operand hoperand => by simpa using hdigit operand hoperand
  rw [checkOperands, if_neg (by simpa using hne), hfind]
  exact .bind (.pure _) (.pure _)

theorem logs_beginOrderings {α : Type} (items : List α) (h : items ≠ []) :
    Logs (beginOrderings items) (.ok (.of items)) [.permuting items.length] := by
  rw [beginOrderings, Orderings.of?, if_neg (by simpa using h)]
  exact .bind (.pure _) (.note (.pure _) _)

/-- The journal of a synthesis in turn. -/
theorem logs_synthesize (h : refusal? operands = none) {parts : List Findings}
    {registry : Registry} (hparts : InTurn .empty (orderingsOf operands) parts registry) :
    Logs (synthesize .inTurn operands) (.ok registry) (journalOf operands parts registry) := by
  have hbegin := logs_beginOrderings (operands.map fun operand => Recipe.leaf (Float.ofNat operand))
    (mt List.map_eq_nil_iff.1 (ne_nil_of_refusal? h))
  rw [List.length_map] at hbegin
  rw [orderingsOf, ← Orderings.toList_remaining] at hparts
  have hsearch := logs_searchInTurn hparts 0 .zero
  rw [Stats.zero_add] at hsearch
  have hall : Logs (searchAll .inTurn (operands.map fun operand => .leaf (Float.ofNat operand)))
      (.ok (registry, .total parts)) (.permuting operands.length :: eventsFrom 0 parts) :=
    .bind hbegin hsearch
  exact .bind (logs_checkOperands h) (.note (.bind (hall.adapt _) (.note (.pure _) _)) _)

end

/-! ## Entries by their level -/

section

variable (operands : List Nat) (parts : List Findings) (registry : Registry) (index : Nat)

theorem filter_journalOf (level : Level) :
    (journalOf operands parts registry).filter (·.level = level) =
      [.synthesizing operands, .permuting operands.length].filter (·.level = level) ++
      (eventsFrom 0 parts).filter (·.level = level) ++
      [.synthesized (Stats.total parts).evaluated (Stats.total parts).improved
        registry.size].filter (·.level = level) := by
  rw [← List.filter_append, ← List.filter_append]
  rfl

theorem filter_trace_eventsFrom : (eventsFrom index parts).filter (·.level = .trace) =
    (parts.flatMap fun f => f.changes.toList).map .changed := by
  induction parts generalizing index with
  | nil => rfl
  | cons f parts ih =>
    rw [eventsFrom_cons, List.filter_append, ih, List.flatMap_cons, List.map_append]
    simp [Findings.events, List.filter_map, Event.level, Function.comp_def]

theorem filter_debug_eventsFrom : (eventsFrom index parts).filter (·.level = .debug) =
    (parts.zipIdx index).map fun (f, i) =>
      .searchedOrdering i f.stats.evaluated f.stats.improved := by
  induction parts generalizing index with
  | nil => rfl
  | cons f parts ih =>
    rw [eventsFrom_cons, List.filter_append, ih, List.zipIdx_cons, List.map_cons]
    simp [Findings.events, List.filter_map, Event.level, Function.comp_def]

theorem filter_info_eventsFrom : (eventsFrom index parts).filter (·.level = .info) = [] := by
  induction parts generalizing index with
  | nil => rfl
  | cons f parts ih =>
    rw [eventsFrom_cons, List.filter_append, ih]
    simp [Findings.events, List.filter_map, Event.level, Function.comp_def]

end

/-! ## What the records tell -/

/-- Records of changes tell how a registry has come to be from nothing. -/
structure Chronicle (records : List Change) (registry : Registry) : Prop where
  /-- Made once more, the changes rebuild the registry. -/
  rebuilds : records.foldl Registry.record .empty = registry
  /-- The first record of a target tells that it was reached. -/
  first : ∀ n, ∀ c ∈ (changesOf n records).head?, c.former = none ∧
    c.message = s!"Reached {n} at rank {c.answer.rank} via {c.answer.text}"
  /-- Each other one tells that the answer of the one before was improved. -/
  later : ∀ n, (changesOf n records).IsChain fun c d =>
    d.former = some c.answer.rank ∧ d.answer.rank < c.answer.rank ∧
    d.message = s!"Improved {n}: rank {c.answer.rank} -> {d.answer.rank} via {d.answer.text}"

/-- So do the changes of all offers to an empty registry. -/
theorem chronicle_changes (es : List Expr) :
    Chronicle (Registry.empty.changes es) (Registry.empty.afterAll es) := by
  have hdescent (n : Nat) := Registry.descent_changes .empty es n
  refine ⟨Registry.foldl_record_changes _ _, fun n c hc => ?_, fun n => ?_⟩
  · obtain ⟨rfl, hformer, -⟩ := (hdescent n).of_mem_head? hc
    rw [Registry.get?_empty, Option.map_none] at hformer
    exact ⟨hformer, by rw [Change.message, hformer]⟩
  · refine (hdescent n).isChain.imp fun c d h => ⟨h.former, h.lower, ?_⟩
    rw [Change.message, h.former, h.target]

/-! ## The result -/

/-- An offer makes one record if it changes the registry, and none if not. Of offers to an
    empty registry, one after the other, the records are what the offers reply, in their order,
    and tell how the registry has come to be. The journal of a synthesis in turn, of digits, at
    least one, is made of such records; of the counts of each ordering, which add up to the
    totals at its end; and of these totals, where the improvements are the records, and the
    targets reached are the records that replace no answer. -/
theorem journal_chronicles :
    (∀ (f : Findings) (e : Expr), ∃ reply, f.registry.offer e = ((f.offer e).registry, reply) ∧
      (reply.isSome ↔ (f.offer e).registry ≠ f.registry) ∧
      (f.offer e).changes.toList = f.changes.toList ++ reply.toList ∧
      (f.offer e).stats.improved = f.stats.improved + reply.toList.length) ∧
    (∀ es : List Expr,
      let found := Findings.of .empty es
      found.changes.toList = (Registry.empty.replies es).reduceOption ∧
      Chronicle found.changes.toList found.registry) ∧
    ∀ operands : List Nat, operands ≠ [] → (∀ operand ∈ operands, operand ≤ maxOperand) →
      ∃ (registry : Registry) (events : List Event) (records : List Change) (counts : List Stats)
        (evaluated improved : Nat),
        (∀ journal : Array Event,
          ((synthesize .inTurn operands).run.run journal).1 = .ok registry ∧
          ((synthesize .inTurn operands).run.run journal).2.toList = journal.toList ++ events) ∧
        events.filter (·.level = .trace) = records.map .changed ∧
        events.filter (·.level = .debug) = .permuting operands.length ::
          counts.mapIdx (fun i count => .searchedOrdering i count.evaluated count.improved) ∧
        events.filter (·.level = .info) =
          [.synthesizing operands, .synthesized evaluated improved registry.size] ∧
        (counts.map Stats.evaluated).sum = evaluated ∧
        (counts.map Stats.improved).sum = improved ∧
        records.length = improved ∧
        records.countP (·.former.isNone) = registry.size ∧
        Chronicle records registry := by
  refine ⟨fun f e => ⟨(f.registry.offer e).2, ?_, ?_, ?_, ?_⟩, fun es => ?_,
    fun operands hne hdigit => ?_⟩
  · rw [Findings.offer_eq]
    rfl
  · rw [Findings.offer_eq]
    exact f.registry.offer_changes_iff e
  · rw [Findings.offer_eq, Array.toList_append]
  · rw [Findings.offer_eq]
    rfl
  · simp only [Findings.of_eq]
    exact ⟨rfl, chronicle_changes es⟩
  · have hrefusal := refusal?_eq_none_iff.2 ⟨hne, hdigit⟩
    -- The records of all searches are those of one row of offers, ordering after ordering.
    obtain ⟨parts, hparts⟩ := exists_inTurn (ne_nil_of_mem_orderingsOf hne) .empty
    have hlogs := logs_synthesize hrefusal hparts
    have htotal := hparts.total_eq
    refine ⟨_, journalOf operands parts _, Registry.empty.changes (allCandidates (orderingsOf operands)),
      parts.map Findings.stats, (Stats.total parts).evaluated, (Stats.total parts).improved, hlogs,
      ?_, ?_, ?_, ?_, ?_, ?_, ?_, chronicle_changes _⟩
    · rw [filter_journalOf, filter_trace_eventsFrom, hparts.changes_eq]
      exact List.append_nil _
    · rw [filter_journalOf, filter_debug_eventsFrom,
        List.mapIdx_eq_zipIdx_map, List.zipIdx_map, List.map_map]
      exact List.append_nil _
    · rw [filter_journalOf, filter_info_eventsFrom]
      rfl
    · rw [List.map_map]
      rfl
    · rw [List.map_map]
      rfl
    · rw [htotal]
    · rw [Registry.size_afterAll, Registry.size_empty, Nat.zero_add]

/-- The journal of a synthesis from `2` and `5` rebuilds what the synthesis comes to. -/
theorem journal_chronicles_two : [2, 5] ≠ [] ∧ (∀ operand ∈ [2, 5], operand ≤ maxOperand) ∧
    ∃ (registry : Registry) (events : List Event) (records : List Change)
      (evaluated improved : Nat),
      ((synthesize .inTurn [2, 5]).run.run #[]).1 = .ok registry ∧
      ((synthesize .inTurn [2, 5]).run.run #[]).2.toList = events ∧
      events.filter (·.level = .trace) = records.map .changed ∧
      events.filter (·.level = .info) =
        [.synthesizing [2, 5], .synthesized evaluated improved registry.size] ∧
      records.length = improved ∧ records.countP (·.former.isNone) = registry.size ∧
      records.foldl Registry.record .empty = registry := by
  have hne : [2, 5] ≠ [] := by decide
  have hdigit : ∀ operand ∈ [2, 5], operand ≤ maxOperand := by decide
  obtain ⟨registry, events, records, -, evaluated, improved, hrun, htrace, -, hinfo, -, -, himproved,
    hreached, hrecords⟩ := journal_chronicles.2.2 [2, 5] hne hdigit
  exact ⟨hne, hdigit, registry, events, records, evaluated, improved, (hrun #[]).1, (hrun #[]).2,
    htrace, hinfo, himproved, hreached, hrecords.rebuilds⟩

end DigitReach

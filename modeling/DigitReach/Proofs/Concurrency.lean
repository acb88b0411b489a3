import DigitReach.Proofs.Search

/-!
# Searches at the same time

Searches apart may go on at the same time. Each is then the work of a *worker*, which
builds the bracketings of its ordering and offers their expressions to a registry of its
own, one after the other. Any worker may be the next to do a step (`CrewStep`), so the
searches may begin, go on and end in any order. What they have found is collected in the
order of the orderings (`Collected`), and merged.

* `WorkerStep.outlook`: a step of a worker does not change what its search will find, and
  thus nor does a step of the crew (`outlook_of_run`);
* `exists_run_to_end`: every crew can go on until all searches are over, and does so in a
  fixed number of steps (`WorkerStep.left`);
* `concurrent_iff_inTurn`: whatever the order of the steps, a synthesis comes to what it
  comes to when the orderings are searched in turn.
-/

namespace DigitReach

open Relation (ReflTransGen)

/-! ## Workers -/

/-- The search of one ordering. -/
inductive Worker where
  /-- It has not begun. -/
  | waiting (ordering : List Recipe)
  /-- It has found something so far, and still has to offer some expressions. -/
  | searching (found : Findings) (pending : List Expr)
  /-- It has found nothing to arrange. -/
  | failed (error : EnumerationError)

/-- A worker begins, or offers the next expression. -/
inductive WorkerStep : Worker → Worker → Prop
  | begin {ordering : List Recipe} {trees : LazyList Recipe}
      (h : bracketings? Recipe.node ordering = .ok trees) :
      WorkerStep (.waiting ordering)
        (.searching (.start .empty) (trees.toList.flatMap fun tree => tree.expressions.toList))
  | fail {ordering : List Recipe} {error : EnumerationError}
      (h : bracketings? Recipe.node ordering = .error error) :
      WorkerStep (.waiting ordering) (.failed error)
  | offer {found : Findings} {e : Expr} {pending : List Expr} :
      WorkerStep (.searching found (e :: pending)) (.searching (found.offer e) pending)

namespace Worker

/-- What the worker will have found at its end. -/
def outlook : Worker → Except EnumerationError Findings
  | waiting ordering => searchOrdering .empty ordering
  | searching found pending => .ok (pending.foldl Findings.offer found)
  | failed error => .error error

/-- The number of steps that are left to the worker. -/
def left : Worker → Nat
  | waiting ordering => (candidates ordering).length + 1
  | searching _ pending => pending.length
  | failed _ => 0

/-- A worker with steps left can do one. -/
theorem exists_step {w : Worker} (h : w.left ≠ 0) : ∃ w', WorkerStep w w' := by
  rcases w with ordering | ⟨found, _ | ⟨e, pending⟩⟩ | error
  · rcases hbegin : bracketings? Recipe.node ordering with error | trees
    · exact ⟨_, .fail hbegin⟩
    · exact ⟨_, .begin hbegin⟩
  · exact absurd rfl h
  · exact ⟨_, .offer⟩
  · exact absurd rfl h

/-- A worker without steps left has found what it was to find. -/
theorem eq_of_left_eq_zero {w : Worker} {found : Findings} (hleft : w.left = 0)
    (h : w.outlook = .ok found) : w = .searching found [] := by
  rcases w with ordering | ⟨found', _ | ⟨e, pending⟩⟩ | error
  · cases hleft
  · rw [← Except.ok.inj h]
    rfl
  · cases hleft
  · cases h

end Worker

namespace WorkerStep

variable {w w' : Worker}

/-- What a search finds does not depend on how far it has gone on. -/
theorem outlook (h : WorkerStep w w') : w'.outlook = w.outlook := by
  cases h with
  | @begin ordering trees h =>
    have hne : ordering ≠ [] := by
      rintro rfl
      cases h
    have htrees : trees = bracketings Recipe.node ordering :=
      Except.ok.inj (h.symm.trans (bracketings?_of_ne_nil hne))
    rw [Worker.outlook, Worker.outlook, searchOrdering_eq _ hne, htrees]
    rfl
  | fail h =>
    rw [Worker.outlook, Worker.outlook, searchOrdering, h]
    rfl
  | offer => rfl

/-- Each step is one of those that were left. -/
theorem left (h : WorkerStep w w') : w.left = w'.left + 1 := by
  cases h with
  | @begin ordering trees h =>
    rcases ordering with _ | ⟨r, ordering⟩
    · cases h
    · obtain rfl : bracketings Recipe.node (r :: ordering) = trees := Except.ok.inj h
      rfl
  | @fail ordering error h =>
    rcases ordering with _ | ⟨r, ordering⟩
    · rw [Worker.left, candidates, toList_bracketings_nil]
      rfl
    · cases h
  | offer => rfl

end WorkerStep

/-! ## Crews -/

/-- One of the workers does a step, whichever it is. -/
inductive CrewStep : List Worker → List Worker → Prop
  | work {before after : List Worker} {w w' : Worker} (h : WorkerStep w w') :
      CrewStep (before ++ w :: after) (before ++ w' :: after)

/-- What is collected from a crew: an error, if a search has failed, or what all searches
    have found, once they are over, in the order of the orderings. -/
inductive Collected : List Worker → Except EnumerationError (Registry × Stats) → Prop
  | all (parts : List Findings) : Collected (parts.map (.searching · [])) (.ok (merged parts))
  | failed {crew : List Worker} {error : EnumerationError} (h : .failed error ∈ crew) :
      Collected crew (.error error)

variable {crew crew' : List Worker}

/-- However far the searches have gone on, they will find the same. -/
theorem outlook_of_run (h : ReflTransGen CrewStep crew crew') :
    crew'.map Worker.outlook = crew.map Worker.outlook := by
  induction h with
  | refl => rfl
  | tail _ hstep ih =>
    obtain ⟨hstep⟩ := hstep
    rw [← ih, List.map_append, List.map_cons, hstep.outlook, List.map_append, List.map_cons]

/-- All searches can be brought to their ends. -/
theorem exists_run_to_end (crew : List Worker) :
    ∃ crew', ReflTransGen CrewStep crew crew' ∧ ∀ w ∈ crew', w.left = 0 := by
  induction hleft : (crew.map Worker.left).sum generalizing crew with
  | zero =>
    rw [List.sum_eq_zero_iff_forall_eq_nat] at hleft
    exact ⟨crew, .refl, fun w hw => hleft _ (List.mem_map_of_mem hw)⟩
  | succ n ih =>
    obtain ⟨w, hw, hmore⟩ : ∃ w ∈ crew, w.left ≠ 0 := by
      obtain ⟨left, hmem, hpos⟩ := List.sum_pos_iff_exists_pos_nat.1
        (hleft.symm ▸ n.succ_pos : 0 < (crew.map Worker.left).sum)
      obtain ⟨w, hw, rfl⟩ := List.mem_map.1 hmem
      exact ⟨w, hw, hpos.ne'⟩
    obtain ⟨w', hstep⟩ := w.exists_step hmore
    obtain ⟨before, after, rfl⟩ := List.append_of_mem hw
    have hrest : ((before ++ w' :: after).map Worker.left).sum = n := by
      simp only [List.map_append, List.map_cons, List.sum_append, List.sum_cons,
        hstep.left] at hleft ⊢
      omega
    obtain ⟨crew', hrun, hend⟩ := ih _ hrest
    exact ⟨crew', hrun.head ⟨hstep⟩, hend⟩

/-- A crew that has come to its end has found what it was to find. -/
theorem eq_of_end {parts : List Findings} (hend : ∀ w ∈ crew, w.left = 0)
    (h : crew.map Worker.outlook = parts.map .ok) : crew = parts.map (.searching · []) := by
  induction crew generalizing parts with
  | nil =>
    obtain rfl : parts = [] := List.map_eq_nil_iff.1 h.symm
    rfl
  | cons w crew ih =>
    rw [List.forall_mem_cons] at hend
    obtain ⟨found, parts, rfl, hw, hcrew⟩ := List.map_eq_cons_iff.1 h.symm
    rw [List.map_cons, Worker.eq_of_left_eq_zero hend.1 hw.symm, ih hend.2 hcrew.symm]

/-- Where no search fails, what is collected in the end does not depend on the order of
    the steps. -/
theorem collected_iff {orderings : List (List Recipe)} (hne : ∀ o ∈ orderings, o ≠ [])
    {result : Except EnumerationError (Registry × Stats)} :
    (∃ crew, ReflTransGen CrewStep (orderings.map .waiting) crew ∧ Collected crew result) ↔
      result = .ok (merged (orderings.map (searched .empty))) := by
  have hstart : (orderings.map Worker.waiting).map Worker.outlook =
      (orderings.map (searched .empty)).map .ok := by
    rw [List.map_map, List.map_map]
    exact List.map_congr_left fun o ho => searchOrdering_eq .empty (hne o ho)
  constructor
  · rintro ⟨crew, hrun, hcollect⟩
    have houtlook := (outlook_of_run hrun).trans hstart
    cases hcollect with
    | all parts =>
      rw [List.map_map] at houtlook
      rw [(List.map_injective_iff.2 fun _ _ => Except.ok.inj) houtlook]
    | failed hfailed =>
      -- A failed search would have been bound to fail from the start.
      have hmem := List.mem_map_of_mem (f := Worker.outlook) hfailed
      rw [houtlook] at hmem
      obtain ⟨_, _, herror⟩ := List.mem_map.1 hmem
      cases herror
  · rintro rfl
    obtain ⟨crew, hrun, hend⟩ := exists_run_to_end (orderings.map .waiting)
    have houtlook := (outlook_of_run hrun).trans hstart
    rw [eq_of_end hend houtlook] at hrun
    exact ⟨_, hrun, .all _⟩

/-! ## Syntheses -/

/-- What a synthesis may come to if the orderings are searched at the same time. -/
inductive Concurrently (operands : List Nat) : Except SynthesisError Registry → Prop
  /-- The operands are refused. -/
  | refused {error : SynthesisError} (h : Yields (checkOperands operands) (.error error)) :
      Concurrently operands (.error error)
  /-- There are no orderings. -/
  | nothing {error : EnumerationError} (hcheck : Yields (checkOperands operands) (.ok ()))
      (hbegin : Yields (beginOrderings (operands.map fun operand =>
        Recipe.leaf (Float.ofNat operand))) (.error error)) :
      Concurrently operands (.error (.enumeration error))
  /-- The orderings are searched by a crew, in some order. -/
  | searched {orderings : Orderings Recipe} {crew : List Worker}
      {result : Except EnumerationError (Registry × Stats)}
      (hcheck : Yields (checkOperands operands) (.ok ()))
      (hbegin : Yields (beginOrderings (operands.map fun operand =>
        Recipe.leaf (Float.ofNat operand))) (.ok orderings))
      (hrun : ReflTransGen CrewStep (orderings.remaining.toList.map .waiting) crew)
      (hcollect : Collected crew result) :
      Concurrently operands ((result.map Prod.fst).mapError .enumeration)

section

variable {operands : List Nat} {result : Except SynthesisError Registry}

theorem concurrently_of_refused {error : SynthesisError} (h : refusal? operands = some error) :
    Concurrently operands result ↔ result = .error error := by
  have hcheck := yields_checkOperands operands
  rw [h] at hcheck
  constructor
  · rintro (hrefused | ⟨haccepted, -⟩ | ⟨haccepted, -, -, -⟩)
    · rw [Except.error.inj (hrefused.unique hcheck)]
    · cases hcheck.unique haccepted
    · cases hcheck.unique haccepted
  · rintro rfl
    exact .refused hcheck

/-- What a crew finds, of operands that are accepted, is what the candidates make known. -/
theorem concurrently_of_accepted (h : refusal? operands = none) :
    Concurrently operands result ↔
      result = .ok (Registry.empty.afterAll (allCandidates (orderingsOf operands))) := by
  have hne := ne_nil_of_refusal? h
  have hcheck := yields_checkOperands operands
  have hbegin := yields_beginOrderings
    (operands.map fun operand => Recipe.leaf (Float.ofNat operand)) (mt List.map_eq_nil_iff.1 hne)
  have hordering := ne_nil_of_mem_orderingsOf hne
  rw [h] at hcheck
  rw [orderingsOf, ← Orderings.toList_remaining] at hordering
  rw [orderingsOf, ← Orderings.toList_remaining, ← registry_merged]
  constructor
  · -- The operands are neither refused nor without orderings.
    rintro (hrefused | ⟨-, hnothing⟩ | ⟨-, hbegin', hrun, hcollect⟩)
    · cases hcheck.unique hrefused
    · cases hbegin.unique hnothing
    · obtain rfl := Except.ok.inj (hbegin.unique hbegin')
      rw [(collected_iff hordering).1 ⟨_, hrun, hcollect⟩]
      rfl
  · rintro rfl
    obtain ⟨crew, hrun, hcollect⟩ := (collected_iff hordering).2 rfl
    exact .searched hcheck hbegin hrun hcollect

end

/-- However the searches of the orderings are interleaved, a synthesis comes to what it comes
    to in turn, and so does the one that searches them apart. -/
theorem concurrent_iff_inTurn (operands : List Nat) (journal journal' : Array Event) :
    ((synthesize .apart operands).run.run journal).1 =
        ((synthesize .inTurn operands).run.run journal').1 ∧
      ∀ result, Concurrently operands result ↔
        result = ((synthesize .inTurn operands).run.run journal').1 := by
  rw [yields_synthesize .apart, yields_synthesize .inTurn]
  refine ⟨rfl, fun result => ?_⟩
  rcases hrefusal : refusal? operands with _ | error
  · rw [synthesized, hrefusal]
    exact concurrently_of_accepted hrefusal
  · rw [synthesized, hrefusal]
    exact concurrently_of_refused hrefusal

end DigitReach

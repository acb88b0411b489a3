import DigitReach.CommandLine
import DigitReach.Proofs.Digits
import DigitReach.Proofs.Operands
import DigitReach.Proofs.Optimality

/-!
# Some number is always reached

Of digits, at least one, some digit is reached by arithmetic alone. Subtract one digit after
the other, each time the smaller of what there is from the greater: what is left is a digit
again, and the difference is exact (`exists_difference`). On which side a digit comes is told
by the digits themselves, so this puts the operands in some order, and all orders are tried.

* `synthesize_ne_empty`: so a synthesis comes to a registry that is not empty;
* `Request.search_run`: a search that was asked for on the command line therefore never finds
  nothing, and goes on as if it had not looked;
* `Notes` says which events a computation may enter into the journal. By this,
  `reaches_some_digit` can say of the whole program that it never tells of having reached
  nothing.
-/

namespace DigitReach

/-! ## Differences -/

variable {operands : List Nat}

/-- Of digits, at least one, differences can be taken so that a digit is left. -/
theorem exists_difference (hne : operands ≠ [])
    (hdigit : ∀ operand ∈ operands, operand ≤ maxOperand) :
    ∃ (ds : List Nat) (e : Expr) (v : Nat), ds.Perm operands ∧ e.Uses (ds.map Float.ofNat) ∧
      e.rank ≤ 1 ∧ v ≤ maxOperand ∧ e.value = Float.ofNat v := by
  induction operands with
  | nil => exact absurd rfl hne
  | cons d rest ih =>
    rw [List.forall_mem_cons] at hdigit
    obtain ⟨hd, hrest⟩ := hdigit
    have hself : (Expr.constant (Float.ofNat d)).Uses [Float.ofNat d] := .operand .bare
    by_cases hnil : rest = []
    · subst hnil
      exact ⟨[d], .constant (Float.ofNat d), d, .refl _, hself, Nat.zero_le 1, hd, rfl⟩
    obtain ⟨ds, e, v, hperm, huses, hrank, hv, hvalue⟩ := ih hnil hrest
    -- The next digit comes behind what is left of the others, or in front of it.
    rcases Nat.le_total d v with hle | hle
    · refine ⟨ds ++ [d], .binary .subtract e (.constant (Float.ofNat d)), v - d, ?_, ?_, ?_, ?_, ?_⟩
      · exact (List.perm_append_singleton d ds).trans (hperm.cons d)
      · rw [List.map_append]
        exact .join huses hself (.binary .subtract) .bare
      · exact Nat.max_le.2 ⟨Nat.max_le.2 ⟨hrank, Nat.zero_le 1⟩, le_rfl⟩
      · exact (Nat.sub_le v d).trans hv
      · change e.value - Float.ofNat d = _
        rw [hvalue, ofNat_sub_ofNat hle hv]
    · refine ⟨d :: ds, .binary .subtract (.constant (Float.ofNat d)) e, d - v, ?_, ?_, ?_, ?_, ?_⟩
      · exact hperm.cons d
      · exact .join hself huses (.binary .subtract) .bare
      · exact Nat.max_le.2 ⟨Nat.max_le.2 ⟨Nat.zero_le 1, hrank⟩, le_rfl⟩
      · exact (Nat.sub_le d v).trans hd
      · change Float.ofNat d - e.value = _
        rw [hvalue, ofNat_sub_ofNat hle hd]

/-! ## Registries that are not empty -/

/-- A registry with an answer is not empty. -/
theorem Registry.size_ne_zero {r : Registry} {n : Nat} {answer : Answer}
    (h : r.get? n = some answer) : r.size ≠ 0 := by
  have hmem : (⟨n, lt_of_get? h⟩, answer) ∈ r.entries := mem_entries.2 h
  exact (List.length_pos_of_mem hmem).ne'

/-- Of digits, at least one, a synthesis reaches a digit, and by no more than arithmetic. -/
theorem synthesize_ne_empty (hne : operands ≠ [])
    (hdigit : ∀ operand ∈ operands, operand ≤ maxOperand) (mode : Mode) :
    ∃ registry, Yields (synthesize mode operands) (.ok registry) ∧ registry.size ≠ 0 ∧
      ∃ n ≤ maxOperand, ∃ answer, registry.get? n = some answer ∧ answer.rank ≤ 1 := by
  obtain ⟨ds, e, n, hperm, huses, hrank, hn, hvalue⟩ := exists_difference hne hdigit
  have hmem := mem_allCandidates.2 ⟨ds, hperm, huses⟩
  have hreaches : e.Reaches n := by rw [Expr.Reaches, hvalue, of?_ofNat hn]
  obtain ⟨best, hbest⟩ := exists_isFirstBest ⟨e, hmem, hreaches⟩
  have hget := ((Registry.summarizes_afterAll _).get?_eq_some_iff n best.answer).2
    ⟨best, hbest, rfl⟩
  refine ⟨_, ?_, Registry.size_ne_zero hget, n, hn, best.answer, hget,
    (hbest.rank_le hmem hreaches).trans hrank⟩
  have hyields := yields_synthesize mode operands
  rwa [synthesized, refusal?_eq_none hne hdigit] at hyields

/-! ## What is entered into the journal -/

section

variable {ε ε' α β : Type}

/-- All that the computation enters into the journal has a property. -/
def Notes (P : Event → Prop) (x : ExceptT ε Journaled α) : Prop :=
  ∀ journal, ∀ event ∈ (x.run.run journal).2, event ∈ journal ∨ P event

namespace Notes

variable {P : Event → Prop} {x : ExceptT ε Journaled α} {f : α → ExceptT ε Journaled β}

theorem pure (a : α) : Notes P (Pure.pure a : ExceptT ε Journaled α) := fun _ _ => .inl

theorem throw (e : ε) : Notes P (MonadExcept.throw e : ExceptT ε Journaled α) := fun _ _ => .inl

theorem throw_bind (e : ε) : Notes P ((MonadExcept.throw e : ExceptT ε Journaled α) >>= f) :=
  fun _ _ => .inl

theorem lift (a : Except ε α) : Notes P (liftM a : ExceptT ε Journaled α) := by
  cases a with
  | ok a => exact pure a
  | error e => exact throw e

theorem bind (hx : Notes P x) (hf : ∀ a, Notes P (f a)) : Notes P (x >>= f) := by
  intro journal event hevent
  have hfirst := hx journal
  rw [Yields.run_bind] at hevent
  generalize x.run.run journal = first at hfirst hevent
  obtain ⟨_ | a, journal'⟩ := first
  · exact hfirst event hevent
  · rcases hf a journal' event hevent with hjournal | hP
    · exact hfirst event hjournal
    · exact .inr hP

theorem note {y : ExceptT ε Journaled β} (hy : Notes P y) {event : Event} (h : P event) :
    Notes P (do DigitReach.note event; y) := by
  intro journal event' hevent'
  rcases hy (journal.push event) event' hevent' with hjournal | hP
  · rcases Array.mem_push.1 hjournal with hold | rfl
    · exact .inl hold
    · exact .inr h
  · exact .inr hP

theorem noteChanges {y : ExceptT ε Journaled β} (hy : Notes P y) {changes : Array Change}
    (h : ∀ change, P (.changed change)) :
    Notes P (do DigitReach.noteChanges changes; y) := by
  intro journal event hevent
  rcases hy (journal ++ changes.map Event.changed) event hevent with hjournal | hP
  · rcases Array.mem_append.1 hjournal with hold | hchange
    · exact .inl hold
    · obtain ⟨change, -, rfl⟩ := Array.mem_map.1 hchange
      exact .inr (h change)
  · exact .inr hP

theorem adapt (hx : Notes P x) (g : ε → ε') : Notes P (x.adapt g) := hx

end Notes

end

/-- A search in turn does not tell of having reached nothing. -/
theorem notes_searchInTurn (orderings : LazyList (List Recipe)) (index : Nat)
    (registry : Registry) (stats : Stats) :
    Notes (· ≠ .nothingReached) (searchInTurn index registry stats orderings) := by
  induction orderings generalizing index registry stats with
  | nil => exact .pure _
  | cons ordering rest ih =>
    rw [searchInTurn]
    exact .bind (.lift _) fun found =>
      .noteChanges (.note (ih () _ _ _) (by simp)) fun _ => by simp

/-- Nor does a search apart. -/
theorem notes_searchApart (orderings : List (List Recipe)) :
    Notes (· ≠ .nothingReached) (searchApart orderings) := by
  have hparts : Notes (· ≠ .nothingReached) (orderings.mapM fun ordering =>
      (liftM (searchOrdering .empty ordering) : ExceptT EnumerationError Journaled Findings)) := by
    induction orderings with
    | nil => exact .pure _
    | cons ordering rest ih =>
      rw [List.mapM_cons]
      exact .bind (.lift _) fun _ => .bind ih fun _ => .pure _
  exact .note (.bind hparts fun _ => .noteChanges (.pure _) fun _ => by simp) (by simp)

/-- A synthesis does not tell of having reached nothing. -/
theorem notes_synthesize (mode : Mode) (operands : List Nat) :
    Notes (· ≠ .nothingReached) (synthesize mode operands) := by
  have hcheck : Notes (· ≠ .nothingReached) (checkOperands operands) := by
    rw [checkOperands]
    rcases operands with _ | ⟨operand, operands⟩
    · exact .note (.throw_bind _) (by simp)
    · rw [List.isEmpty_cons, if_neg Bool.false_ne_true]
      rcases (operand :: operands).find? (maxOperand < ·) with _ | tooLarge
      · exact .pure _
      · exact .note (.throw _) (by simp)
  have hall (leaves : List Recipe) : Notes (· ≠ .nothingReached) (searchAll mode leaves) := by
    refine .bind (.bind (.lift _) fun _ => .note (.pure _) (by simp)) fun orderings => ?_
    cases mode with
    | inTurn => exact notes_searchInTurn _ _ _ _
    | apart => exact notes_searchApart _
  refine .bind hcheck fun _ => .note (.bind (.adapt (hall _) _) fun _ => ?_) (by simp)
  exact .note (.pure _) (by simp)

/-! ## The command line -/

namespace CommandLine

/-- The request that the arguments make, if their text of digits is accepted. -/
theorem Arguments.yields_request (a : Arguments) : Yields a.request
    ((operandsRead a.digits).map fun operands =>
      ⟨operands, a.level, if a.parallel then .apart else .inTurn, a.missing⟩) := by
  have hread := yields_readOperands a.digits
  rcases hresult : operandsRead a.digits with error | operands
  · rw [hresult] at hread
    exact .bind_error hread
  · rw [hresult] at hread
    exact .bind hread (.pure _)

/-- The operands of a request that the arguments make are digits, and there is at least one. -/
theorem Arguments.digits_of_request {a : Arguments} {q : Request} {journal : Array Event}
    (h : (a.request.run.run journal).1 = .ok q) :
    q.operands ≠ [] ∧ ∀ operand ∈ q.operands, operand ≤ maxOperand := by
  rw [a.yields_request] at h
  rcases hread : operandsRead a.digits with error | operands
  · rw [hread] at h
    cases h
  · rw [hread] at h
    obtain rfl := Except.ok.inj h
    exact digits_of_operandsRead hread

/-- A search for digits, at least one, does no more than a synthesis: it has always reached
    something. -/
theorem Request.search_run (q : Request) (hne : q.operands ≠ [])
    (hdigit : ∀ operand ∈ q.operands, operand ≤ maxOperand) (journal : Array Event) :
    q.search.run.run journal =
      (synthesize q.mode q.operands).run.run (journal.push (.combining q.operands)) := by
  obtain ⟨registry, hyields, hsize, -⟩ := synthesize_ne_empty hne hdigit q.mode
  change (synthesize q.mode q.operands >>= _).run.run (journal.push _) = _
  rw [Yields.run_bind]
  have hresult := hyields (journal.push (.combining q.operands))
  generalize (synthesize q.mode q.operands).run.run (journal.push _) = found at hresult ⊢
  obtain ⟨result, journal'⟩ := found
  obtain rfl : result = .ok registry := hresult
  change (if registry.size = 0 then _ else _ :
    ExceptT SynthesisError Journaled Registry).run.run _ = _
  rw [if_neg hsize]
  rfl

/-- The program never tells of having reached nothing, however its arguments are read. -/
theorem nothingReached_not_mem_events (read : List String → Except Stop Arguments)
    (arguments : List String) : Event.nothingReached ∉ (runWith read arguments).events := by
  rw [runWith]
  rcases read arguments with stop | a
  · cases stop <;> exact List.not_mem_nil
  dsimp only
  rcases hrequest : (a.request.run.run #[]).1 with error | q
  · exact List.not_mem_nil
  obtain ⟨hne, hdigit⟩ := a.digits_of_request hrequest
  have hnotes := notes_synthesize q.mode q.operands #[.combining q.operands] .nothingReached
  change Event.nothingReached ∉ q.outcome.events
  rw [Request.outcome, q.search_run hne hdigit]
  change _ ∈ ((synthesize q.mode q.operands).run.run
    (#[].push (.combining q.operands))).2 → _ at hnotes
  generalize (synthesize q.mode q.operands).run.run
    (#[].push (.combining q.operands)) = found at hnotes ⊢
  obtain ⟨result, journal⟩ := found
  have hjournal : Event.nothingReached ∉ journal := by
    intro hmem
    rcases hnotes hmem with hmem | hne
    · simp at hmem
    · exact hne rfl
  rcases result with error | registry <;>
    exact fun hmem => hjournal (Array.mem_toList_iff.1 (List.mem_of_mem_filter hmem))

end CommandLine

/-! ## The result -/

/-- Of digits, at least one, a synthesis reaches a digit, and by no more than arithmetic. So a
    search that is asked for on the command line is just a synthesis: it has reached something,
    and the program, however it reads its arguments, never tells of having reached nothing. -/
theorem reaches_some_digit :
    (∀ operands : List Nat, operands ≠ [] → (∀ operand ∈ operands, operand ≤ maxOperand) →
      ∀ (mode : Mode) (journal : Array Event), ∃ registry,
        ((synthesize mode operands).run.run journal).1 = .ok registry ∧ registry.size ≠ 0 ∧
        ∃ n ≤ maxOperand, ∃ answer, registry.get? n = some answer ∧ answer.rank ≤ 1) ∧
    (∀ (a : CommandLine.Arguments) (q : CommandLine.Request) (journal : Array Event),
      (a.request.run.run journal).1 = .ok q → ∀ journal', q.search.run.run journal' =
        (synthesize q.mode q.operands).run.run (journal'.push (.combining q.operands))) ∧
    ∀ (read : List String → Except CommandLine.Stop CommandLine.Arguments)
      (arguments : List String),
      Event.nothingReached ∉ (CommandLine.runWith read arguments).events := by
  refine ⟨fun operands hne hdigit mode journal => ?_, fun a q journal hrequest journal' => ?_,
    CommandLine.nothingReached_not_mem_events⟩
  · obtain ⟨registry, hyields, hregistry⟩ := synthesize_ne_empty hne hdigit mode
    exact ⟨registry, hyields journal, hregistry⟩
  · obtain ⟨hne, hdigit⟩ := a.digits_of_request hrequest
    exact q.search_run hne hdigit journal'

/-- Three equal digits, and the digits of a command line. -/
theorem reaches_some_digit_nines :
    ([9, 9, 9] ≠ [] ∧ (∀ operand ∈ [9, 9, 9], operand ≤ maxOperand) ∧ ∃ registry,
      ((synthesize .apart [9, 9, 9]).run.run #[]).1 = .ok registry ∧ registry.size ≠ 0 ∧
      ∃ n ≤ maxOperand, ∃ answer, registry.get? n = some answer ∧ answer.rank ≤ 1) ∧
    let a : CommandLine.Arguments := ⟨"999", .warn, true, false⟩
    let q : CommandLine.Request := ⟨[9, 9, 9], .warn, .apart, false⟩
    (a.request.run.run #[]).1 = .ok q ∧ q.search.run.run #[] =
      (synthesize .apart [9, 9, 9]).run.run #[.combining [9, 9, 9]] :=
  ⟨⟨by decide, by decide, reaches_some_digit.1 [9, 9, 9] (by decide) (by decide) .apart #[]⟩,
    rfl, reaches_some_digit.2.1 ⟨"999", .warn, true, false⟩ _ #[] rfl #[]⟩

end DigitReach

import DigitReach.Proofs.Operands
import DigitReach.Proofs.Reachability

/-!
# What a run of the program prints

Once the arguments are read, however that is done (`runWith`), what the program prints, and the
status that it ends with, depend on two things only: the text of digits, and whether the targets
that were not reached are to be listed (`printed`). The flag that has the orderings searched
apart leads to the same registry, and the level of the events to show is asked for only where
they are shown.

* `Request.outcome_eq`: the request for digits, at least one, leads to the report on their
  registry. Its search does not fail, so nothing is ever said of a failed search;
* `runWith_eq_printed`: so what a run prints is told by the text of digits and one flag;
* `outcome_of_digits`: a report on digits (`Reported`), a complaint of anything else (`Refused`),
  and nothing that the other flags could change.
-/

namespace DigitReach.CommandLine

/-- The registry that operands lead to. -/
def registryOf (operands : List Nat) : Registry :=
  Registry.empty.afterAll (allCandidates (orderingsOf operands))

/-- The status and the print of a run, told by the text of digits and by whether the targets
    that were not reached are to be listed. -/
def printed (digits : String) (missing : Bool) : UInt32 × String :=
  match operandsRead digits with
  | .error _ => (1, "")
  | .ok operands => (0, Report.text (registryOf operands) missing)

theorem synthesized_eq {operands : List Nat} (hne : operands ≠ [])
    (hdigit : ∀ operand ∈ operands, operand ≤ maxOperand) :
    synthesized operands = .ok (registryOf operands) := by
  rw [synthesized, refusal?_eq_none hne hdigit, registryOf]

/-- The search for digits, at least one, does not fail. -/
theorem Request.yields_search (q : Request) (hne : q.operands ≠ [])
    (hdigit : ∀ operand ∈ q.operands, operand ≤ maxOperand) :
    Yields q.search (.ok (registryOf q.operands)) := by
  intro journal
  rw [q.search_run hne hdigit, yields_synthesize, synthesized_eq hne hdigit]

/-- It leads to the report on what was found. -/
theorem Request.outcome_eq (q : Request) (hne : q.operands ≠ [])
    (hdigit : ∀ operand ∈ q.operands, operand ≤ maxOperand) :
    q.outcome.status = 0 ∧ q.outcome.output = Report.text (registryOf q.operands) q.missing ∧
      q.outcome.complaint = "" := by
  rw [outcome, (q.yields_search hne hdigit).run_eq]
  exact ⟨rfl, rfl, rfl⟩

section

variable {read : List String → Except Stop Arguments} {arguments : List String} {a : Arguments}

/-- Digits that are refused lead to a complaint of them. -/
theorem runWith_of_refused (h : read arguments = .ok a) {error : DigitsError}
    (hread : operandsRead a.digits = .error error) :
    runWith read arguments = failure (digitsComplaint error) [] := by
  rw [runWith, h]
  dsimp only
  rw [a.yields_request, hread]
  rfl

/-- Digits that are accepted lead to the outcome of a request for them. -/
theorem runWith_of_accepted (h : read arguments = .ok a) {operands : List Nat}
    (hread : operandsRead a.digits = .ok operands) :
    runWith read arguments = Request.outcome
      ⟨operands, a.level, if a.parallel then .apart else .inTurn, a.missing⟩ := by
  rw [runWith, h]
  dsimp only
  rw [a.yields_request, hread]
  rfl

/-- What a run prints is told by the text of digits and one flag. -/
theorem runWith_eq_printed (h : read arguments = .ok a) :
    ((runWith read arguments).status, (runWith read arguments).output) =
      printed a.digits a.missing := by
  rw [printed]
  rcases hread : operandsRead a.digits with error | operands
  · rw [runWith_of_refused h hread]
    rfl
  · obtain ⟨hne, hdigit⟩ := digits_of_operandsRead hread
    obtain ⟨hstatus, houtput, -⟩ := Request.outcome_eq
      ⟨operands, a.level, if a.parallel then .apart else .inTurn, a.missing⟩ hne hdigit
    rw [runWith_of_accepted h hread, hstatus, houtput]

end

/-! ## The outcome -/

/-- A text that consists of digits, at least one. -/
def AllDigits (text : String) : Prop := text ≠ "" ∧ ∀ c ∈ text.toList, '0' ≤ c ∧ c ≤ '9'

/-- Arguments lead to a request, its search to a registry, and that to the report. -/
structure Reported (a : Arguments) (outcome : Outcome) (registry : Registry) : Prop where
  /-- The registry is that of the text of digits. -/
  found : Yields (synthesizeDigits a.digits) (.ok registry)
  /-- It is what the search comes to, also if the orderings are searched at the same time. -/
  searched : ∃ request, Yields a.request (.ok request) ∧
    Yields request.search (.ok registry) ∧
    ∀ result, Concurrently request.operands result → result = .ok registry
  status : outcome.status = 0
  output : outcome.output = Report.text registry a.missing
  complaint : outcome.complaint = ""

/-- Arguments lead to no request, and the refusal of their digits is all that is said. -/
structure Refused (a : Arguments) (outcome : Outcome) (error : DigitsError) : Prop where
  request : Yields a.request (.error error)
  status : outcome.status = 1
  output : outcome.output = ""
  complaint : outcome.complaint = "Error: " ++ digitsComplaint error ++ "\n"

section

variable {read : List String → Except Stop Arguments} {arguments : List String} {a : Arguments}

theorem allDigits_iff {text : String} :
    AllDigits text ↔ ∃ operands, operandsRead text = .ok operands := by
  simp only [(textDecides_operandsRead text).ok_iff]
  constructor
  · rintro ⟨hne, hchars⟩
    obtain ⟨operands, hdigit, rfl⟩ := exists_digitText_iff.2 hchars
    exact ⟨operands, mt digitText_eq_empty_iff.2 hne, hdigit, rfl⟩
  · rintro ⟨operands, hne, hdigit, rfl⟩
    exact ⟨mt digitText_eq_empty_iff.1 hne, exists_digitText_iff.1 ⟨operands, hdigit, rfl⟩⟩

theorem reported_of_accepted (h : read arguments = .ok a) {operands : List Nat}
    (hread : operandsRead a.digits = .ok operands) :
    Reported a (runWith read arguments) (registryOf operands) := by
  obtain ⟨hne, hdigit⟩ := digits_of_operandsRead hread
  have hfound := yields_synthesizeDigits a.digits
  have hrequest := a.yields_request
  rw [hread] at hfound hrequest
  have hsynthesized := synthesized_eq hne hdigit
  obtain ⟨hstatus, houtput, hcomplaint⟩ := Request.outcome_eq
    ⟨operands, a.level, if a.parallel then .apart else .inTurn, a.missing⟩ hne hdigit
  rw [runWith_of_accepted h hread]
  exact {
    found := hsynthesized ▸ hfound
    searched := ⟨_, hrequest, Request.yields_search _ hne hdigit, fun result hcrew =>
      (eq_synthesized_of_concurrently hcrew).trans hsynthesized⟩
    status := hstatus
    output := houtput
    complaint := hcomplaint }

theorem refused_of_refused (h : read arguments = .ok a) {error : DigitsError}
    (hread : operandsRead a.digits = .error error) : Refused a (runWith read arguments) error := by
  have hrequest := a.yields_request
  rw [hread] at hrequest
  rw [runWith_of_refused h hread]
  exact ⟨hrequest, rfl, rfl, rfl⟩

/-- A run on a text of digits prints the report on their registry and ends with status `0`; on
    any other text it prints nothing and ends with status `1`. In neither case is a failed
    search complained of. And two runs on the same text that agree on whether the targets not
    reached are to be listed print the same and end with the same status. -/
theorem outcome_of_digits (h : read arguments = .ok a) :
    (AllDigits a.digits → ∃ registry, Reported a (runWith read arguments) registry) ∧
    (¬ AllDigits a.digits → ∃ error, Refused a (runWith read arguments) error) ∧
    ∀ {arguments' : List String} {a' : Arguments}, read arguments' = .ok a' →
      a'.digits = a.digits → a'.missing = a.missing →
      (runWith read arguments').status = (runWith read arguments).status ∧
        (runWith read arguments').output = (runWith read arguments).output := by
  refine ⟨fun hdigits => ?_, fun hdigits => ?_, fun {arguments' a'} h' hdigits hmissing => ?_⟩
  · obtain ⟨operands, hread⟩ := allDigits_iff.1 hdigits
    exact ⟨_, reported_of_accepted h hread⟩
  · rw [allDigits_iff] at hdigits
    rcases hread : operandsRead a.digits with error | operands
    · exact ⟨error, refused_of_refused h hread⟩
    · exact absurd ⟨operands, hread⟩ hdigits
  · rw [← Prod.mk.injEq, runWith_eq_printed h', runWith_eq_printed h, hdigits, hmissing]

/-- Two runs on a text of digits, in turn and apart, print the same, and nothing is printed for
    a text with a letter. -/
theorem outcome_of_digits_parallel :
    (readArguments ["12", "--missing"] = .ok ⟨"12", .warn, false, true⟩ ∧
      readArguments ["-pl", "trace", "--missing", "12"] = .ok ⟨"12", .trace, true, true⟩ ∧
      (run ["-pl", "trace", "--missing", "12"]).status = 0 ∧
      (run ["-pl", "trace", "--missing", "12"]).output = (run ["12", "--missing"]).output) ∧
    readArguments ["1b"] = .ok ⟨"1b", .warn, false, false⟩ ∧ (run ["1b"]).output = "" := by
  have hturn : readArguments ["12", "--missing"] = .ok ⟨"12", .warn, false, true⟩ := by rfl
  have hapart : readArguments ["-pl", "trace", "--missing", "12"] =
      .ok ⟨"12", .trace, true, true⟩ := by rfl
  have hletter : readArguments ["1b"] = .ok ⟨"1b", .warn, false, false⟩ := by rfl
  obtain ⟨hdigits, -, hsame⟩ := outcome_of_digits hturn
  obtain ⟨registry, hreported⟩ := hdigits (by simp [AllDigits])
  obtain ⟨hstatus, houtput⟩ := hsame hapart rfl rfl
  obtain ⟨error, hrefused⟩ := (outcome_of_digits hletter).2.1 (by simp [AllDigits])
  exact ⟨⟨hturn, hapart, hstatus.trans hreported.status, houtput⟩, hletter, hrefused.output⟩

end

end DigitReach.CommandLine

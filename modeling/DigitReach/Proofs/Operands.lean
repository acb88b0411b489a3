import DigitReach.Proofs.Concurrency

/-!
# Which operands are accepted

Operands are refused before anything is searched, and for two reasons only: there are none,
or one of them is no digit. A text of operands is refused if it is empty, or if one of its
characters is no digit. The check goes through the characters of the text, and the reading
through its bytes; but a digit has one byte only, so both agree.

* `digitText` writes digits as a text. The texts of which all characters are digits are those
  that are written so (`exists_digitText_iff`), and their bytes are read as the digits that
  were written (`bytes_digitText`);
* `TextDecides` says how the reading of a text ends, and `OperandsDecide` how a synthesis
  does;
* `refused_iff`: this is how they end, whether the orderings are searched in turn, apart, or
  at the same time.
-/

namespace DigitReach

/-! ## Texts of digits -/

/-- The text of digits. -/
def digitText (ds : List Nat) : String := String.ofList (ds.map Nat.digitChar)

/-- What the bytes of a text are read as. -/
def operandsOf (text : String) : List Nat := text.toUTF8.data.toList.map operandOfByte

section

variable {text : String} {ds : List Nat}

/-- A digit has one byte, which is read as the digit. -/
theorem utf8EncodeChar_digitChar {d : Nat} (h : d ≤ maxOperand) :
    ∃ b, String.utf8EncodeChar d.digitChar = [b] ∧ '0'.toUInt8 ≤ b ∧ operandOfByte b = d := by
  have hall : ∀ d : Fin (maxOperand + 1),
      String.utf8EncodeChar d.val.digitChar = [d.val.digitChar.toUInt8] ∧
        '0'.toUInt8 ≤ d.val.digitChar.toUInt8 ∧
        operandOfByte d.val.digitChar.toUInt8 = d.val := by
    decide
  exact ⟨_, hall ⟨d, Nat.lt_succ_of_le h⟩⟩

theorem isDigit_digitChar {d : Nat} (h : d ≤ maxOperand) : d.digitChar.isDigit := by
  rw [Nat.isDigit_digitChar, decide_eq_true_eq]
  exact Nat.lt_succ_of_le h

theorem isDigit_iff {c : Char} : c.isDigit ↔ '0' ≤ c ∧ c ≤ '9' := by
  simp [Char.isDigit, Char.le_def]

/-- A character that is a digit is that of the digit it is counted as. -/
theorem digitChar_sub {c : Char} (h : c.isDigit) :
    c.toNat - '0'.toNat ≤ maxOperand ∧ (c.toNat - '0'.toNat).digitChar = c := by
  obtain ⟨hle, hge⟩ := Char.isDigit_iff_toNat.1 h
  have hd : c.toNat - '0'.toNat ≤ maxOperand := Nat.sub_le_sub_right hge '0'.toNat
  refine ⟨hd, Char.toNat_inj.1 ?_⟩
  rw [Nat.toNat_digitChar_of_lt_ten (Nat.lt_succ_of_le hd)]
  exact Nat.add_sub_of_le hle

/-- The texts of digits are those of which all characters are digits. -/
theorem exists_digitText_iff : (∃ ds, (∀ d ∈ ds, d ≤ maxOperand) ∧ digitText ds = text) ↔
    ∀ c ∈ text.toList, '0' ≤ c ∧ c ≤ '9' := by
  simp only [← isDigit_iff]
  constructor
  · rintro ⟨ds, hdigit, rfl⟩
    rw [digitText, String.toList_ofList, List.forall_mem_map]
    intro d hd
    rw [Nat.isDigit_digitChar, decide_eq_true_eq]
    exact Nat.lt_succ_of_le (hdigit d hd)
  · intro h
    refine ⟨text.toList.map fun c => c.toNat - '0'.toNat, ?_, ?_⟩
    · rw [List.forall_mem_map]
      exact fun c hc => (digitChar_sub (h c hc)).1
    have hchars : text.toList.map (Nat.digitChar ∘ fun c => c.toNat - '0'.toNat) =
        text.toList.map id :=
      List.map_congr_left fun c hc => (digitChar_sub (h c hc)).2
    rw [digitText, List.map_map, hchars, List.map_id, String.ofList_toList]

/-- The bytes of the text of digits are counted from that of `0`, and are read as the digits. -/
theorem bytes_digitText (h : ∀ d ∈ ds, d ≤ maxOperand) :
    (∀ b ∈ (digitText ds).toUTF8.data.toList, '0'.toUInt8 ≤ b) ∧
      operandsOf (digitText ds) = ds := by
  have hbytes : (digitText ds).toUTF8.data.toList =
      ds.flatMap fun d => String.utf8EncodeChar d.digitChar := by
    rw [String.toUTF8_eq_toByteArray, digitText, String.toByteArray_ofList, List.utf8Encode,
      List.toList_data_toByteArray, List.flatMap_map]
  rw [operandsOf, hbytes]
  clear hbytes
  induction ds with
  | nil => simp
  | cons d ds ih =>
    rw [List.forall_mem_cons] at h
    obtain ⟨b, hb, hle, hread⟩ := utf8EncodeChar_digitChar h.1
    obtain ⟨hrest, hmap⟩ := ih h.2
    rw [List.flatMap_cons, hb, List.singleton_append, List.forall_mem_cons, List.map_cons, hread,
      hmap]
    exact ⟨⟨hle, hrest⟩, rfl⟩

theorem digitText_eq_empty_iff : digitText ds = "" ↔ ds = [] := by
  rw [digitText, String.ofList_eq_empty_iff, List.map_eq_nil_iff]

end

/-! ## The reading of a text -/

/-- Why a text is refused, if it is. -/
def digitsRefusal? (text : String) : Option DigitsError :=
  if text.isEmpty then some .empty
  else (text.toList.find? fun c => !c.isDigit).map fun _ => .nonDigit text

theorem yields_checkDigits (text : String) :
    Yields (checkDigits text) (match digitsRefusal? text with
      | some error => .error error
      | none => .ok ()) := by
  rw [checkDigits, digitsRefusal?]
  refine .note ?_ _
  by_cases hempty : text.isEmpty
  · rw [if_pos hempty, if_pos hempty]
    exact .note (.bind_error (.throw _)) _
  · rw [if_neg hempty, if_neg hempty]
    refine .bind (.pure _) ?_
    generalize text.toList.find? (fun c => !c.isDigit) = found
    rcases found with _ | char
    · exact .pure _
    · exact .note (.throw _) _

/-- What the reading of a text comes to. -/
def operandsRead (text : String) : Except DigitsError (List Nat) :=
  match digitsRefusal? text with
  | some error => .error error
  | none => .ok (operandsOf text)

theorem yields_readOperands (text : String) : Yields (readOperands text) (operandsRead text) := by
  have hcheck := yields_checkDigits text
  rw [operandsRead]
  rcases hrefusal : digitsRefusal? text with _ | error
  · rw [hrefusal] at hcheck
    exact .bind hcheck (.note (.pure _) _)
  · rw [hrefusal] at hcheck
    exact .bind_error hcheck

/-- The digits of which a text is made are read. -/
theorem operandsRead_digitText {ds : List Nat} (hne : ds ≠ []) (h : ∀ d ∈ ds, d ≤ maxOperand) :
    operandsRead (digitText ds) = .ok ds := by
  have hchars := exists_digitText_iff.1 ⟨ds, h, rfl⟩
  have hrefusal : digitsRefusal? (digitText ds) = none := by
    rw [digitsRefusal?, if_neg (by rwa [String.isEmpty_iff, digitText_eq_empty_iff]),
      Option.map_eq_none_iff, List.find?_eq_none]
    simpa [isDigit_iff] using hchars
  rw [operandsRead, hrefusal, (bytes_digitText h).2]

/-- A character that is no digit makes a text refused. -/
theorem operandsRead_of_nonDigit {text : String}
    (h : ∃ c ∈ text.toList, ¬ ('0' ≤ c ∧ c ≤ '9')) :
    operandsRead text = .error (.nonDigit text) := by
  have hempty : ¬ text.isEmpty := by
    rw [String.isEmpty_iff]
    rintro rfl
    obtain ⟨c, hc, -⟩ := h
    exact absurd hc List.not_mem_nil
  have hfound : (text.toList.find? fun c => !c.isDigit).isSome := by
    simpa [List.find?_isSome, ← isDigit_iff] using h
  obtain ⟨c, hc⟩ := Option.isSome_iff_exists.1 hfound
  rw [operandsRead, digitsRefusal?, if_neg hempty, hc, Option.map_some]

/-- How the reading of a text ends. -/
structure TextDecides (text : String) (result : Except DigitsError (List Nat)) : Prop where
  /-- It is refused as empty. -/
  empty_iff : result = .error .empty ↔ text = ""
  /-- It is refused, and quoted, for a character that is no digit. -/
  nonDigit_iff : ∀ t, result = .error (.nonDigit t) ↔
    t = text ∧ ∃ c ∈ text.toList, ¬ ('0' ≤ c ∧ c ≤ '9')
  /-- It is read as the digits, at least one, of which it is the text. -/
  ok_iff : ∀ ds, result = .ok ds ↔
    ds ≠ [] ∧ (∀ d ∈ ds, d ≤ maxOperand) ∧ digitText ds = text
  /-- Then no byte is less than that of `0`, from which the bytes are counted. -/
  zero_le : ∀ ds, result = .ok ds → ∀ b ∈ text.toUTF8.data.toList, '0'.toUInt8 ≤ b

/-- A text is empty, or has a character that is no digit, or is that of digits. -/
theorem operandsRead_cases (text : String) :
    (text = "" ∧ operandsRead text = .error .empty) ∨
    ((∃ c ∈ text.toList, ¬ ('0' ≤ c ∧ c ≤ '9')) ∧
      operandsRead text = .error (.nonDigit text)) ∨
    ∃ ds, (ds ≠ [] ∧ (∀ d ∈ ds, d ≤ maxOperand) ∧ digitText ds = text) ∧
      operandsRead text = .ok ds := by
  by_cases hbad : ∃ c ∈ text.toList, ¬ ('0' ≤ c ∧ c ≤ '9')
  · exact .inr (.inl ⟨hbad, operandsRead_of_nonDigit hbad⟩)
  push Not at hbad
  obtain ⟨ds, hdigit, rfl⟩ := exists_digitText_iff.2 hbad
  by_cases hne : ds = []
  · subst hne
    exact .inl ⟨rfl, rfl⟩
  · exact .inr (.inr ⟨ds, ⟨hne, hdigit, rfl⟩, operandsRead_digitText hne hdigit⟩)

theorem textDecides_operandsRead (text : String) : TextDecides text (operandsRead text) := by
  have hcases := operandsRead_cases text
  have hok (ds : List Nat) : operandsRead text = .ok ds ↔
      ds ≠ [] ∧ (∀ d ∈ ds, d ≤ maxOperand) ∧ digitText ds = text := by
    constructor
    · intro h
      rcases hcases with ⟨-, hread⟩ | ⟨-, hread⟩ | ⟨ds', hds', hread⟩
      · cases hread.symm.trans h
      · cases hread.symm.trans h
      · obtain rfl := Except.ok.inj (hread.symm.trans h)
        exact hds'
    · rintro ⟨hne, hdigit, rfl⟩
      exact operandsRead_digitText hne hdigit
  refine ⟨⟨fun h => ?_, ?_⟩, fun t => ⟨fun h => ?_, ?_⟩, hok, fun ds h => ?_⟩
  · rcases hcases with ⟨hempty, -⟩ | ⟨-, hread⟩ | ⟨ds, -, hread⟩
    · exact hempty
    · cases hread.symm.trans h
    · cases hread.symm.trans h
  · rintro rfl
    rfl
  · rcases hcases with ⟨-, hread⟩ | ⟨hbad, hread⟩ | ⟨ds, -, hread⟩
    · cases hread.symm.trans h
    · cases hread.symm.trans h
      exact ⟨rfl, hbad⟩
    · cases hread.symm.trans h
  · rintro ⟨rfl, hbad⟩
    exact operandsRead_of_nonDigit hbad
  · obtain ⟨-, hdigit, rfl⟩ := (hok ds).1 h
    exact (bytes_digitText hdigit).1

/-- The operands of a text that is accepted are digits, and there is at least one. -/
theorem digits_of_operandsRead {text : String} {operands : List Nat}
    (h : operandsRead text = .ok operands) :
    operands ≠ [] ∧ ∀ operand ∈ operands, operand ≤ maxOperand := by
  obtain ⟨hne, hdigit, -⟩ := ((textDecides_operandsRead text).ok_iff operands).1 h
  exact ⟨hne, hdigit⟩

/-! ## The end of a synthesis -/

/-- How a synthesis ends. -/
structure OperandsDecide (operands : List Nat) (result : Except SynthesisError Registry) :
    Prop where
  /-- It is refused if there are no operands. -/
  noOperands_iff : result = .error .noOperands ↔ operands = []
  /-- It is refused for the first operand that is no digit. -/
  operandTooLarge_iff : ∀ d, result = .error (.operandTooLarge d) ↔
    maxOperand < d ∧ ∃ before behind, operands = before ++ d :: behind ∧
      ∀ x ∈ before, x ≤ maxOperand
  /-- Otherwise it comes to a registry. -/
  ok_iff : (∃ registry, result = .ok registry) ↔
    operands ≠ [] ∧ ∀ d ∈ operands, d ≤ maxOperand
  /-- It is refused for no other reason. -/
  eq_of_error : ∀ error, result = .error error →
    error = .noOperands ∨ ∃ d, error = .operandTooLarge d

section

variable {operands : List Nat}

theorem refusal?_eq_operandTooLarge_iff {d : Nat} :
    refusal? operands = some (.operandTooLarge d) ↔
      maxOperand < d ∧ ∃ before behind, operands = before ++ d :: behind ∧
        ∀ x ∈ before, x ≤ maxOperand := by
  rw [refusal?]
  split
  · next h => simp [h]
  · simp [List.find?_eq_some_iff_append]

theorem operandsDecide_synthesized (operands : List Nat) :
    OperandsDecide operands (synthesized operands) := by
  have herror (error : SynthesisError) :
      synthesized operands = .error error ↔ refusal? operands = some error := by
    rw [synthesized]
    rcases refusal? operands with _ | refusal
    · simp
    · simp
  have hok : (∃ registry, synthesized operands = .ok registry) ↔ refusal? operands = none := by
    rw [synthesized]
    rcases refusal? operands with _ | refusal
    · simp
    · simp
  refine ⟨?_, fun d => (herror _).trans refusal?_eq_operandTooLarge_iff,
    hok.trans refusal?_eq_none_iff, fun error h => ?_⟩
  · rw [herror, refusal?]
    split
    · next h => simp [h]
    · next h => simp [h]
  · rw [herror, refusal?] at h
    split at h
    · exact .inl (Option.some.inj h).symm
    · obtain ⟨d, -, rfl⟩ := Option.map_eq_some_iff.1 h
      exact .inr ⟨d, rfl⟩

theorem eq_synthesized_of_concurrently {result : Except SynthesisError Registry}
    (h : Concurrently operands result) : result = synthesized operands := by
  rw [synthesized]
  rcases hrefusal : refusal? operands with _ | error
  · exact (concurrently_of_accepted hrefusal).1 h
  · exact (concurrently_of_refused hrefusal).1 h

end

theorem yields_synthesizeDigits (text : String) : Yields (synthesizeDigits text)
    (match operandsRead text with
      | .error error => .error (.digits error)
      | .ok operands => synthesized operands) := by
  have hread := (yields_readOperands text).adapt SynthesisError.digits
  rcases hresult : operandsRead text with error | operands
  · rw [hresult] at hread
    exact .bind_error hread
  · rw [hresult] at hread
    exact .bind hread (yields_synthesize .inTurn operands)

/-! ## The result -/

/-- A synthesis ends as its operands say, whether the orderings are searched in turn, apart, or
    at the same time. And the reading of a text ends as the text says, in accordance with its
    check; the synthesis from the text is refused for the same reason, or else is that of the
    digits that are read, and then it is not refused. -/
theorem refused_iff :
    (∀ operands : List Nat,
      (∀ mode journal, OperandsDecide operands ((synthesize mode operands).run.run journal).1) ∧
      ∀ result, Concurrently operands result → OperandsDecide operands result) ∧
    ∀ (text : String) (journal : Array Event),
      let read := ((readOperands text).run.run journal).1
      let result := ((synthesizeDigits text).run.run journal).1
      TextDecides text read ∧
      ((checkDigits text).run.run journal).1 = read.map (fun _ => ()) ∧
      (∀ error, result = .error error ↔ ∃ e, error = .digits e ∧ read = .error e) ∧
      ∀ ds, read = .ok ds → result = ((synthesize .inTurn ds).run.run journal).1 := by
  refine ⟨fun operands => ⟨fun mode journal => ?_, fun result h => ?_⟩, fun text journal => ?_⟩
  · rw [yields_synthesize]
    exact operandsDecide_synthesized operands
  · rw [eq_synthesized_of_concurrently h]
    exact operandsDecide_synthesized operands
  intro read result
  have hread : read = operandsRead text := yields_readOperands text journal
  have hresult : result = match operandsRead text with
      | .error error => .error (.digits error)
      | .ok operands => synthesized operands := yields_synthesizeDigits text journal
  have hdecides := textDecides_operandsRead text
  refine ⟨hread ▸ hdecides, ?_, fun error => ?_, fun ds hds => ?_⟩
  · rw [hread, yields_checkDigits, operandsRead]
    rcases digitsRefusal? text with _ | refusal
    · rfl
    · rfl
  · rw [hread]
    rcases hcase : operandsRead text with e | ds
    · rw [hresult, hcase]
      simp [eq_comm]
    · -- Digits that were read are not refused.
      obtain ⟨registry, hregistry⟩ :=
        (operandsDecide_synthesized ds).ok_iff.2 (digits_of_operandsRead hcase)
      rw [hresult, hcase]
      simp [hregistry]
  · rw [hresult, ← hread, hds, yields_synthesize]

/-- Two operands that are no digits, no operands, a digit of another script, and a zero in
    front. -/
theorem refused_iff_first :
    ((synthesize .apart [3, 12, 200]).run.run #[]).1 = .error (.operandTooLarge 12) ∧
    (Concurrently [] (.error .noOperands) ∧ OperandsDecide [] (.error .noOperands)) ∧
    ((synthesizeDigits "4٣").run.run #[]).1 = .error (.digits (.nonDigit "4٣")) ∧
    ((readOperands "07").run.run #[]).1 = .ok [0, 7] := by
  have hnone : Concurrently [] (.error .noOperands) := .refused (yields_checkOperands [])
  obtain ⟨hscript, -, hsynthesis, -⟩ := refused_iff.2 "4٣" #[]
  refine ⟨?_, ⟨hnone, (refused_iff.1 []).2 _ hnone⟩, (hsynthesis _).2 ⟨_, rfl, ?_⟩, ?_⟩
  · exact (((refused_iff.1 [3, 12, 200]).1 .apart #[]).operandTooLarge_iff 12).2
      ⟨by decide, [3], [200], rfl, by decide⟩
  · exact (hscript.nonDigit_iff _).2 ⟨rfl, '٣', by decide, by decide⟩
  · exact ((refused_iff.2 "07" #[]).1.ok_iff [0, 7]).2 ⟨by decide, by decide, by decide⟩

end DigitReach

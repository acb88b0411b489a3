import DigitReach.Proofs.Changes
import DigitReach.Proofs.Numeral
import DigitReach.Report

/-!
# Reading a report

A report is a text, but nothing of a registry is lost in it: the columns of a row are wide
enough for every value and every rank, and the text of an expression has no line breaks. So the
lines can be told apart, and the columns of a row.

* `textLines` takes a text apart, and `Report.readRow?` reads the columns of a row;
* `Registry.printable_of_mem_run`: the answers of registries that commands have made can be
  printed, since they are those of expressions;
* `Report.textLines_text` and `Report.map_readRow?_rows`: of a registry with such answers, the
  lines of the report are the lines it is made of, and the rows are read as the entries;
* `Report.mem_map_missing` and `Report.length_rule`: what is missing are the numbers without a
  row, and the rule is as long as what is above and below it (`Report.LaidOut`);
* `report_loses_nothing` puts them together.
-/

namespace DigitReach

open DigitReach.Numeral

/-! ## Texts on one line -/

theorem newline_not_mem_decimalChars (x : Float) : '\n' ∉ decimalChars x := by
  rw [decimalChars]
  split
  · decide
  split
  · split <;> decide
  · intro hmem
    rcases isDigit_or_of_mem_of_read? (read?_chars _) hmem with h | h | h
    all_goals exact absurd h (by decide)

theorem newline_not_mem_token (t : Token) : '\n' ∉ t.text.toList := by
  cases t with
  | number x =>
    rw [Token.text, decimal, String.toList_ofList]
    exact newline_not_mem_decimalChars x
  | sign o => cases o <;> decide
  | bang | root | opening | closing => decide

/-- The text of an expression has no line breaks. -/
theorem Expr.newline_not_mem_text (e : Expr) : '\n' ∉ e.text.toList := by
  rw [e.text_eq, String.toList_join, List.flatMap_map, List.mem_flatMap]
  rintro ⟨t, -, ht⟩
  exact newline_not_mem_token t ht

/-- The answer can be printed on one line, with its rank in the column for ranks. -/
structure Answer.Printable (a : Answer) : Prop where
  rank : a.rank < 10 ^ Report.rankWidth
  text : '\n' ∉ a.text.toList

/-- The answers of registries that commands have made are those of expressions. -/
theorem Registry.printable_of_mem_run {commands : List Command} {r : Registry}
    (hr : r ∈ Keeper.registries.run commands) {n : Nat} {a : Answer} (ha : r.get? n = some a) :
    a.Printable := by
  rw [← Keeper.map_afterAll.run, List.mem_map] at hr
  obtain ⟨history, -, rfl⟩ := hr
  obtain ⟨e, -, rfl⟩ := ((summarizes_afterAll history).get?_eq_some_iff n a).1 ha
  exact ⟨e.rank_le.trans_lt (by decide), e.newline_not_mem_text⟩

/-- The numbers with an answer, and the answers. -/
def Registry.listing (r : Registry) : List (Nat × Answer) :=
  r.entries.map fun (target, answer) => (target.val, answer)

theorem Registry.mem_listing {r : Registry} {n : Nat} {answer : Answer} :
    (n, answer) ∈ r.listing ↔ r.get? n = some answer := by
  rw [listing, List.mem_map]
  constructor
  · rintro ⟨entry, hentry, heq⟩
    obtain ⟨rfl, rfl⟩ := Prod.mk.inj heq
    exact mem_entries.1 hentry
  · intro hget
    exact ⟨(⟨n, lt_of_get? hget⟩, answer), mem_entries.2 hget, rfl⟩

/-! ## Lines -/

/-- The lines of a text in which each line has an end. -/
def textLines (text : String) : List String :=
  ((text.toList.splitOn '\n').dropLast).map String.ofList

theorem splitOn_flatMap {ls : List (List Char)} (h : ∀ l ∈ ls, '\n' ∉ l) :
    (ls.flatMap (· ++ ['\n'])).splitOn '\n' = ls ++ [[]] := by
  induction ls with
  | nil => rfl
  | cons l ls ih =>
    rw [List.forall_mem_cons] at h
    rw [List.flatMap_cons, List.append_assoc, List.singleton_append,
      List.splitOn_append_cons_self_of_not_mem h.1, ih h.2, List.cons_append]

/-- Lines that are put together are the lines of the text. -/
theorem textLines_join {ls : List String} (h : ∀ l ∈ ls, '\n' ∉ l.toList) :
    textLines (String.join (ls.map (· ++ "\n"))) = ls := by
  have hchars : (String.join (ls.map (· ++ "\n"))).toList =
      (ls.map String.toList).flatMap (· ++ ['\n']) := by
    simp [String.toList_join, List.flatMap_map]
  rw [textLines, hchars, splitOn_flatMap (List.forall_mem_map.2 h), List.dropLast_concat,
    List.map_map]
  simp

/-! ## Columns -/

namespace Report

/-- Characters with blanks in front, up to a width. -/
def aligned (width : Nat) (cs : List Char) : List Char :=
  List.replicate (width - cs.length) ' ' ++ cs

theorem toList_pushn (s : String) (c : Char) (n : Nat) :
    (s.pushn c n).toList = s.toList ++ List.replicate n c := by
  rw [String.pushn_eq_repeat_push]
  induction n with
  | zero => simp [Nat.repeat]
  | succ n ih => rw [Nat.repeat, String.toList_push, ih, List.append_assoc, List.replicate_succ']

theorem toList_alignRight (width : Nat) (text : String) :
    (alignRight width text).toList = aligned width text.toList := by
  rw [alignRight, String.toList_append, toList_pushn, aligned, String.length_toList]
  rfl

theorem length_aligned {width : Nat} {cs : List Char} (h : cs.length ≤ width) :
    (aligned width cs).length = width := by
  rw [aligned, List.length_append, List.length_replicate, Nat.sub_add_cancel h]

/-- Reads the digits of a number, with blanks in front. -/
def readAligned? (column : List Char) : Option Nat :=
  let ds := column.dropWhile (· = ' ')
  if ds ≠ [] ∧ ∀ c ∈ ds, c.isDigit then some (Nat.ofDigitChars 10 ds 0) else none

/-- The characters of a line from the column `first` to the column `last`. -/
def columns (first last : Nat) (line : String) : List Char :=
  (line.toList.drop first).take (last + 1 - first)

/-- Reads a row: the value in the columns from `0` to `4`, the rank in the columns from `7` to
    `10`, and the text from the column `13` on. -/
def readRow? (line : String) : Option (Nat × Answer) := do
  let value ← readAligned? (columns 0 4 line)
  let rank ← readAligned? (columns 7 10 line)
  return (value, ⟨rank, String.ofList (line.toList.drop 13)⟩)

theorem toList_toString (n : Nat) : (toString n).toList = Nat.toDigits 10 n := by
  rw [Nat.toString_eq_ofList_toDigits, String.toList_ofList]

theorem isDigit_of_mem_toString {n : Nat} {c : Char} (h : c ∈ (toString n).toList) : c.isDigit :=
  Nat.isDigit_of_mem_toDigits (by decide) (by decide) (toList_toString n ▸ h)

/-- The text of a number begins with a digit. -/
theorem exists_toString_eq_cons (n : Nat) :
    ∃ d ds, (toString n).toList = d :: ds ∧ d.isDigit := by
  obtain ⟨d, ds, hds⟩ := List.exists_cons_of_ne_nil (Nat.toDigits_ne_nil (n := n) (b := 10))
  rw [← toList_toString] at hds
  exact ⟨d, ds, hds, isDigit_of_mem_toString (hds ▸ List.mem_cons_self)⟩

/-- A number that is aligned to the right is read as the number. -/
theorem readAligned?_aligned (width n : Nat) :
    readAligned? (aligned width (toString n).toList) = some n := by
  have hdrop : (aligned width (toString n).toList).dropWhile (· = ' ') = (toString n).toList := by
    obtain ⟨d, ds, hds, hd⟩ := exists_toString_eq_cons n
    have hblank : d ≠ ' ' := by
      rintro rfl
      exact absurd hd (by decide)
    rw [aligned, List.dropWhile_append_of_pos, hds, List.dropWhile_cons_of_neg]
    · simpa using hblank
    · intro c hc
      simp [List.eq_of_mem_replicate hc]
  have hne : (toString n).toList ≠ [] := toList_toString n ▸ Nat.toDigits_ne_nil
  rw [readAligned?]
  simp only [hdrop]
  rw [if_pos ⟨hne, fun c hc => isDigit_of_mem_toString hc⟩, toList_toString,
    Nat.ofDigitChars_ten_toDigits]

/-- Where the columns of a row are. -/
theorem toList_row (value rank text : String) :
    (row value rank text).toList = aligned valueWidth value.toList ++ [' ', ' '] ++
      aligned rankWidth rank.toList ++ [' ', ' '] ++ text.toList := by
  rw [row, String.toList_append, String.toList_append, String.toList_append, String.toList_append,
    toList_alignRight, toList_alignRight]
  rfl

theorem length_toString_le {n k : Nat} (hk : 0 < k) (h : n < 10 ^ k) :
    (toString n).toList.length ≤ k := by
  rw [toList_toString]
  exact (Nat.length_toDigits_le_iff (by decide) hk).2 h

/-- What stands in the columns of a row whose value and rank fit into theirs. -/
theorem columns_row {value rank : String} (text : String) (hvalue : value.toList.length ≤ valueWidth)
    (hrank : rank.toList.length ≤ rankWidth) :
    columns 0 4 (row value rank text) = aligned valueWidth value.toList ∧
      columns 7 10 (row value rank text) = aligned rankWidth rank.toList ∧
      (row value rank text).toList.drop 13 = text.toList := by
  have hvalue := length_aligned hvalue
  have hrank := length_aligned hrank
  rw [columns, columns, toList_row]
  generalize aligned valueWidth value.toList = left at hvalue
  generalize aligned rankWidth rank.toList = middle at hrank
  have hleft : left.drop 13 = [] := List.drop_eq_nil_of_le (hvalue.le.trans (by decide))
  have hmiddle : middle.drop 6 = [] := List.drop_eq_nil_of_le (hrank.le.trans (by decide))
  simp [List.drop_append, List.take_append, hvalue, hrank, hleft, hmiddle, valueWidth, rankWidth]

/-- The row of an entry is read as the entry. -/
theorem readRow?_entryRow (target : Target) {answer : Answer} (h : answer.Printable) :
    readRow? (entryRow target answer) = some (target.val, answer) := by
  obtain ⟨hvalue, hrank, htext⟩ := columns_row answer.text
    (length_toString_le (n := target.val) (by decide) (target.isLt.trans (by decide)))
    (length_toString_le (n := answer.rank) (by decide) h.rank)
  rw [readRow?, entryRow, hvalue, hrank, htext, readAligned?_aligned, readAligned?_aligned,
    String.ofList_toList]
  rfl

theorem length_entryRow (target : Target) {answer : Answer} (h : answer.Printable) :
    (entryRow target answer).length = 13 + answer.text.length := by
  have hvalue : (aligned valueWidth (toString target.val).toList).length = valueWidth :=
    length_aligned (length_toString_le (by decide) (target.isLt.trans (by decide)))
  have hrank : (aligned rankWidth (toString answer.rank).toList).length = rankWidth :=
    length_aligned (length_toString_le (by decide) h.rank)
  rw [← String.length_toList, entryRow, toList_row]
  simp only [List.length_append, hvalue, hrank, String.length_toList]
  rfl

/-! ## The lines of a report -/

theorem newline_not_mem_toString (n : Nat) : '\n' ∉ (toString n).toList := fun h =>
  absurd (isDigit_of_mem_toString h) (by decide)

theorem newline_not_mem_row {value rank text : String} (hvalue : '\n' ∉ value.toList)
    (hrank : '\n' ∉ rank.toList) (htext : '\n' ∉ text.toList) :
    '\n' ∉ (row value rank text).toList := by
  simp [toList_row, aligned, hvalue, hrank, htext]

theorem newline_not_mem_rule (r : Registry) : '\n' ∉ (rule r).toList := by
  simp [rule, toList_pushn]

theorem summary_eq (r : Registry) :
    summary r = toString r.size ++ " of 101 values reachable" := by
  have htail : " of " ++ (toString (maxTarget + 1) ++ " values reachable") =
      " of 101 values reachable" := by decide
  rw [summary, ← htail, ← String.append_assoc, ← String.append_assoc]
  rfl

theorem newline_not_mem_summary (r : Registry) : '\n' ∉ (summary r).toList := by
  rw [summary_eq, String.toList_append, List.mem_append]
  rintro (h | h)
  · exact newline_not_mem_toString r.size h
  · exact absurd h (by decide)

/-- What stands in a list with separators is a separator or in the list. -/
theorem mem_intercalate {α : Type} {x : α} {separator : List α} {ls : List (List α)}
    (h : x ∈ separator.intercalate ls) : x ∈ separator ∨ ∃ l ∈ ls, x ∈ l := by
  induction ls with
  | nil => exact absurd h List.not_mem_nil
  | cons l ls ih =>
    cases ls with
    | nil =>
      rw [List.intercalate_singleton] at h
      exact .inr ⟨l, List.mem_cons_self, h⟩
    | cons l' ls =>
      rw [List.intercalate_cons_cons, List.mem_append, List.mem_append] at h
      rcases h with (h | h) | h
      · exact .inr ⟨l, List.mem_cons_self, h⟩
      · exact .inl h
      · exact (ih h).imp_right fun ⟨l, hl, hx⟩ => ⟨l, List.mem_cons_of_mem _ hl, hx⟩

/-- The line of the numbers that are missing. -/
def missingText (ns : List Nat) : String :=
  if ns.isEmpty then "missing: none" else "missing: " ++ ", ".intercalate (ns.map toString)

theorem missingLine_eq (r : Registry) : missingLine r = missingText (r.missing.map Fin.val) := by
  rw [missingLine, missingText, List.isEmpty_map, List.map_map]
  rfl

/-- It says that there are none only if there are none: otherwise there is a digit in the place
    of the word. -/
theorem missingText_eq_none_iff {ns : List Nat} : missingText ns = "missing: none" ↔ ns = [] := by
  constructor
  · intro h
    by_contra hne
    obtain ⟨n, ns, rfl⟩ := List.exists_cons_of_ne_nil hne
    obtain ⟨d, ds, hds, hd⟩ := exists_toString_eq_cons n
    have hfirst : ((missingText (n :: ns)).toList.drop 9).head? = some d := by
      have hfront (rest : List Char) : ("missing: ".toList ++ rest).drop 9 = rest := rfl
      rw [missingText, List.isEmpty_cons, if_neg Bool.false_ne_true, String.toList_append, hfront,
        String.toList_intercalate]
      cases ns <;> simp only [List.map_cons, List.map_nil, List.intercalate_cons_cons,
        List.intercalate_singleton, List.append_assoc, hds, List.cons_append, List.head?_cons]
    rw [h] at hfirst
    obtain rfl : 'n' = d := Option.some.inj hfirst
    exact absurd hd (by decide)
  · rintro rfl
    rfl

theorem newline_not_mem_missingText (ns : List Nat) : '\n' ∉ (missingText ns).toList := by
  rw [missingText]
  split
  · decide
  · rw [String.toList_append, List.mem_append, String.toList_intercalate]
    rintro (h | h)
    · exact absurd h (by decide)
    · rcases mem_intercalate h with h | ⟨l, hl, h⟩
      · exact absurd h (by decide)
      · rw [List.map_map, List.mem_map] at hl
        obtain ⟨n, -, rfl⟩ := hl
        exact newline_not_mem_toString n h

theorem rule_eq (r : Registry) : rule r = "".pushn '-' (rule r).length := by
  rw [rule, String.length_pushn]
  exact congrArg ("".pushn '-') (Nat.zero_add _).symm

theorem lines_eq (r : Registry) (showMissing : Bool) : lines r showMissing =
    "value  rank  expression" :: rule r ::
      ((r.entries.map fun (target, answer) => entryRow target answer) ++
        (toString r.size ++ " of 101 values reachable") ::
          if showMissing then [missingText (r.missing.map Fin.val)] else []) := by
  have hheading : row "value" "rank" textHeading = "value  rank  expression" := by decide
  rw [lines, hheading, summary_eq, missingLine_eq, List.append_assoc, List.append_assoc]
  rfl

/-- The maximum of numbers is one of them, and none is greater. -/
theorem foldl_max_spec (n : Nat) (ns : List Nat) :
    ns.foldl max n ∈ n :: ns ∧ ∀ m ∈ n :: ns, m ≤ ns.foldl max n :=
  List.max?_eq_some_iff.1 List.max?_cons'

/-! ## The table -/

/-- The rows of a report, which begin with a blank, behind the heading and the rule. -/
def rows (text : String) : List String :=
  ((textLines text).drop 2).takeWhile (·.toList.head? = some ' ')

theorem head?_entryRow (target : Target) (answer : Answer) :
    (entryRow target answer).toList.head? = some ' ' := by
  have hlength : (toString target.val).toList.length ≤ 4 :=
    length_toString_le (by decide) (target.isLt.trans (by decide))
  obtain ⟨k, hk⟩ := Nat.exists_eq_add_of_lt (Nat.lt_succ_of_le hlength)
  have hblanks : valueWidth - (toString target.val).toList.length = k + 1 := by
    change 5 - _ = _
    omega
  rw [entryRow, toList_row, aligned, hblanks]
  rfl

theorem head?_summary (r : Registry) : (summary r).toList.head? ≠ some ' ' := by
  obtain ⟨d, ds, hds, hd⟩ := exists_toString_eq_cons r.size
  rw [summary_eq, String.toList_append, hds]
  intro hblank
  obtain rfl := Option.some.inj hblank
  exact absurd hd (by decide)

section

variable {r : Registry} (h : ∀ n a, r.get? n = some a → a.Printable)
include h

theorem printable_of_mem_entries {entry : Target × Answer} (hentry : entry ∈ r.entries) :
    entry.2.Printable :=
  h entry.1.val entry.2 (Registry.mem_entries.1 hentry)

/-- The lines of a report are lines. -/
theorem textLines_text (showMissing : Bool) :
    textLines (text r showMissing) = lines r showMissing := by
  refine textLines_join ?_
  rw [lines, List.forall_mem_append, List.forall_mem_append, List.forall_mem_append,
    List.forall_mem_map]
  refine ⟨⟨⟨?_, fun entry hentry => ?_⟩, ?_⟩, ?_⟩
  · rw [List.forall_mem_cons, List.forall_mem_singleton]
    exact ⟨newline_not_mem_row (by decide) (by decide) (by decide), newline_not_mem_rule r⟩
  · exact newline_not_mem_row (newline_not_mem_toString _) (newline_not_mem_toString _)
      (printable_of_mem_entries h hentry).text
  · exact List.forall_mem_singleton.2 (newline_not_mem_summary r)
  · split
    · rw [List.forall_mem_singleton, missingLine_eq]
      exact newline_not_mem_missingText _
    · exact List.forall_mem_nil _

/-- The rows are those of the entries. -/
theorem rows_text (showMissing : Bool) :
    rows (text r showMissing) = r.entries.map fun (target, answer) => entryRow target answer := by
  have hrows : ∀ line ∈ r.entries.map fun (target, answer) => entryRow target answer,
      decide (line.toList.head? = some ' ') := by
    rw [List.forall_mem_map]
    exact fun entry _ => decide_eq_true (head?_entryRow entry.1 entry.2)
  have hsummary := head?_summary r
  rw [summary_eq] at hsummary
  rw [rows, textLines_text h, lines_eq, List.drop_succ_cons, List.drop_succ_cons, List.drop_zero,
    List.takeWhile_append_of_pos hrows, List.takeWhile_cons_of_neg (by simpa using hsummary),
    List.append_nil]

/-- They are read as the numbers with their answers. -/
theorem map_readRow?_rows (showMissing : Bool) :
    (rows (text r showMissing)).map readRow? = r.listing.map some := by
  rw [rows_text h, Registry.listing, List.map_map, List.map_map]
  exact List.map_congr_left fun entry hentry =>
    readRow?_entryRow entry.1 (printable_of_mem_entries h hentry)

theorem mem_map_readRow?_rows {showMissing : Bool} {n : Nat} {answer : Answer} :
    some (n, answer) ∈ (rows (text r showMissing)).map readRow? ↔ r.get? n = some answer := by
  rw [map_readRow?_rows h, List.mem_map_of_injective (Option.some_injective _),
    Registry.mem_listing]

/-- The numbers that are missing are those without a row. -/
theorem mem_map_missing {showMissing : Bool} {n : Nat} : n ∈ r.missing.map Fin.val ↔
    n ≤ maxTarget ∧ ∀ answer, some (n, answer) ∉ (rows (text r showMissing)).map readRow? := by
  simp only [mem_map_readRow?_rows h, List.mem_map, Registry.mem_missing,
    ← Option.eq_none_iff_forall_ne_some]
  constructor
  · rintro ⟨target, hnone, rfl⟩
    exact ⟨Nat.le_of_lt_succ target.isLt, hnone⟩
  · rintro ⟨hle, hnone⟩
    exact ⟨⟨n, Nat.lt_succ_of_le hle⟩, hnone, rfl⟩

/-- The rule is as long as the longer one of the heading and the longest row. -/
theorem length_rule :
    let table := "value  rank  expression" :: r.entries.map fun (target, answer) =>
      entryRow target answer
    (∀ line ∈ table, line.length ≤ (rule r).length) ∧
      ∃ line ∈ table, line.length = (rule r).length := by
  intro table
  obtain ⟨hmem, hle⟩ := foldl_max_spec textHeading.length
    (r.entries.map fun (_, answer) => answer.text.length)
  have hheading : "value  rank  expression".length = 13 + textHeading.length := by decide
  have hrule : (rule r).length = 13 + textWidth r := by
    rw [rule, String.length_pushn]
    exact Nat.zero_add _
  rw [← textWidth] at hmem hle
  rw [hrule]
  constructor
  · rw [List.forall_mem_cons, List.forall_mem_map, hheading]
    refine ⟨Nat.add_le_add_left (hle _ List.mem_cons_self) 13, fun entry hentry => ?_⟩
    rw [length_entryRow entry.1 (printable_of_mem_entries h hentry)]
    exact Nat.add_le_add_left (hle _ (List.mem_cons_of_mem _ (List.mem_map_of_mem hentry))) 13
  · rcases List.mem_cons.1 hmem with hwidth | hwidth
    · exact ⟨_, List.mem_cons_self, hwidth ▸ hheading⟩
    · obtain ⟨entry, hentry, hlength⟩ := List.mem_map.1 hwidth
      refine ⟨_, List.mem_cons_of_mem _ (List.mem_map_of_mem hentry), ?_⟩
      rw [length_entryRow entry.1 (printable_of_mem_entries h hentry), ← hlength]

end

end Report

/-! ## The result -/

/-- How a report is laid out around its rows, with a rule of some width and with some numbers
    that are missing. -/
structure Report.LaidOut (report : String) (rows : List String) (showMissing : Bool) (width : Nat)
    (missing : List Nat) : Prop where
  /-- The heading and the rule, the rows, how many there are and, if asked for, what is
      missing. -/
  lines : textLines report = "value  rank  expression" :: "".pushn '-' width :: rows ++
    (toString rows.length ++ " of 101 values reachable") ::
      if showMissing then [missingText missing] else []
  /-- Each of the lines has an end. -/
  eq_join : report = String.join ((textLines report).map (· ++ "\n"))
  /-- No line of the table is longer than the rule. -/
  le_width : ∀ line ∈ "value  rank  expression" :: rows, line.length ≤ width
  /-- But one is as long. -/
  exists_eq_width : ∃ line ∈ "value  rank  expression" :: rows, line.length = width
  /-- What is missing is in ascending order. -/
  ascending : missing.Pairwise (· < ·)
  /-- It is the numbers that have no row. -/
  mem_missing : ∀ n, n ∈ missing ↔ n ≤ 100 ∧ ∀ answer, some (n, answer) ∉ rows.map readRow?
  /-- There are said to be none exactly if there are none. -/
  none_iff : missingText missing = "missing: none" ↔ missing = []

theorem Report.laidOut_text {r : Registry} (h : ∀ n a, r.get? n = some a → a.Printable)
    (showMissing : Bool) :
    LaidOut (text r showMissing) (rows (text r showMissing)) showMissing (rule r).length
      (r.missing.map Fin.val) where
  lines := by
    rw [textLines_text h, rows_text h, lines_eq, ← rule_eq, List.length_map, Registry.size]
    rfl
  eq_join := by
    rw [textLines_text h]
    rfl
  le_width := rows_text h showMissing ▸ (length_rule h).1
  exists_eq_width := rows_text h showMissing ▸ (length_rule h).2
  ascending := List.pairwise_map.2 r.pairwise_missing
  mem_missing _ := mem_map_missing h
  none_iff := missingText_eq_none_iff

/-- The report on a registry that any commands have made has the heading, the rule, the rows,
    the number of rows and, if asked for, the line of what is missing. The rule is as long as
    the longer one of the heading and the longest row; what is missing are the numbers up to
    `100` without a row, in ascending order. The rows are read as the answers of the registry
    in ascending order, so reports on different registries differ. -/
theorem report_loses_nothing {commands : List Command} {r : Registry}
    (hr : r ∈ Keeper.registries.run commands) (showMissing : Bool) :
    let report := Report.text r showMissing
    let rows := Report.rows report
    (∃ width missing, Report.LaidOut report rows showMissing width missing) ∧
    (∃ entries : List (Nat × Answer), rows.map Report.readRow? = entries.map some ∧
      (entries.Pairwise fun x y => x.1 < y.1) ∧
      ∀ n answer, (n, answer) ∈ entries ↔ r.get? n = some answer) ∧
    ∀ commands' r' showMissing', r' ∈ Keeper.registries.run commands' →
      Report.text r' showMissing' = report → r' = r := by
  intro report rows
  have h {commands : List Command} {r : Registry} (hr : r ∈ Keeper.registries.run commands) :
      ∀ n a, r.get? n = some a → a.Printable :=
    fun _ _ => Registry.printable_of_mem_run hr
  refine ⟨⟨_, _, Report.laidOut_text (h hr) showMissing⟩,
    ⟨r.listing, Report.map_readRow?_rows (h hr) showMissing,
      List.pairwise_map.2 r.pairwise_entries, fun n answer => Registry.mem_listing⟩,
    fun commands' r' showMissing' hr' heq => ?_⟩
  refine Registry.ext_get? fun n => Option.ext fun answer => ?_
  rw [← Report.mem_map_readRow?_rows (h hr'), heq, Report.mem_map_readRow?_rows (h hr)]

/-- A registry that was offered `1 + 2`, and that another one was merged into that was offered
    `7`, has a report with two rows. Whoever sees this report knows that `1 + 2` is the answer
    to `3`, and that there is none to `4`. -/
theorem report_loses_nothing_two_rows :
    let digit (d : Nat) : Expr := .constant (Float.ofNat d)
    let commands : List Command := [.new, .offer 0 (.binary .add (digit 1) (digit 2)), .new,
      .offer 1 (digit 7), .merge 0 1]
    let report := "value  rank  expression\n-----------------------\n    3     1  1 + 2\n" ++
      "    7     0  7\n2 of 101 values reachable\n"
    ∃ r ∈ Keeper.registries.run commands, Report.text r false = report ∧
      ∀ commands' r' showMissing', r' ∈ Keeper.registries.run commands' →
        Report.text r' showMissing' = report →
          r'.get? 3 = some ⟨1, "1 + 2"⟩ ∧ r'.get? 4 = none := by
  intro digit commands report
  let r := (Registry.empty.after (.binary .add (digit 1) (digit 2))).merge
    (Registry.empty.after (digit 7))
  have hr : r ∈ Keeper.registries.run commands := List.mem_cons_self
  have hreport : Report.text r false = report := by decide +kernel
  obtain ⟨-, -, hdiffer⟩ := report_loses_nothing hr false
  refine ⟨r, hr, hreport, fun commands' r' showMissing' hr' heq => ?_⟩
  obtain rfl := hdiffer commands' r' showMissing' hr' (heq.trans hreport.symm)
  exact ⟨by decide +kernel, by decide +kernel⟩

end DigitReach

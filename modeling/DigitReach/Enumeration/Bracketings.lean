import DigitReach.Enumeration.Error
import DigitReach.LazyList

/-!
# Bracketings

A bracketing of a list combines its items two by two, in their order, until one
is left. The last combination joins what became of a first part of the list with
what became of the rest; so the bracketings of a list run through the lengths of
the first part, then through the bracketings of that part, then through those of
the rest.

* `bracketings` lists the results of all bracketings under a way to combine;
* `toList_bracketings_cons_cons` says which they are, and in which order.
-/

namespace DigitReach

universe u

variable {α : Type u}

/-- The results of all bracketings of a list. Neither part of a list is empty, so both
    are shorter than the list. -/
def bracketings (combine : α → α → α) (as : List α) : LazyList α :=
  match as with
  | [] => .nil
  | [a] => .cons a fun _ => .nil
  | a :: b :: rest =>
    (LazyList.ofList (List.finRange (rest.length + 1))).flatMap fun i =>
      (bracketings combine ((a :: b :: rest).take (i.val + 1))).flatMap fun left =>
        (bracketings combine ((a :: b :: rest).drop (i.val + 1))).map fun right =>
          combine left right
termination_by as.length
decreasing_by
  · rw [List.length_drop, List.length_cons]
    omega
  · rw [List.length_take, List.length_cons, List.length_cons]
    omega

@[simp] theorem toList_bracketings_nil (combine : α → α → α) :
    (bracketings combine []).toList = [] := by
  simp [bracketings]

@[simp] theorem toList_bracketings_singleton (combine : α → α → α) (a : α) :
    (bracketings combine [a]).toList = [a] := by
  simp [bracketings]

theorem toList_bracketings_cons_cons (combine : α → α → α) (a b : α) (rest : List α) :
    (bracketings combine (a :: b :: rest)).toList =
      (List.finRange (rest.length + 1)).flatMap fun i =>
        (bracketings combine ((a :: b :: rest).take (i.val + 1))).toList.flatMap fun left =>
          (bracketings combine ((a :: b :: rest).drop (i.val + 1))).toList.map (combine left) := by
  rw [bracketings]
  simp only [LazyList.toList_flatMap, LazyList.toList_map, LazyList.toList_ofList]

/-- The results of all bracketings of a list that is not empty. -/
def bracketings? (combine : α → α → α) (as : List α) : Except EnumerationError (LazyList α) :=
  if as.isEmpty then .error .emptySequence else .ok (bracketings combine as)

end DigitReach

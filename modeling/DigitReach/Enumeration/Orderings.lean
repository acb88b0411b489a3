import DigitReach.Enumeration.Error
import DigitReach.Factorial
import DigitReach.LazyList

/-!
# Orderings

The orderings of a list of items are those of their positions `0, 1, …`, in
lexicographic order. Items are never compared, so a list with equal items has as
many orderings as any other of its length.

`nextLex?` takes a list of numbers to the next one in lexicographic order among its
rearrangements. `Orderings` is a place in the enumeration: it can be read on from
again and again, and gives the same orderings each time.
-/

namespace DigitReach

/-- The next rearrangement of a list in lexicographic order, if there is one.

    It changes as few of the last numbers as possible. If the tail has no next
    rearrangement, it does not increase anywhere, so it reads upwards from its end:
    then the head gives way to the least greater number of the tail, and the rest
    follows in ascending order. -/
def nextLex? : List Nat → Option (List Nat)
  | [] => none
  | a :: tail =>
    match nextLex? tail with
    | some next => some (a :: next)
    | none =>
      let ascending := tail.reverse
      match ascending.takeWhile (· ≤ a), ascending.dropWhile (· ≤ a) with
      | _, [] => none
      | low, b :: high => some (b :: low ++ a :: high)

universe u

/-- A place in the enumeration of the orderings of some items. -/
structure Orderings (α : Type u) where
  /-- The items to arrange. -/
  items : Array α
  /-- The positions that make the next ordering, unless all have been given. -/
  positions : Option (List Nat)

namespace Orderings

variable {α : Type u}

/-- The orderings of a list, from the first, which is the list itself. -/
def of (items : List α) : Orderings α where
  items := items.toArray
  positions := some (List.range items.length)

/-- The orderings of a list that is not empty. -/
def of? (items : List α) : Except EnumerationError (Orderings α) :=
  if items.isEmpty then .error .emptySequence else .ok (of items)

/-- The items at the given positions. -/
def arrange (o : Orderings α) (positions : List Nat) : List α :=
  positions.filterMap fun i => o.items[i]?

/-- The place behind the next ordering. -/
def behind (o : Orderings α) : Orderings α := { o with positions := o.positions.bind nextLex? }

/-- The place behind all orderings. -/
def finished (o : Orderings α) : Orderings α := { o with positions := none }

/-- The next ordering, and the place behind it. -/
def next? (o : Orderings α) : Option (List α × Orderings α) :=
  o.positions.map fun positions => (o.arrange positions, o.behind)

/-- The next `n` orderings, or as many as there are, and the place behind them. -/
def take (o : Orderings α) : (n : Nat) → List (List α) × Orderings α
  | 0 => ([], o)
  | n + 1 =>
    match o.next? with
    | none => ([], o)
    | some (ordering, rest) =>
      let (more, rest) := rest.take n
      (ordering :: more, rest)

/-- The place behind the next `n` orderings, or behind all if there are fewer. -/
def skip (o : Orderings α) : (n : Nat) → Orderings α
  | 0 => o
  | n + 1 => if o.positions.isNone then o else o.behind.skip n

/-- The next `n` orderings, as a lazy list. -/
def upTo (o : Orderings α) : (n : Nat) → LazyList (List α)
  | 0 => .nil
  | n + 1 =>
    match o.next? with
    | none => .nil
    | some (ordering, rest) => .cons ordering fun _ => rest.upTo n

/-- All orderings from here on: there are at most as many as the items have. -/
def remaining (o : Orderings α) : LazyList (List α) := o.upTo (factorialNat o.items.size)

/-- The number of orderings from here on, of which there are at most `limit`, and those
    that were counted before. -/
def countUpTo (o : Orderings α) (counted : Nat) : (limit : Nat) → Nat
  | 0 => counted
  | limit + 1 => if o.positions.isNone then counted else o.behind.countUpTo (counted + 1) limit

/-- The number of orderings from here on, counted without arranging the items. -/
def count (o : Orderings α) : Nat := o.countUpTo 0 (factorialNat o.items.size)

theorem countUpTo_eq (o : Orderings α) (counted limit : Nat) :
    o.countUpTo counted limit = counted + (o.upTo limit).toList.length := by
  induction limit generalizing o counted with
  | zero => rfl
  | succ limit ih =>
    obtain ⟨items, positions⟩ := o
    cases positions with
    | none => rfl
    | some positions =>
      -- An ordering is counted here, and those behind it by induction.
      have hbehind := ih (behind ⟨items, some positions⟩) (counted + 1)
      simp only [countUpTo, upTo, next?, Option.isNone_some, Option.map_some,
        LazyList.toList_cons, List.length_cons, Bool.false_eq_true, if_false, hbehind]
      omega

/-- The count is that of the orderings from here on. -/
theorem count_eq (o : Orderings α) : o.count = o.remaining.toList.length := by
  rw [count, countUpTo_eq, remaining, Nat.zero_add]

end Orderings

end DigitReach

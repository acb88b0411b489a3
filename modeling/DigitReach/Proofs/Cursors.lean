import DigitReach.Proofs.Histories
import DigitReach.Proofs.Orderings

/-!
# Cursors

An enumeration is read by *cursors*. A cursor is a place in the enumeration: a call on it
gives the next element, if there is one, and moves it behind that element. Any number of
cursors may read the same enumeration, and a cursor may be made as a copy of another one,
wherever that has come to. Each then goes on by itself.

* `Enumerator.Gives` says which elements are given from a place on, and
  `Enumerator.next?_run` what follows for all cursors at once: whatever was done before,
  the next call on a cursor gives the element that is numbered by the calls made on it and,
  before it was copied, on the cursor it comes from;
* `Orderings.gives_of_climb`: from any place on, the orderings are given to which the
  positions climb, and so altogether the rearrangements (`Orderings.toList_remaining`);
* `Orderings.lexicographic_calls`: the call number `k` on a cursor gives the ordering by the
  permutation of positions that is number `k` in lexicographic order.
-/

namespace DigitReach

universe u v

/-- A command to a row of cursors, which are known by their places in the row. A command that
    names a place where there is none does nothing. -/
inductive CursorCommand where
  /-- Makes a cursor at the beginning, at the end of the row. -/
  | start
  /-- Makes a copy of a cursor, at the end of the row. -/
  | clone (i : Nat)
  /-- Calls for the next element at a cursor. -/
  | next (i : Nat)

/-- What was called for at each cursor of a row, before a command and after it. A copy takes
    over the calls of its original. -/
def CursorCommand.count (calls : List Nat) : CursorCommand → List Nat
  | start => calls ++ [0]
  | clone i => calls ++ calls[i]?.toList
  | next i => calls.modify i (· + 1)

/-- How many calls some commands make at each cursor. -/
def callsOf (commands : List CursorCommand) : List Nat := commands.foldl CursorCommand.count []

/-- A way to give elements one at a time, with the places that cursors may have. -/
structure Enumerator (σ : Type u) (α : Type v) where
  /-- The place before all elements. -/
  start : σ
  /-- The next element and the place behind it. -/
  next? : σ → Option (α × σ)

namespace Enumerator

variable {σ : Type u} {α : Type v} (e : Enumerator σ α)

/-- Where a call leaves a cursor. At the end it stays. -/
def advance (c : σ) : σ := (e.next? c).elim c Prod.snd

/-- Carries out a command. -/
def step (row : List σ) : CursorCommand → List σ
  | .start => row ++ [e.start]
  | .clone i => row ++ row[i]?.toList
  | .next i => row.modify i e.advance

/-- Carries out commands, one after the other, from an empty row. -/
def run (commands : List CursorCommand) : List σ := commands.foldl e.step []

/-- From the place on, these elements are given, and none behind them. -/
inductive Gives : σ → List α → Prop
  | finished {c : σ} (h : e.next? c = none) : Gives c []
  | next {c rest : σ} {a : α} {as : List α} (h : e.next? c = some (a, rest))
      (hrest : Gives rest as) : Gives c (a :: as)

variable {e} {c : σ} {as : List α}

theorem Gives.next?_eq (h : e.Gives c as) : (e.next? c).map Prod.fst = as.head? := by
  cases h with
  | finished h => rw [h]; rfl
  | next h _ => rw [h]; rfl

theorem Gives.advance (h : e.Gives c as) : e.Gives (e.advance c) as.tail := by
  cases h with
  | finished h => rw [Enumerator.advance, h]; exact .finished h
  | next h hrest => rw [Enumerator.advance, h]; exact hrest

/-- Behind `k` calls, the elements are given from number `k` on. -/
theorem Gives.iterate (h : e.Gives c as) (k : Nat) : e.Gives (e.advance^[k] c) (as.drop k) := by
  induction k with
  | zero => exact h
  | succ k ih =>
    rw [Function.iterate_succ_apply', ← List.tail_drop]
    exact ih.advance

/-- A command does to the calls what it does to the cursors. -/
theorem map_count (calls : List Nat) (command : CursorCommand) :
    (command.count calls).map (e.advance^[·] e.start) =
      e.step (calls.map (e.advance^[·] e.start)) command := by
  cases command with
  | start => simp [CursorCommand.count, step]
  | clone i => simp [CursorCommand.count, step, Option.toList_map]
  | next i =>
    exact Keeper.map_modify (fun k => Function.iterate_succ_apply' e.advance k e.start) calls i

/-- Every cursor is where its calls have brought it. -/
theorem map_callsOf (commands : List CursorCommand) :
    (callsOf commands).map (e.advance^[·] e.start) = e.run commands := by
  induction commands using List.reverseRecOn with
  | nil => rfl
  | append_singleton commands command ih =>
    rw [callsOf, run, List.foldl_append, List.foldl_append]
    exact (map_count _ command).trans (congrArg (e.step · command) ih)

/-- Whatever was done before, the next call on a cursor gives the element that is numbered by
    its calls. -/
theorem next?_run (h : e.Gives e.start as) (commands : List CursorCommand) :
    (e.run commands).map (fun c => (e.next? c).map Prod.fst) =
      (callsOf commands).map (as[·]?) := by
  rw [← map_callsOf, List.map_map]
  exact List.map_congr_left fun k _ => (h.iterate k).next?_eq.trans List.head?_drop

end Enumerator

/-! ## Lazy lists -/

namespace LazyList

variable {α : Type u}

/-- The elements of a lazy list, given one at a time. -/
def enumerator (as : LazyList α) : Enumerator (LazyList α) α := ⟨as, next?⟩

/-- From any place on, the elements are given that are still in the list. -/
theorem gives_toList (all as : LazyList α) : all.enumerator.Gives as as.toList := by
  induction as with
  | nil => exact .finished rfl
  | cons a tail ih => exact .next rfl (ih ())

end LazyList

/-! ## Orderings -/

namespace Orderings

variable {α : Type u} {o : Orderings α} {p z : List Nat} {ps : List (List Nat)}

/-- The orderings of some items, given one at a time. -/
def enumerator (items : List α) : Enumerator (Orderings α) (List α) := ⟨of items, next?⟩

variable {items : List α}

/-- Where the positions climb to an end, the orderings by all of them are given. -/
theorem gives_of_climb (h : Climb p ps z) (hend : nextLex? z = none) (hp : o.positions = some p) :
    (enumerator items).Gives o (ps.map o.arrange) := by
  have hnext {o : Orderings α} {p : List Nat} (hp : o.positions = some p) :
      o.next? = some (o.arrange p, o.behind) := by
    rw [next?, hp, Option.map_some]
  have hbehind {o : Orderings α} {p : List Nat} (hp : o.positions = some p) :
      o.behind.positions = nextLex? p := by
    rw [behind, hp, Option.bind_some]
  induction h generalizing o with
  | stay p =>
    refine .next (hnext hp) (.finished ?_)
    change o.behind.next? = none
    rw [next?, (hbehind hp).trans hend, Option.map_none]
  | step hstep _ ih => exact .next (hnext hp) (ih hend ((hbehind hp).trans hstep))

/-- A lazy list that is long enough has all orderings that are given. -/
theorem toList_upTo_of_gives {ls : List (List α)} (h : (enumerator items).Gives o ls) {n : Nat}
    (hn : ls.length ≤ n) : (o.upTo n).toList = ls := by
  induction h generalizing n with
  | @finished o h =>
    rcases n with _ | n
    · rfl
    · rw [upTo, show o.next? = none from h]
      rfl
  | @next o rest ordering ls h _ ih =>
    obtain ⟨n, rfl⟩ := Nat.exists_eq_succ_of_ne_zero (Nat.ne_zero_of_lt hn)
    rw [upTo, show o.next? = some (ordering, rest) from h]
    exact congrArg (ordering :: ·) (ih (Nat.le_of_succ_le_succ hn))

/-- The items at positions within the list. -/
theorem arrange_of (items : List α) (places : List (Fin items.length)) :
    (of items).arrange (places.map Fin.val) = places.map items.get := by
  rw [arrange, List.filterMap_map, ← List.filterMap_eq_map]
  congr 1
  funext i
  simp [of]

/-- The orderings by the permutations of the places in a list, in lexicographic order. -/
def listing (items : List α) : List (List α) :=
  (rearrangements (List.finRange items.length)).map (List.map items.get)

theorem listing_eq (items : List α) : listing items = rearrangements items := by
  rw [listing, ← rearrangements_map, List.map_get_finRange]

theorem length_listing (items : List α) : (listing items).length = factorialNat items.length := by
  rw [listing_eq, length_rearrangements]

/-- From the beginning all orderings are given. -/
theorem gives_of (items : List α) : (enumerator items).Gives (of items) (listing items) := by
  have hrange : (List.range items.length).Pairwise (· < ·) := List.pairwise_lt_range
  have hend : nextLex? (List.range items.length).reverse = none :=
    nextLex?_of_descending (List.pairwise_reverse.2 (hrange.imp Nat.le_of_lt))
  have hgives : (enumerator items).Gives (of items)
      ((rearrangements (List.range items.length)).map (of items).arrange) :=
    gives_of_climb (climb_rearrangements hrange) hend rfl
  rw [← List.map_coe_finRange_eq_range, rearrangements_map, List.map_map] at hgives
  rw [listing, ← List.map_congr_left fun places _ => arrange_of items places]
  exact hgives

/-- The enumeration lists the rearrangements. -/
theorem toList_remaining (items : List α) :
    (of items).remaining.toList = rearrangements items :=
  (toList_upTo_of_gives (gives_of items) (length_listing items).le).trans (listing_eq items)

/-- A cursor keeps the items. -/
theorem items_iterate (items : List α) (k : Nat) :
    ((enumerator items).advance^[k] (of items)).items = items.toArray := by
  have hadvance (c : Orderings α) : ((enumerator items).advance c).items = c.items := by
    rcases c with ⟨_, _ | positions⟩ <;> rfl
  induction k with
  | zero => rfl
  | succ k ih => rw [Function.iterate_succ_apply', hadvance, ih]

/-- The orderings that are left are those that no call has given. -/
theorem count_iterate (items : List α) (k : Nat) :
    ((enumerator items).advance^[k] (of items)).count = items.length.factorial - k := by
  have hlength : ((listing items).drop k).length = items.length.factorial - k := by
    rw [List.length_drop, length_listing, factorialNat_eq]
  have hlimit : items.length.factorial - k ≤ factorialNat items.toArray.size := by
    rw [List.size_toArray, factorialNat_eq]
    exact Nat.sub_le _ _
  rw [count_eq, remaining, items_iterate,
    toList_upTo_of_gives ((gives_of items).iterate k) (hlength.trans_le hlimit), hlength]

/-- Of a list of `n` items, at least one, the permutations `ps` of the positions can be put in
    lexicographic order, each once, and there are `n !`. Whatever commands were given to cursors
    over the orderings of the list, the next call on a cursor gives the items by the permutation
    in `ps` that is numbered by the calls made on it; it gives none from the call number `n !`
    on, and `n !` less the calls are left. So the orderings are listed by moving each item in
    turn to the front, and every ordering has all items. -/
theorem lexicographic_calls {items : List α} (hne : items ≠ []) :
    ∃ ps : List (List (Fin items.length)),
      ps.Pairwise (· < ·) ∧ (∀ p, p ∈ ps ↔ p.Perm (List.finRange items.length)) ∧
      ps.length = items.length.factorial ∧ ps.map (List.map items.get) = rearrangements items ∧
      ∃ first, of? items = .ok first ∧ ∀ commands : List CursorCommand,
        let cursors := (Enumerator.mk first next?).run commands
        cursors.map (fun c => c.next?.map Prod.fst) =
          (callsOf commands).map (fun k => ps[k]?.map (List.map items.get)) ∧
        cursors.map count = (callsOf commands).map (items.length.factorial - ·) ∧
        ∀ c ∈ cursors, ∀ ordering rest, c.next? = some (ordering, rest) →
          ordering.length = items.length ∧ ordering.Perm items := by
  have hrow (commands : List CursorCommand) :
      ((Enumerator.mk (of items) next?).run commands).map (fun c => c.next?.map Prod.fst) =
        (callsOf commands).map ((listing items)[·]?) :=
    Enumerator.next?_run (gives_of items) commands
  have hfirst : of? items = .ok (of items) := by
    rw [of?, if_neg (by simpa using hne)]
  refine ⟨rearrangements (List.finRange items.length),
    pairwise_rearrangements (List.pairwise_lt_finRange _), fun p => mem_rearrangements, ?_,
    listing_eq items, of items, hfirst, fun commands => ⟨?_, ?_, ?_⟩⟩
  · rw [length_rearrangements, List.length_finRange, factorialNat_eq]
  · refine (hrow commands).trans (List.map_congr_left fun k _ => ?_)
    rw [listing, List.getElem?_map]
  · refine (congrArg (List.map count) (Enumerator.map_callsOf commands).symm).trans ?_
    rw [List.map_map]
    exact List.map_congr_left fun k _ => count_iterate items k
  · intro c hc ordering rest hnext
    have hordering : ordering.Perm items := by
      have hmem := List.mem_map_of_mem (f := fun c : Orderings α => c.next?.map Prod.fst) hc
      rw [hnext, hrow] at hmem
      obtain ⟨k, -, hk⟩ := List.mem_map.1 hmem
      rw [← mem_rearrangements, ← listing_eq]
      exact List.mem_of_getElem? hk
    exact ⟨hordering.length_eq, hordering⟩

/-- Of a list with equal items, a cursor that was called twice, and its copy, which was called
    once more. -/
theorem lexicographic_calls_clone : [7, 7, 5] ≠ [] ∧ ∃ first, of? [7, 7, 5] = .ok first ∧
    let cursors :=
      (Enumerator.mk first next?).run [.start, .next 0, .next 0, .clone 0, .next 1]
    cursors.map (fun c => c.next?.map Prod.fst) = [some [7, 7, 5], some [7, 5, 7]] ∧
      cursors.map count = [4, 3] := by
  obtain ⟨ps, -, -, -, hlisting, first, hfirst, hcalls⟩ :=
    @lexicographic_calls Nat [7, 7, 5] (by decide)
  obtain ⟨hnext, hcount, -⟩ := hcalls [.start, .next 0, .next 0, .clone 0, .next 1]
  simp only [← List.getElem?_map, hlisting] at hnext
  refine ⟨by decide, first, hfirst, hnext.trans ?_, hcount⟩
  decide +kernel

end Orderings

end DigitReach

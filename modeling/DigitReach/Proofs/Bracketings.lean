import DigitReach.Enumeration.Bracketings
import Mathlib.Combinatorics.Enumerative.Catalan.Basic
import Mathlib.Data.List.Pairwise

/-!
# The bracketings of a list

What a bracketing of a list comes to is said by two rules (`Bracketed`): a single item
comes to itself, and two lists, one behind the other, come to what is combined of that
to which they come. The enumeration yields all results of these rules, and no others
(`mem_bracketings`). So what holds of single items and is kept by the combination holds
of every result, by induction over the rules.

Which bracketings there are does not depend on what is combined, or how. A bracketing is a
tree over the items (`Grouping`), and trees over as many items have an order
(`Shape.Before`): first those that split off few items at the root; then by what is on the
left, then by what is on the right.

* `map_bracketings`: the enumeration commutes with whatever commutes with the combination;
* `length_bracketings`: there are as many bracketings as the Catalan number says;
* `pairwise_bracketings`: they come in the order of their trees;
* `bracketings_eq_folds`: so the enumeration folds the combination over every tree with the
  items as its leaves, each once and in their order.
-/

namespace DigitReach

universe u v

variable {α : Type u} {combine : α → α → α} {as : List α} {t : α}

/-- `t` comes of the items of a list, combined two by two in their order. -/
inductive Bracketed (combine : α → α → α) : List α → α → Prop
  | single (a : α) : Bracketed combine [a] a
  | combined {as bs : List α} {s t : α} : Bracketed combine as s → Bracketed combine bs t →
    Bracketed combine (as ++ bs) (combine s t)

theorem Bracketed.ne_nil (h : Bracketed combine as t) : as ≠ [] := by
  induction h with
  | single a => exact List.cons_ne_nil a []
  | combined _ _ ih _ => exact List.append_ne_nil_of_left_ne_nil ih _

/-- A result of a list of two or more items is combined of results of its two parts. -/
theorem mem_bracketings_cons_cons {a b : α} {rest : List α} :
    t ∈ (bracketings combine (a :: b :: rest)).toList ↔ ∃ i : Fin (rest.length + 1),
      ∃ l ∈ (bracketings combine ((a :: b :: rest).take (i.val + 1))).toList,
        ∃ r ∈ (bracketings combine ((a :: b :: rest).drop (i.val + 1))).toList,
          combine l r = t := by
  simp only [toList_bracketings_cons_cons, List.mem_flatMap, List.mem_map, List.mem_finRange,
    true_and]

/-- The enumeration yields what comes of bracketings. -/
theorem mem_bracketings : t ∈ (bracketings combine as).toList ↔ Bracketed combine as t := by
  constructor
  · intro h
    induction as using bracketings.induct generalizing t with
    | case1 => simp at h
    | case2 a =>
      rw [toList_bracketings_singleton, List.mem_singleton] at h
      obtain rfl := h
      exact .single t
    | case3 a b rest ihr ihl =>
      obtain ⟨i, l, hl, r, hr, rfl⟩ := mem_bracketings_cons_cons.1 h
      rw [← List.take_append_drop (i.val + 1) (a :: b :: rest)]
      exact .combined (ihl i hl) (ihr i hr)
  · intro h
    induction h with
    | single a => simp
    | @combined as bs s t hs ht ihs iht =>
      -- Neither list is empty, so together they have two items, and `as` is a proper part.
      obtain ⟨a, as, rfl⟩ := List.exists_cons_of_ne_nil hs.ne_nil
      obtain ⟨b, bs, rfl⟩ := List.exists_cons_of_ne_nil ht.ne_nil
      obtain ⟨c, rest, hrest⟩ : ∃ c rest, as ++ b :: bs = c :: rest :=
        List.exists_cons_of_ne_nil (List.append_ne_nil_of_right_ne_nil as (List.cons_ne_nil b bs))
      have hlength : as.length < rest.length + 1 := by
        have := congrArg List.length hrest
        simp only [List.length_append, List.length_cons] at this
        omega
      rw [List.cons_append, hrest, mem_bracketings_cons_cons]
      refine ⟨⟨as.length, hlength⟩, s, ?_, t, ?_, rfl⟩
      · rwa [← hrest, List.take_succ_cons, List.take_left]
      · rwa [← hrest, List.drop_succ_cons, List.drop_left]

theorem bracketings?_of_ne_nil (h : as ≠ []) :
    bracketings? combine as = .ok (bracketings combine as) := by
  rw [bracketings?, if_neg (by simpa using h)]

/-- The first part of a split has one item more than the number of the split says. -/
theorem length_take_drop (a b : α) (rest : List α) (i : Fin (rest.length + 1)) :
    ((a :: b :: rest).take (i.val + 1)).length = i.val + 1 ∧
      ((a :: b :: rest).drop (i.val + 1)).length = rest.length + 1 - i.val := by
  have := i.isLt
  rw [List.length_take, List.length_drop, List.length_cons, List.length_cons]
  omega

/-! ## How many -/

/-- There are as many bracketings as the Catalan number says. -/
theorem length_bracketings (combine : α → α → α) {as : List α} {n : Nat}
    (h : as.length = n + 1) : (bracketings combine as).toList.length = catalan n := by
  induction as using bracketings.induct generalizing n with
  | case1 => cases h
  | case2 a =>
    obtain rfl : n = 0 := (Nat.succ.inj h).symm
    rw [toList_bracketings_singleton, catalan_zero]
    rfl
  | case3 a b rest ihr ihl =>
    obtain rfl : n = rest.length + 1 := (Nat.succ.inj h).symm
    have hsplit (i : Fin (rest.length + 1)) :
        ((bracketings combine ((a :: b :: rest).take (i.val + 1))).toList.flatMap fun left =>
          (bracketings combine ((a :: b :: rest).drop (i.val + 1))).toList.map
            (combine left)).length = catalan i.val * catalan (rest.length - i.val) := by
      obtain ⟨hl, hr⟩ := length_take_drop a b rest i
      rw [Nat.succ_sub (Nat.le_of_lt_succ i.isLt)] at hr
      simp only [List.length_flatMap, List.length_map, List.map_const', List.sum_replicate_nat,
        ihl i hl, ihr i hr]
    rw [toList_bracketings_cons_cons, List.length_flatMap, catalan_succ, Fin.sum_univ_def]
    simp only [hsplit]

/-! ## Other items, combined alike -/

/-- The results of two or more items, by the number of the split. -/
theorem toList_bracketings_range (combine : α → α → α) (a b : α) (rest : List α) :
    (bracketings combine (a :: b :: rest)).toList =
      (List.range (rest.length + 1)).flatMap fun i =>
        (bracketings combine ((a :: b :: rest).take (i + 1))).toList.flatMap fun left =>
          (bracketings combine ((a :: b :: rest).drop (i + 1))).toList.map (combine left) := by
  rw [toList_bracketings_cons_cons, ← List.map_coe_finRange_eq_range, List.flatMap_map]

/-- The enumeration commutes with whatever commutes with the combination. -/
theorem map_bracketings {β : Type v} {combine' : β → β → β} {f : α → β}
    (h : ∀ a b, f (combine a b) = combine' (f a) (f b)) (as : List α) :
    (bracketings combine as).toList.map f = (bracketings combine' (as.map f)).toList := by
  induction as using bracketings.induct with
  | case1 => rw [List.map_nil, toList_bracketings_nil, toList_bracketings_nil, List.map_nil]
  | case2 a =>
    rw [List.map_singleton, toList_bracketings_singleton, toList_bracketings_singleton,
      List.map_singleton]
  | case3 a b rest ihr ihl =>
    have hmap : (a :: b :: rest).map f = f a :: f b :: rest.map f := rfl
    rw [toList_bracketings_range, hmap, toList_bracketings_range, ← hmap, List.length_map,
      List.map_flatMap]
    refine List.flatMap_congr fun i hi => ?_
    have hlt : i < rest.length + 1 := List.mem_range.1 hi
    rw [← List.map_take, ← List.map_drop, ← ihl ⟨i, hlt⟩, ← ihr ⟨i, hlt⟩, List.map_flatMap,
      List.flatMap_map]
    refine List.flatMap_congr fun l _ => ?_
    rw [List.map_map, List.map_map]
    exact List.map_congr_left fun r _ => h l r

/-! ## Trees -/

/-- A tree that is split in two at every node: which parts are below which, whatever stands
    at the leaves. -/
inductive Shape where
  /-- A single leaf. -/
  | leaf
  /-- A left and a right part. -/
  | node (left right : Shape)

namespace Shape

/-- The number of leaves. -/
def leaves : Shape → Nat
  | leaf => 1
  | node l r => l.leaves + r.leaves

/-- Of two trees with as many leaves, the first one comes before the second: it splits off
    fewer leaves at the root; or as many, and its left part comes before the other's; or its
    left part is the same, and its right part comes before the other's. -/
inductive Before : Shape → Shape → Prop
  | split {l l' r r' : Shape} : l.leaves < l'.leaves → Before (node l r) (node l' r')
  | left {l l' r r' : Shape} : l.leaves = l'.leaves → Before l l' →
    Before (node l r) (node l' r')
  | right {l r r' : Shape} : Before r r' → Before (node l r) (node l r')

theorem Before.irrefl {s : Shape} (h : s.Before s) : False := by
  induction s with
  | leaf => cases h
  | node l r ihl ihr =>
    cases h with
    | split hlt => exact Nat.lt_irrefl _ hlt
    | left _ hl => exact ihl hl
    | right hr => exact ihr hr

theorem Before.asymm {s t : Shape} (h : s.Before t) : ¬ t.Before s := by
  induction h with
  | split hlt =>
    rintro (hlt' | ⟨heq, -⟩ | hr)
    · exact Nat.lt_asymm hlt hlt'
    · exact Nat.ne_of_lt hlt heq.symm
    · exact Nat.lt_irrefl _ hlt
  | left heq hl ih =>
    rintro (hlt | ⟨-, hl'⟩ | hr)
    · exact Nat.ne_of_lt hlt heq.symm
    · exact ih hl'
    · exact hl.irrefl
  | right hr ih =>
    rintro (hlt | ⟨-, hl⟩ | hr')
    · exact Nat.lt_irrefl _ hlt
    · exact hl.irrefl
    · exact ih hr'

end Shape

section

variable {shape : α → Shape} (hnode : ∀ a b, shape (combine a b) = .node (shape a) (shape b))

include hnode

/-- The tree of a bracketing has as many leaves as were bracketed. -/
theorem leaves_of_mem_bracketings (hleaf : ∀ a ∈ as, shape a = .leaf)
    (h : t ∈ (bracketings combine as).toList) : (shape t).leaves = as.length := by
  induction mem_bracketings.1 h with
  | single a => rw [hleaf a (List.mem_singleton_self a)]; rfl
  | combined hs ht ihs iht =>
    rw [List.forall_mem_append] at hleaf
    rw [List.length_append, ← ihs hleaf.1 (mem_bracketings.2 hs),
      ← iht hleaf.2 (mem_bracketings.2 ht), hnode]
    rfl

/-- The bracketings come in the order of their trees. -/
theorem pairwise_bracketings (hleaf : ∀ a ∈ as, shape a = .leaf) :
    (bracketings combine as).toList.Pairwise fun s t => (shape s).Before (shape t) := by
  induction as using bracketings.induct with
  | case1 => rw [toList_bracketings_nil]; exact .nil
  | case2 a => rw [toList_bracketings_singleton]; exact List.pairwise_singleton _ a
  | case3 a b rest ihr ihl =>
    have hfirst (i : Nat) : ∀ c ∈ (a :: b :: rest).take i, shape c = .leaf :=
      fun c hc => hleaf c (List.mem_of_mem_take hc)
    have hbehind (i : Nat) : ∀ c ∈ (a :: b :: rest).drop i, shape c = .leaf :=
      fun c hc => hleaf c (List.mem_of_mem_drop hc)
    have hleaves (i : Fin (rest.length + 1)) (l : α)
        (hl : l ∈ (bracketings combine ((a :: b :: rest).take (i.val + 1))).toList) :
        (shape l).leaves = i.val + 1 :=
      (leaves_of_mem_bracketings hnode (hfirst _) hl).trans (length_take_drop a b rest i).1
    rw [toList_bracketings_cons_cons, List.pairwise_flatMap]
    refine ⟨fun i _ => List.pairwise_flatMap.2 ⟨fun l _ => ?_, ?_⟩,
      (List.pairwise_lt_finRange _).imp fun {i j} hij => ?_⟩
    · -- The same split, and the same tree on the left.
      rw [List.pairwise_map]
      refine (ihr i (hbehind _)).imp fun hr => ?_
      rw [hnode, hnode]
      exact .right hr
    · -- The same split.
      refine (ihl i (hfirst _)).imp_of_mem fun {l l'} hl hl' hlt s hs s' hs' => ?_
      obtain ⟨r, -, rfl⟩ := List.mem_map.1 hs
      obtain ⟨r', -, rfl⟩ := List.mem_map.1 hs'
      rw [hnode, hnode]
      exact .left ((hleaves i l hl).trans (hleaves i l' hl').symm) hlt
    · -- An earlier split has fewer items on the left.
      intro s hs s' hs'
      obtain ⟨l, hl, hs⟩ := List.mem_flatMap.1 hs
      obtain ⟨l', hl', hs'⟩ := List.mem_flatMap.1 hs'
      obtain ⟨r, -, rfl⟩ := List.mem_map.1 hs
      obtain ⟨r', -, rfl⟩ := List.mem_map.1 hs'
      rw [hnode, hnode]
      refine .split ?_
      rw [hleaves i l hl, hleaves j l' hl']
      exact Nat.succ_lt_succ hij

end

/-! ## Groupings -/

/-- A tree with items at its leaves. -/
inductive Grouping (α : Type u) where
  /-- A single item. -/
  | item (a : α)
  /-- A left and a right part. -/
  | pair (left right : Grouping α)

namespace Grouping

/-- The items at the leaves, from left to right. -/
def items : Grouping α → List α
  | item a => [a]
  | pair l r => l.items ++ r.items

/-- The tree without its items. -/
def shape : Grouping α → Shape
  | item _ => .leaf
  | pair l r => .node l.shape r.shape

/-- What the items come to, if the parts of each node are combined. -/
def fold (combine : α → α → α) : Grouping α → α
  | item a => a
  | pair l r => combine (l.fold combine) (r.fold combine)

theorem length_items (g : Grouping α) : g.items.length = g.shape.leaves := by
  induction g with
  | item a => rfl
  | pair l r ihl ihr => rw [items, List.length_append, ihl, ihr, shape, Shape.leaves]

/-- Every tree has room for as many items as it has leaves. -/
theorem exists_of_leaves {s : Shape} {as : List α} (h : s.leaves = as.length) :
    ∃ g : Grouping α, g.items = as ∧ g.shape = s := by
  induction s generalizing as with
  | leaf =>
    obtain ⟨a, rfl⟩ := List.length_eq_one_iff.1 h.symm
    exact ⟨item a, rfl, rfl⟩
  | node l r ihl ihr =>
    rw [Shape.leaves] at h
    obtain ⟨gl, hgl, rfl⟩ := @ihl (as.take l.leaves) (by rw [List.length_take]; omega)
    obtain ⟨gr, hgr, rfl⟩ := @ihr (as.drop gl.shape.leaves) (by rw [List.length_drop]; omega)
    refine ⟨pair gl gr, ?_, rfl⟩
    rw [items, hgl, hgr, List.take_append_drop]

/-- A grouping is bracketed of its items. -/
theorem bracketed (g : Grouping α) : Bracketed pair (g.items.map item) g := by
  induction g with
  | item a => exact .single (item a)
  | pair l r ihl ihr =>
    rw [items, List.map_append]
    exact .combined ihl ihr

theorem items_of_bracketed {gs : List (Grouping α)} {g : Grouping α} (h : Bracketed pair gs g) :
    g.items = gs.flatMap items := by
  induction h with
  | single g => rw [List.flatMap_singleton]
  | combined _ _ ihl ihr => rw [items, ihl, ihr, List.flatMap_append]

/-- The groupings of a list. -/
def all (as : List α) : List (Grouping α) := (bracketings pair (as.map item)).toList

/-- They are the trees with the items of the list. -/
theorem mem_all {g : Grouping α} : g ∈ all as ↔ g.items = as := by
  rw [all, mem_bracketings]
  constructor
  · intro h
    rw [items_of_bracketed h, List.flatMap_map]
    exact List.flatMap_singleton' as
  · rintro rfl
    exact g.bracketed

/-- They come in the order of their trees. -/
theorem pairwise_all (as : List α) : ((all as).map shape).Pairwise Shape.Before := by
  rw [List.pairwise_map]
  refine pairwise_bracketings (fun _ _ => rfl) fun g hg => ?_
  obtain ⟨a, -, rfl⟩ := List.mem_map.1 hg
  rfl

/-- A bracketing folds the combination over a grouping. -/
theorem map_fold_all (combine : α → α → α) (as : List α) :
    (all as).map (fold combine) = (bracketings combine as).toList := by
  rw [all, map_bracketings (fun _ _ => rfl), List.map_map]
  congr 1
  exact congrArg _ (List.map_id as)

end Grouping

/-! ## The result -/

/-- A list of items, at least one, has groupings: the trees with these items at the leaves, in
    their order. Each tree with as many leaves occurs once, in the order of the trees, and they
    are counted by the Catalan number. Whatever items are, and however they are combined, the
    enumeration folds the combination over the groupings. Hence it commutes with whatever
    commutes with the combination. -/
theorem bracketings_eq_folds {items : List α} (hne : items ≠ []) :
    ∃ groupings : List (Grouping α),
      (∀ g, g ∈ groupings ↔ g.items = items) ∧
      (∀ s, s ∈ groupings.map Grouping.shape ↔ s.leaves = items.length) ∧
      (groupings.map Grouping.shape).Nodup ∧
      (groupings.map Grouping.shape).Pairwise Shape.Before ∧
      groupings.length = catalan (items.length - 1) ∧
      ∀ combine : α → α → α, ∃ results, bracketings? combine items = .ok results ∧
        results.toList = groupings.map (Grouping.fold combine) ∧
        ∀ (β : Type v) (f : α → β) (combine' : β → β → β),
          (∀ a b, f (combine a b) = combine' (f a) (f b)) →
            ∃ images, bracketings? combine' (items.map f) = .ok images ∧
              images.toList = results.toList.map f := by
  have hpairwise := Grouping.pairwise_all items
  refine ⟨Grouping.all items, fun g => Grouping.mem_all, fun s => ?_, ?_, hpairwise, ?_,
    fun combine => ⟨bracketings combine items, ?_, ?_, fun β f combine' h => ?_⟩⟩
  · constructor
    · rintro hs
      obtain ⟨g, hg, rfl⟩ := List.mem_map.1 hs
      rw [← g.length_items, Grouping.mem_all.1 hg]
    · intro hs
      obtain ⟨g, hg, rfl⟩ := Grouping.exists_of_leaves hs
      exact List.mem_map_of_mem (Grouping.mem_all.2 hg)
  · exact hpairwise.imp fun hbefore heq => (heq ▸ hbefore).irrefl
  · refine length_bracketings _ ?_
    rw [List.length_map, Nat.sub_add_cancel (List.length_pos_of_ne_nil hne)]
  · exact bracketings?_of_ne_nil hne
  · exact (Grouping.map_fold_all combine items).symm
  · exact ⟨bracketings combine' (items.map f), bracketings?_of_ne_nil (by simpa using hne),
      (map_bracketings h items).symm⟩

/-- Four numbers are subtracted in five ways: `9 - (5 - (2 - 1))` comes first, and
    `((9 - 5) - 2) - 1` last. From their opposites the opposites come. -/
theorem bracketings_eq_folds_subtraction : [9, 5, 2, 1] ≠ [] ∧
    ∃ groupings : List (Grouping Int), groupings.length = 5 ∧
      (∀ g, g ∈ groupings ↔ g.items = [9, 5, 2, 1]) ∧
      (groupings.map Grouping.shape).Pairwise Shape.Before ∧
      groupings.map (Grouping.fold (· - ·)) = [5, 7, 3, 5, 1] ∧
      ∃ images, bracketings? (· - ·) [-9, -5, -2, -1] = .ok images ∧
        images.toList = [-5, -7, -3, -5, -1] := by
  obtain ⟨groupings, hmem, -, -, hpairwise, hlength, hfold⟩ :=
    @bracketings_eq_folds Int [9, 5, 2, 1] (by decide)
  obtain ⟨results, hok, hresults, himages⟩ := hfold (· - ·)
  obtain ⟨images, hok', himages⟩ := himages Int (-·) (· - ·) fun a b => by omega
  have hlist : results.toList = [5, 7, 3, 5, 1] := by
    obtain rfl := Except.ok.inj hok
    simp [toList_bracketings_cons_cons, List.finRange_succ]
  refine ⟨by decide, groupings, hlength.trans catalan_three, hmem, hpairwise,
    hresults.symm.trans hlist, images, hok', ?_⟩
  rw [himages, hlist]
  rfl

end DigitReach

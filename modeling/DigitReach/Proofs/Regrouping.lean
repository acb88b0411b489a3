import DigitReach.Expr.Text
import Mathlib

/-!
# Regrouping to the left

A text does not show how sums and products on the right of a `+` or a `*` were grouped:
`a + (b - c)` and `(a + b) - c` are both written `a + b - c`, and read as the latter. Nor
does it show of a concatenation what was joined. So what can be read of the text of an
expression is the expression *regrouped* (`Expr.regrouped`): with the value of each
concatenation in its place (`Expr.plain`), and with four rules applied as often as possible:

* `a + (b + c)` becomes `(a + b) + c`, and `a + (b - c)` becomes `(a + b) - c`;
* `a * (b * c)` becomes `(a * b) * c`, and `a * (b / c)` becomes `(a * b) / c`.

* `reflTransGen_regrouped`: regrouping takes steps by these rules, and no others;
* `stuck_regrouped`: and it does not end before none of them applies any more;
* `eq_regrouped_iff`: the order in which the rules are applied makes no difference;
* `denote_regrouped`: the rules hold in every field, so regrouping does not change what an
  expression stands for, whatever literals, roots, factorials and powers are.
-/

namespace DigitReach

open Relation (ReflTransGen)

/-- `a o (b o' c)` is the same as `(a o b) o' c`. -/
def Operator.absorbs : Operator → Operator → Bool
  | .add, .add | .add, .subtract | .multiply, .multiply | .multiply, .divide => true
  | _, _ => false

namespace Expr

/-! ## Regrouped expressions -/

/-- The operator between two expressions, as far to the left of the second one as it can be
    moved. -/
def regroup (o : Operator) (l : Expr) : Expr → Expr
  | binary o' x y =>
    if o.absorbs o' then .binary o' (regroup o l x) y else .binary o l (.binary o' x y)
  | r => .binary o l r

/-- The expression with the value of each concatenation in its place. -/
def plain : Expr → Expr
  | constant x => .constant x
  | e@(concat _ _) => .constant e.value
  | sqrt e => .sqrt e.plain
  | factorial e => .factorial e.plain
  | binary o l r => .binary o l.plain r.plain

/-- The expression as it can be read of its text. -/
def regrouped : Expr → Expr
  | constant x => .constant x
  | e@(concat _ _) => .constant e.value
  | sqrt e => .sqrt e.regrouped
  | factorial e => .factorial e.regrouped
  | binary o l r => regroup o l.regrouped r.regrouped

variable {o o' : Operator} {e e' l r x y : Expr}

theorem regroup_absorbs (h : o.absorbs o') :
    regroup o l (binary o' x y) = binary o' (regroup o l x) y := if_pos h

theorem regroup_not_absorbs (h : ¬ o.absorbs o') :
    regroup o l (binary o' x y) = binary o l (binary o' x y) := if_neg h

/-- An operator stays where nothing that it absorbs is on its right. -/
theorem regroup_of_not_absorbs (h : ∀ o' x y, r = binary o' x y → ¬ o.absorbs o') :
    regroup o l r = binary o l r := by
  cases r with
  | binary o' x y => exact regroup_not_absorbs (h o' x y rfl)
  | constant _ | concat _ _ | sqrt _ | factorial _ => rfl

theorem looseness_of_absorbs (h : o.absorbs o') : o'.looseness = o.looseness := by
  cases o <;> cases o' <;> first | rfl | exact absurd h Bool.false_ne_true

theorem absorbs_trans {o'' : Operator} (h : o.absorbs o') (h' : o'.absorbs o'') :
    o.absorbs o'' := by
  cases o <;> cases o' <;> cases o'' <;>
    first | rfl | exact absurd h Bool.false_ne_true | exact absurd h' Bool.false_ne_true

/-- Two operators are moved past each other one by one. -/
theorem regroup_regroup (h : o.absorbs o') (l x y : Expr) :
    regroup o l (regroup o' x y) = regroup o' (regroup o l x) y := by
  induction y with
  | binary o'' y z ihy _ =>
    by_cases h' : o'.absorbs o''
    · rw [regroup_absorbs h', regroup_absorbs h', regroup_absorbs (absorbs_trans h h'), ihy]
    · rw [regroup_not_absorbs h', regroup_not_absorbs h', regroup_absorbs h]
  | constant _ | concat _ _ | sqrt _ | factorial _ => exact regroup_absorbs h

/-- What is moved is as loose as what it is moved past. -/
theorem looseness_regroup (o : Operator) (l r : Expr) :
    (regroup o l r).looseness = o.looseness := by
  cases r with
  | binary o' x y =>
    rw [regroup]
    split
    · next h => exact looseness_of_absorbs h
    · rfl
  | constant _ | concat _ _ | sqrt _ | factorial _ => rfl

theorem looseness_regrouped (e : Expr) : e.regrouped.looseness = e.looseness := by
  cases e with
  | binary o l r => exact looseness_regroup o _ _
  | constant _ | concat _ _ | sqrt _ | factorial _ => rfl

/-! ## Rules -/

/-- The right expression is the left one with one rule applied, at one place. -/
inductive Regroups : Expr → Expr → Prop
  | rule {o o' : Operator} (a b c : Expr) : o.absorbs o' →
    Regroups (binary o a (binary o' b c)) (binary o' (binary o a b) c)
  | left {l l' : Expr} (o : Operator) (r : Expr) : Regroups l l' →
    Regroups (binary o l r) (binary o l' r)
  | right {r r' : Expr} (o : Operator) (l : Expr) : Regroups r r' →
    Regroups (binary o l r) (binary o l r')
  | sqrt {e e' : Expr} : Regroups e e' → Regroups (sqrt e) (sqrt e')
  | factorial {e e' : Expr} : Regroups e e' → Regroups (factorial e) (factorial e')

theorem reflTransGen_regroup (o : Operator) (l r : Expr) :
    ReflTransGen Regroups (binary o l r) (regroup o l r) := by
  induction r with
  | binary o' x y ihx _ =>
    rw [regroup]
    split
    · next h =>
      exact .head (.rule l x y h) (ihx.lift (binary o' · y) fun _ _ hx => .left o' y hx)
    · exact .refl
  | constant _ | concat _ _ | sqrt _ | factorial _ => exact .refl

/-- Regrouping applies the rules. -/
theorem reflTransGen_regrouped (e : Expr) : ReflTransGen Regroups e.plain e.regrouped := by
  induction e with
  | constant _ | concat _ _ => exact .refl
  | sqrt e ih => exact ih.lift sqrt fun _ _ h => .sqrt h
  | factorial e ih => exact ih.lift factorial fun _ _ h => .factorial h
  | binary o l r ihl ihr =>
    have hl := ihl.lift (binary o · r.plain) fun _ _ h => Regroups.left o r.plain h
    have hr := ihr.lift (binary o l.regrouped ·) fun _ _ h => Regroups.right o l.regrouped h
    exact (hl.trans hr).trans (reflTransGen_regroup o _ _)

/-- No rule applies anywhere. -/
def Stuck (e : Expr) : Prop := ∀ e', ¬ Regroups e e'

theorem stuck_binary (hl : Stuck l) (hr : Stuck r)
    (h : ∀ o' x y, r = binary o' x y → ¬ o.absorbs o') : Stuck (binary o l r) := by
  intro e' hstep
  cases hstep with
  | rule _ b c habsorbs => exact h _ b c rfl habsorbs
  | left _ _ hstep => exact hl _ hstep
  | right _ _ hstep => exact hr _ hstep

theorem stuck_regroup (hl : Stuck l) (hr : Stuck r) : Stuck (regroup o l r) := by
  induction r with
  | binary o' x y ihx _ =>
    have hx : Stuck x := fun x' h => hr _ (.left o' y h)
    have hy : Stuck y := fun y' h => hr _ (.right o' x h)
    rw [regroup]
    split
    · -- What `o'` would absorb, it would have absorbed before.
      refine stuck_binary (ihx hx) hy fun o'' b c hyeq habsorbs => ?_
      rw [hyeq] at hr
      exact hr _ (.rule x b c habsorbs)
    · next h =>
      refine stuck_binary hl hr fun o'' b c heq => ?_
      cases heq
      exact h
  | constant _ | concat _ _ | sqrt _ | factorial _ =>
    exact stuck_binary hl hr fun _ _ _ h => by cases h

/-- To a regrouped expression no rule applies any more. -/
theorem stuck_regrouped (e : Expr) : Stuck e.regrouped := by
  induction e with
  | constant _ | concat _ _ => exact fun _ h => by cases h
  | sqrt e ih =>
    intro e' h
    cases h with
    | sqrt h => exact ih _ h
  | factorial e ih =>
    intro e' h
    cases h with
    | factorial h => exact ih _ h
  | binary o l r ihl ihr => exact stuck_regroup ihl ihr

/-! ## The order of the rules -/

/-- An application of a rule is part of the regrouping. -/
theorem Regroups.regrouped_eq (h : Regroups e e') : e'.regrouped = e.regrouped := by
  induction h with
  | rule a b c h => exact (regroup_regroup h a.regrouped b.regrouped c.regrouped).symm
  | left o r _ ih => exact congrArg (regroup o · r.regrouped) ih
  | right o l _ ih => exact congrArg (regroup o l.regrouped) ih
  | sqrt _ ih => exact congrArg Expr.sqrt ih
  | factorial _ ih => exact congrArg Expr.factorial ih

/-- No rule brings a concatenation in. -/
theorem Regroups.plain_eq (h : Regroups e e') (he : e.plain = e) : e'.plain = e' := by
  induction h with
  | rule a b c _ =>
    obtain ⟨-, ha, hbc⟩ := binary.inj he
    obtain ⟨-, hb, hc⟩ := binary.inj hbc
    rw [plain, plain, ha, hb, hc]
  | left o r _ ih => rw [plain, ih (binary.inj he).2.1, (binary.inj he).2.2]
  | right o l _ ih => rw [plain, (binary.inj he).2.1, ih (binary.inj he).2.2]
  | sqrt _ ih => rw [plain, ih (sqrt.inj he)]
  | factorial _ ih => rw [plain, ih (factorial.inj he)]

theorem plain_plain (e : Expr) : e.plain.plain = e.plain := by
  induction e with
  | constant _ | concat _ _ => rfl
  | sqrt e ih => exact congrArg Expr.sqrt ih
  | factorial e ih => exact congrArg Expr.factorial ih
  | binary o l r ihl ihr => exact congrArg₂ (binary o) ihl ihr

theorem regrouped_plain (e : Expr) : e.plain.regrouped = e.regrouped := by
  induction e with
  | constant _ | concat _ _ => rfl
  | sqrt e ih => exact congrArg Expr.sqrt ih
  | factorial e ih => exact congrArg Expr.factorial ih
  | binary o l r ihl ihr => exact congrArg₂ (regroup o) ihl ihr

/-- An expression that no rule applies to is regrouped. -/
theorem Stuck.regrouped_eq (h : Stuck e) : e.regrouped = e.plain := by
  induction e with
  | constant _ | concat _ _ => rfl
  | sqrt e ih => exact congrArg Expr.sqrt (ih fun _ he => h _ (.sqrt he))
  | factorial e ih => exact congrArg Expr.factorial (ih fun _ he => h _ (.factorial he))
  | binary o l r ihl ihr =>
    rw [regrouped, plain, ihl fun _ hl => h _ (.left o r hl), ihr fun _ hr => h _ (.right o l hr)]
    refine regroup_of_not_absorbs fun o' x y heq => ?_
    -- The root of `r` is the root of `r.plain`.
    cases r with
    | binary _ b c =>
      cases heq
      exact fun habsorbs => h _ (.rule l b c habsorbs)
    | constant _ | concat _ _ | sqrt _ | factorial _ => cases heq

/-- In whichever order the rules are applied, until none applies any more, the expression
    comes out regrouped. -/
theorem eq_regrouped_iff :
    e' = e.regrouped ↔ ReflTransGen Regroups e.plain e' ∧ Stuck e' := by
  constructor
  · rintro rfl
    exact ⟨reflTransGen_regrouped e, stuck_regrouped e⟩
  · rintro ⟨hrun, hstuck⟩
    have hkept : e'.plain = e' ∧ e'.regrouped = e.regrouped := by
      clear hstuck
      induction hrun with
      | refl => exact ⟨plain_plain e, regrouped_plain e⟩
      | tail _ hstep ih => exact ⟨hstep.plain_eq ih.1, hstep.regrouped_eq.trans ih.2⟩
    rw [← hkept.2, hstuck.regrouped_eq, hkept.1]

end Expr

/-! ## What expressions stand for -/

universe u

/-- What literals, roots, factorials and powers are in some numbers. -/
structure Interpretation (K : Type u) where
  /-- The number that a literal is. -/
  literal : Float → K
  /-- The square root. -/
  sqrt : K → K
  /-- The factorial. -/
  factorial : K → K
  /-- The power. -/
  power : K → K → K

variable {K : Type u} [Field K]

/-- What an operator does to exact numbers. -/
def Operator.denote (i : Interpretation K) : Operator → K → K → K
  | add => (· + ·)
  | subtract => (· - ·)
  | multiply => (· * ·)
  | divide => (· / ·)
  | power => i.power

namespace Expr

/-- The exact number that an expression stands for. -/
def denote (i : Interpretation K) : Expr → K
  | constant x => i.literal x
  | e@(concat _ _) => i.literal e.value
  | sqrt e => i.sqrt (e.denote i)
  | factorial e => i.factorial (e.denote i)
  | binary o l r => o.denote i (l.denote i) (r.denote i)

theorem denote_plain (i : Interpretation K) (e : Expr) : e.plain.denote i = e.denote i := by
  induction e with
  | constant _ | concat _ _ => rfl
  | sqrt e ih => exact congrArg i.sqrt ih
  | factorial e ih => exact congrArg i.factorial ih
  | binary o l r ihl ihr => exact congrArg₂ (o.denote i) ihl ihr

/-- The rules hold for exact numbers. -/
theorem Regroups.denote_eq (i : Interpretation K) {e e' : Expr} (h : Regroups e e') :
    e'.denote i = e.denote i := by
  induction h with
  | @rule o o' a b c h =>
    -- Four pairs of operators are left.
    cases o <;> cases o' <;> first | exact absurd h Bool.false_ne_true | skip
    · exact add_assoc _ _ _
    · exact add_sub_assoc _ _ _
    · exact mul_assoc _ _ _
    · exact mul_div_assoc _ _ _
  | left o r _ ih => exact congrArg (o.denote i · _) ih
  | right o l _ ih => exact congrArg (o.denote i _ ·) ih
  | sqrt _ ih => exact congrArg i.sqrt ih
  | factorial _ ih => exact congrArg i.factorial ih

/-- Regrouping does not change what an expression stands for. -/
theorem denote_regrouped (i : Interpretation K) (e : Expr) :
    e.regrouped.denote i = e.denote i := by
  rw [← denote_plain i e]
  have hrun := reflTransGen_regrouped e
  generalize e.regrouped = e' at hrun ⊢
  induction hrun with
  | refl => rfl
  | tail _ hstep ih => rw [hstep.denote_eq, ih]

end Expr

end DigitReach

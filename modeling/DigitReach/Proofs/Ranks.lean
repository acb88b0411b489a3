import DigitReach.Proofs.Changes
import DigitReach.Proofs.Surroundings

/-!
# The highest operation of an expression

The rank of an expression is that of the most exotic operation in it. It is found without a
look below a concatenation: what stands there counts too, but nothing ranks higher than the
concatenation itself. So a frame, a concatenation or not, makes of the rank of what is in it
the greater of that and a rank of its own, and it does not matter how the frames are nested.

* `Expr.isGreatest_rank`: the rank is the highest of all that stands in the expression, at any
  depth;
* `Expr.rank_surrounded`: the rank of frames with an expression in them is the greater of the
  rank of the frames, with a constant in them, and that of the expression;
* `Expr.rank_highest`: so in any place an expression that ranks no higher than another is as
  good as this one, or better.
-/

namespace DigitReach.Expr

/-- The rank of the operation that an expression is made by, of whatever it is made. A constant
    is made by none. -/
def ownRank : Expr → Nat
  | constant _ => 0
  | binary o _ _ => o.rank
  | sqrt _ => 3
  | factorial _ => 4
  | concat _ _ => 5

variable {p e e' : Expr}

/-! ## Frames -/

/-- A frame ranks as it does around a constant, or as high as what is in it. -/
theorem rank_around (f : Frame) (e : Expr) (x : Float) :
    (f.around e).rank = max (f.around (constant x)).rank e.rank := by
  cases f with
  | sqrt | factorial | left o r | right o l =>
    simp only [Frame.around, rank]
    omega
  | concatLeft r | concatRight l =>
    -- The rank is not computed from that of the sides, but it is the highest.
    exact (max_eq_left e.rank_le).symm

theorem rank_surrounded (e : Expr) (frames : List Frame) (x : Float) :
    (e.surrounded frames).rank = max ((constant x).surrounded frames).rank e.rank := by
  induction frames generalizing e with
  | nil => exact (Nat.zero_max e.rank).symm
  | cons f frames ih =>
    rw [surrounded_cons, surrounded_cons, ih (f.around e), ih (f.around (constant x)),
      rank_around f e x, max_assoc]

/-- In frames, what ranks higher makes a rank that is no lower. -/
theorem rank_surrounded_mono (h : e.rank ≤ e'.rank) (frames : List Frame) :
    (e.surrounded frames).rank ≤ (e'.surrounded frames).rank := by
  rw [rank_surrounded e frames 0, rank_surrounded e' frames 0]
  exact max_le_max_left _ h

/-! ## The highest rank -/

theorem ownRank_le_rank (e : Expr) : e.ownRank ≤ e.rank := by
  cases e with
  | constant x => exact le_rfl
  | concat l r => exact le_rfl
  | sqrt e | factorial e | binary o l r => exact le_max_right _ _

/-- What stands in an expression ranks no higher than the expression. -/
theorem Within.rank_le (h : Within p e) : p.rank ≤ e.rank := by
  obtain ⟨frames, rfl⟩ := within_iff.1 h
  rw [rank_surrounded p frames 0]
  exact le_max_right _ _

theorem exists_within_of_max {k : Nat} (hrank : e.rank = max k e.ownRank)
    (hk : ∃ p, Within p e ∧ p.ownRank = k) : ∃ p, Within p e ∧ p.ownRank = e.rank := by
  rcases max_choice k e.ownRank with hmax | hmax
  · rwa [hrank, hmax]
  · exact ⟨e, .here, (hrank.trans hmax).symm⟩

/-- Something that stands in an expression is made by an operation of its rank. -/
theorem exists_within_ownRank_eq (e : Expr) : ∃ p, Within p e ∧ p.ownRank = e.rank := by
  induction e with
  | constant x => exact ⟨_, .here, rfl⟩
  | concat l r _ _ => exact ⟨_, .here, rfl⟩
  | sqrt e ih =>
    obtain ⟨p, hp, hown⟩ := ih
    exact exists_within_of_max rfl ⟨p, hp.sqrt, hown⟩
  | factorial e ih =>
    obtain ⟨p, hp, hown⟩ := ih
    exact exists_within_of_max rfl ⟨p, hp.factorial, hown⟩
  | binary o l r ihl ihr =>
    obtain ⟨p, hp, hownl⟩ := ihl
    obtain ⟨q, hq, hownr⟩ := ihr
    refine exists_within_of_max rfl ?_
    rcases max_choice l.rank r.rank with hmax | hmax
    · exact ⟨p, hp.left o r, hownl.trans hmax.symm⟩
    · exact ⟨q, hq.right o l, hownr.trans hmax.symm⟩

/-- The rank is the highest of all operations in the expression. -/
theorem isGreatest_rank (e : Expr) : IsGreatest {k | ∃ p, Within p e ∧ p.ownRank = k} e.rank := by
  refine ⟨exists_within_ownRank_eq e, ?_⟩
  rintro k ⟨p, hp, rfl⟩
  exact p.ownRank_le_rank.trans hp.rank_le

/-- Only constants have the lowest rank. -/
theorem rank_eq_zero_iff : e.rank = 0 ↔ ∃ x, e = constant x := by
  constructor
  · intro h
    have hown : e.ownRank = 0 := Nat.le_zero.1 (h ▸ e.ownRank_le_rank)
    cases e with
    | constant x => exact ⟨x, rfl⟩
    | binary o l r => cases o <;> cases hown
    | sqrt _ | factorial _ | concat _ _ => cases hown
  · rintro ⟨x, rfl⟩
    rfl

/-! ## The result -/

/-- The rank of an expression is the highest of all operations in it, those below a
    concatenation included. It is at most `5`, and `0` for constants alone. Wherever the
    expression stands, the rank of the whole is the greater of its rank and that of what is
    around it; so in place of an expression that ranks as high or higher it makes a whole that
    ranks no higher, and whose answer does not give way to that of the other. -/
theorem rank_highest (e : Expr) :
    IsGreatest {k | ∃ p, Within p e ∧ p.ownRank = k} e.rank ∧
      e.rank ≤ 5 ∧ (e.rank = 0 ↔ ∃ x, e = constant x) ∧
      ∀ frames : List Frame,
        (∀ x, (e.surrounded frames).rank = max ((constant x).surrounded frames).rank e.rank) ∧
        ∀ e' : Expr, e.rank ≤ e'.rank →
          (e.surrounded frames).rank ≤ (e'.surrounded frames).rank ∧
            Answer.better (some (e.surrounded frames).answer) (some (e'.surrounded frames).answer) =
              some (e.surrounded frames).answer := by
  refine ⟨isGreatest_rank e, e.rank_le, rank_eq_zero_iff, fun frames =>
    ⟨rank_surrounded e frames, fun e' h => ?_⟩⟩
  have hmono := rank_surrounded_mono h frames
  refine ⟨hmono, (Answer.better_eq_left_iff _ _).2 fun later hlater => ?_⟩
  rw [← Option.some.inj hlater]
  exact hmono

/-- In `sqrt(2^3) - 5`, the root ranks highest. With `2 * 4` in place of the power the rank is
    the same, and with `24` joined of its digits in place of it the rank is `5`. -/
theorem rank_highest_difference :
    let digit (d : Nat) : Expr := .constant (Float.ofNat d)
    let power := Expr.binary .power (digit 2) (digit 3)
    let product := Expr.binary .multiply (digit 2) (digit 4)
    let joined := Expr.concat (digit 2) (digit 4)
    let frames := [.sqrt, .left .subtract (digit 5)]
    product.rank ≤ power.rank ∧ power.rank ≤ joined.rank ∧
      (product.surrounded frames).rank = 3 ∧ (power.surrounded frames).rank = 3 ∧
      (joined.surrounded frames).rank = 5 ∧
      Answer.better (some (power.surrounded frames).answer) (some (joined.surrounded frames).answer) =
        some (power.surrounded frames).answer := by
  intro digit power product joined frames
  have hrank : power.rank ≤ joined.rank := by decide
  exact ⟨by decide, hrank, rfl, rfl, rfl, (((rank_highest power).2.2.2 frames).2 joined hrank).2⟩

end DigitReach.Expr

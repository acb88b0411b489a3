import DigitReach.Operands
import DigitReach.Proofs.Registry

/-!
# Digits as doubles

There are ten digits, so what has to be known of them as doubles is known by looking at
each: every digit is the target of its number (`of?_ofNat`), digits that differ are different
doubles (`map_ofNat_inj`), none has a sign (`not_signed_ofNat`), and the difference of two
digits is exact (`ofNat_sub_ofNat`).
-/

namespace DigitReach

/-- The digits, as doubles, reach their numbers. -/
theorem of?_ofNat {d : Nat} (h : d ≤ maxOperand) :
    (Target.of? (Float.ofNat d)).map Fin.val = some d := by
  have hall : ∀ d : Fin (maxOperand + 1),
      (Target.of? (Float.ofNat d)).map Fin.val = some d.val := by
    decide +kernel
  exact hall ⟨d, Nat.lt_succ_of_le h⟩

/-- The difference of two digits, the greater one first, is exact. -/
theorem ofNat_sub_ofNat {a b : Nat} (hba : b ≤ a) (ha : a ≤ maxOperand) :
    Float.ofNat a - Float.ofNat b = Float.ofNat (a - b) := by
  have hall : ∀ a b : Fin (maxOperand + 1), b.val ≤ a.val →
      Float.ofNat a - Float.ofNat b = Float.ofNat (a.val - b.val) := by
    decide +kernel
  exact hall ⟨a, Nat.lt_succ_of_le ha⟩ ⟨b, Nat.lt_succ_of_le (hba.trans ha)⟩ hba

/-- Digits that are equal as doubles are equal. -/
theorem map_ofNat_inj {ds ds' : List Nat} (h : ∀ d ∈ ds, d ≤ maxOperand)
    (h' : ∀ d ∈ ds', d ≤ maxOperand) (heq : ds.map Float.ofNat = ds'.map Float.ofNat) :
    ds = ds' := by
  have hnumbers {ds : List Nat} (h : ∀ d ∈ ds, d ≤ maxOperand) :
      (ds.map Float.ofNat).map (fun x => (Target.of? x).map Fin.val) = ds.map some := by
    rw [List.map_map]
    exact List.map_congr_left fun d hd => of?_ofNat (h d hd)
  have hsome := congrArg (List.map fun x => (Target.of? x).map Fin.val) heq
  rw [hnumbers h, hnumbers h'] at hsome
  exact List.map_injective_iff.2 (fun _ _ => Option.some.inj) hsome

/-- Digits have no sign. -/
theorem not_signed_ofNat {d : Nat} (h : d ≤ maxOperand) : ¬ Double.signed (Float.ofNat d) := by
  have hall : ∀ d : Fin (maxOperand + 1), ¬ Double.signed (Float.ofNat d) := by decide +kernel
  exact hall ⟨d, Nat.lt_succ_of_le h⟩

end DigitReach

/-
  QuantumMemory.Proofs.Lattice.Coordinate — the grid of half-integers.

  What is taken to be on the grid is at most the limit in size (`exactHalf?_le`), and so far out every half is a number
  and on the grid (`exactHalf?_half`).
-/

import QuantumMemory.Lattice.Coordinate
import QuantumMemory.Proofs.Number.Short

namespace QuantumMemory

namespace Coordinate

theorem exactHalf?_le {x : Binary64} {k : Int} (h : exactHalf? x = some k) : k.natAbs ≤ 2 * limit := by
  cases x with
  | finite negative m =>
    obtain ⟨⟨hle, -⟩, hk⟩ := Option.ite_none_right_eq_some.mp h
    have hdoubled : 2 * m.units / Magnitude.unitsPerOne ≤ 2 * limit := by
      refine Nat.div_le_of_le_mul ?_
      rw [Nat.mul_comm Magnitude.unitsPerOne, Nat.mul_assoc]
      exact Nat.mul_le_mul_left 2 hle
    rw [← Option.some.inj hk]
    cases negative with
    | false => rwa [if_neg Bool.false_ne_true, Int.natAbs_natCast]
    | true => rwa [if_pos rfl, Int.natAbs_neg, Int.natAbs_natCast]
  | infinite | nan => cases h

/-- Half of an integer, up to the limit, is a number on the grid. -/
theorem exactHalf?_half {k : Int} (hk : k.natAbs ≤ 2 * limit) :
    (Binary64.ofIntRatio k 2).isFinite = true ∧ exactHalf? (.ofIntRatio k 2) = some k := by
  obtain ⟨m, hm⟩ := Magnitude.exists_half (c := k.natAbs) (hk.trans_lt (by decide))
  have hnearest : Magnitude.nearest? k.natAbs 2 = some m :=
    Magnitude.nearest?_exact (by decide) (by rw [← hm, Nat.mul_comm])
  have hle : m.units ≤ limit * Magnitude.unitsPerOne := by
    refine Nat.le_of_mul_le_mul_left ?_ (show 0 < 2 by decide)
    rw [hm, ← Nat.mul_assoc]
    exact Nat.mul_le_mul_right _ hk
  have hmod : 2 * m.units % Magnitude.unitsPerOne = 0 := by rw [hm, Nat.mul_mod_left]
  have hdiv : 2 * m.units / Magnitude.unitsPerOne = k.natAbs := by
    rw [hm, Nat.mul_div_cancel _ Magnitude.unitsPerOne_pos]
  rw [Binary64.ofIntRatio, Binary64.ofRatio_of_nearest? _ hnearest]
  refine ⟨rfl, ?_⟩
  rw [exactHalf?, if_pos ⟨hle, hmod⟩, hdiv]
  clear hm hle hmod hdiv hnearest
  dsimp only
  rcases lt_or_ge k 0 with hneg | hnonneg
  · rw [decide_eq_true hneg, if_pos rfl, Int.ofNat_natAbs_of_nonpos hneg.le, neg_neg]
  · rw [decide_eq_false (by omega), if_neg Bool.false_ne_true, Int.natAbs_of_nonneg hnonneg]

end Coordinate

end QuantumMemory

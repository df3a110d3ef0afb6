/-
  QuantumMemory.Proofs.Number.Value — what a double-precision number stands for.

  Comparisons of numbers are done on ranks. `value?` gives the rational number meant, and
  `isProbability_iff` says that the test for a probability, made on ranks, is the one on
  values: finite, and from zero to one.
-/

import Mathlib.Algebra.Order.Field.Rat
import Mathlib.Tactic.Common
import Mathlib.Tactic.NormNum
import Mathlib.Tactic.Positivity
import QuantumMemory.Number.Binary64

namespace QuantumMemory

namespace Magnitude

theorem units_eq (m : Magnitude) : m.units = (m.rank - m.shift * binade) * 2 ^ m.shift := Nat.shiftLeft_eq _ _

theorem unitsPerOne_eq {n : Nat} (hn : n = 1022) : unitsPerOne = binade * 2 ^ n := by
  have hbinade : binade = 2 ^ 52 := by decide
  have hexponent : 1074 = 52 + n := by omega
  rw [hbinade, ← pow_add, unitsPerOne, hexponent, Nat.shiftLeft_eq, one_mul]

theorem units_eq_zero_iff (m : Magnitude) : m.units = 0 ↔ m.rank = 0 := by
  have hdiv := Nat.div_add_mod m.rank binade
  have hbinade : 0 < binade := by decide
  rw [units_eq, Nat.mul_eq_zero, or_iff_left (Nat.two_pow_pos _).ne', shift, Nat.sub_mul, mul_comm _ binade]
  omega

/-- From the first power of two up, the significand lies in its binade. -/
theorem significand_eq {m : Magnitude} (h : binade ≤ m.rank) :
    m.rank - m.shift * binade = binade + m.rank % binade := by
  have hdiv := Nat.div_add_mod m.rank binade
  have hquot : 1 ≤ m.rank / binade := (Nat.one_le_div_iff (by decide)).mpr h
  have hmul := Nat.mul_le_mul_left binade hquot
  rw [shift, Nat.sub_mul, mul_comm _ binade]
  omega

/-- Significands of one binade: the exponents decide, then the significand. -/
theorem significand_le_iff {s e n : Nat} (hlow : binade ≤ s) (hhigh : s < 2 * binade) :
    s * 2 ^ e ≤ binade * 2 ^ n ↔ e < n ∨ e = n ∧ s = binade := by
  rcases lt_trichotomy e n with hlt | rfl | hgt
  · refine iff_of_true ?_ (.inl hlt)
    calc s * 2 ^ e ≤ 2 * binade * 2 ^ e := Nat.mul_le_mul_right _ hhigh.le
      _ = binade * 2 ^ (e + 1) := by rw [pow_succ]; ac_rfl
      _ ≤ binade * 2 ^ n := Nat.mul_le_mul_left _ (Nat.pow_le_pow_right (by decide) hlt)
  · rw [Nat.mul_le_mul_right_iff (Nat.two_pow_pos e)]
    omega
  · refine iff_of_false (Nat.not_le.mpr ?_) (by omega)
    calc binade * 2 ^ n < binade * 2 ^ e :=
          Nat.mul_lt_mul_of_pos_left (Nat.pow_lt_pow_right (by decide) hgt) (by decide)
      _ ≤ s * 2 ^ e := Nat.mul_le_mul_right _ hlow

/-- Up to the value one are the ranks up to that of one. -/
theorem units_le_iff (m : Magnitude) : m.units ≤ unitsPerOne ↔ m.rank ≤ one.rank := by
  have hdiv := Nat.div_add_mod m.rank binade
  have hmod := Nat.mod_lt m.rank (show 0 < binade by decide)
  obtain ⟨n, hn⟩ : ∃ n, n = 1022 := ⟨_, rfl⟩
  rw [units_eq, unitsPerOne_eq hn, show one.rank = 1023 * binade from rfl]
  rcases Nat.lt_or_ge m.rank binade with hsmall | hlarge
  · rw [shift, Nat.div_eq_of_lt hsmall, Nat.zero_sub, Nat.zero_mul, Nat.sub_zero, pow_zero, mul_one]
    refine iff_of_true (hsmall.le.trans (Nat.le_mul_of_pos_right _ (Nat.two_pow_pos _))) ?_
    omega
  · have hquot : 1 ≤ m.rank / binade := (Nat.one_le_div_iff (by decide)).mpr hlarge
    rw [significand_eq hlarge, significand_le_iff (by omega) (by omega), shift]
    have hbinade : binade = 0x10000000000000 := rfl
    rw [hbinade] at hdiv hmod ⊢
    omega

end Magnitude

namespace Binary64

/-- The value, if the number is finite. -/
def value? : Binary64 → Option ℚ
  | .finite negative m => some ((if negative then -1 else 1) * (m.units / Magnitude.unitsPerOne))
  | _ => none

/-- A probability is a finite number from zero to one. -/
theorem isProbability_iff (p : Binary64) : p.isProbability = true ↔ ∃ v, p.value? = some v ∧ 0 ≤ v ∧ v ≤ 1 := by
  have hone : (0 : ℚ) < Magnitude.unitsPerOne := by
    exact_mod_cast (Magnitude.unitsPerOne_eq rfl).symm ▸ Nat.mul_pos (show 0 < binade by decide) (Nat.two_pow_pos _)
  cases p with
  | nan => simp [isProbability, value?]
  | infinite negative => simp [isProbability, value?]
  | finite negative m =>
    have hunits := m.units_le_iff
    simp only [value?, Option.some.injEq, exists_eq_left']
    -- Nothing below depends on how many units there are.
    generalize Magnitude.unitsPerOne = n at hone hunits ⊢
    cases negative with
    | false =>
      rw [show isProbability (.finite false m) = decide (m.rank ≤ Magnitude.one.rank) from rfl, decide_eq_true_iff,
        ← hunits]
      simp only [Bool.false_eq_true, if_false, one_mul, div_le_one hone, Nat.cast_le]
      exact (and_iff_right (by positivity)).symm
    | true =>
      rw [show isProbability (.finite true m) = (m.rank == 0) from rfl, beq_iff_eq, ← m.units_eq_zero_iff]
      simp only [if_true, neg_mul, one_mul, neg_nonneg]
      constructor
      · intro hzero
        simp only [hzero, Nat.cast_zero, zero_div, neg_zero, le_refl, zero_le_one, and_self]
      · rintro ⟨hle, -⟩
        have hzero : (m.units : ℚ) ≤ 0 := by simpa using (div_le_iff₀ hone).mp hle
        exact_mod_cast hzero.antisymm (Nat.cast_nonneg _)

end Binary64

end QuantumMemory

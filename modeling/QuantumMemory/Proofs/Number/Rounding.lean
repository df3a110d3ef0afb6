/-
  QuantumMemory.Proofs.Number.Rounding — rounding keeps the order.

  A larger ratio is rounded to no smaller quotient (`roundDiv_mono`), and to no smaller number:
  within a binade by that, and between two since a significand is at least one binade and at
  most two (`roundedRank_mono`, `nearest?_mono`). Larger ranks have larger values (`units_mono`).

  - `quotient_isProbability`: a count by one that is no smaller is a probability, though both are
    rounded before they are divided.
-/

import Mathlib.Data.Nat.Log
import QuantumMemory.Proofs.Number.Reading

namespace QuantumMemory

theorem roundDiv_bounds (tie : Tie) (num den : Nat) :
    num / den ≤ roundDiv tie num den ∧ roundDiv tie num den ≤ num / den + 1 := by
  unfold roundDiv
  cases tie <;> grind

theorem div_le_div_of_mul_le {a b c d : Nat} (hb : 0 < b) (hd : 0 < d) (h : a * d ≤ c * b) : a / b ≤ c / d := by
  rw [Nat.le_div_iff_mul_le hd]
  refine Nat.le_of_mul_le_mul_right ?_ hb
  calc a / b * d * b = a / b * b * d := by ring
    _ ≤ a * d := Nat.mul_le_mul_right _ (Nat.div_mul_le_self _ _)
    _ ≤ c * b := h

theorem roundDiv_mono (tie : Tie) {a b c d : Nat} (hb : 0 < b) (hd : 0 < d) (h : a * d ≤ c * b) :
    roundDiv tie a b ≤ roundDiv tie c d := by
  rcases (div_le_div_of_mul_le hb hd h).lt_or_eq with hlt | heq
  · exact (roundDiv_bounds tie a b).2.trans (hlt.trans_le (roundDiv_bounds tie c d).1)
  -- Of equal quotients the larger ratio has the larger remainder for its divisor.
  · have hrem : a % b * d ≤ c % d * b := by
      have ha := Nat.div_add_mod a b
      have hc := Nat.div_add_mod c d
      rw [← heq] at hc
      rw [← ha, ← hc, Nat.add_mul, Nat.add_mul, Nat.mul_right_comm b, Nat.mul_right_comm d, Nat.mul_comm d b] at h
      exact Nat.le_of_add_le_add_left h
    have hless : 2 * (c % d) < d → 2 * (a % b) < b := by
      intro hlt
      refine Nat.lt_of_mul_lt_mul_right (a := d) ?_
      calc 2 * (a % b) * d ≤ 2 * (c % d) * b := by rw [Nat.mul_assoc, Nat.mul_assoc]; exact Nat.mul_le_mul_left 2 hrem
        _ < d * b := Nat.mul_lt_mul_of_pos_right hlt hb
        _ = b * d := Nat.mul_comm d b
    have hmore : b < 2 * (a % b) → d < 2 * (c % d) := by
      intro hlt
      refine Nat.lt_of_mul_lt_mul_right (a := b) ?_
      calc d * b = b * d := Nat.mul_comm d b
        _ < 2 * (a % b) * d := Nat.mul_lt_mul_of_pos_right hlt hd
        _ ≤ 2 * (c % d) * b := by rw [Nat.mul_assoc, Nat.mul_assoc]; exact Nat.mul_le_mul_left 2 hrem
    unfold roundDiv
    rw [heq]
    cases tie <;> grind

namespace Magnitude

/-- The rank that a value in units is rounded to. -/
def roundedRank (num den : Nat) : Nat :=
  ((num / den).log2 - 52) * binade + roundDiv .even num (den <<< ((num / den).log2 - 52))

theorem nearest?_eq_some_iff {num den : Nat} {m : Magnitude} :
    nearest? num den = some m ↔ roundedRank (num * unitsPerOne) den = m.rank := by
  simp only [nearest?, roundedRank]
  constructor
  · intro h
    split at h
    · exact congrArg rank (Option.some.inj h)
    · cases h
  · intro h
    rw [dif_pos (h ▸ m.rank_lt)]
    congr

theorem binade_eq : binade = 2 ^ 52 := by decide

theorem roundedRank_mono {a b c d : Nat} (hb : 0 < b) (hd : 0 < d) (h : a * d ≤ c * b) :
    roundedRank a b ≤ roundedRank c d := by
  have hquot := div_le_div_of_mul_le hb hd h
  have hlog : (a / b).log2 ≤ (c / d).log2 := by
    rw [Nat.log2_eq_log_two, Nat.log2_eq_log_two]
    exact Nat.log_mono_right hquot
  unfold roundedRank
  set s := (a / b).log2 - 52 with hs
  set t := (c / d).log2 - 52 with ht
  have hshifted : ∀ k e : Nat, 0 < k → 0 < k <<< e := by
    intro k e hk
    rw [Nat.shiftLeft_eq]
    exact Nat.mul_pos hk (Nat.two_pow_pos e)
  rcases (show s ≤ t by omega).lt_or_eq with hlt | heq
  -- In a lower binade the significand is at most two binades; in a higher one it is at least one.
  · have hupper : roundDiv .even a (b <<< s) ≤ 2 * binade := by
      refine (roundDiv_bounds _ _ _).2.trans (Nat.succ_le_of_lt ?_)
      rw [Nat.shiftLeft_eq, ← Nat.div_div_eq_div_mul, Nat.div_lt_iff_lt_mul (Nat.two_pow_pos s)]
      refine Nat.lt_log2_self.trans_le ?_
      rw [binade_eq, ← pow_succ', ← pow_add]
      exact Nat.pow_le_pow_right (by decide) (by omega)
    have hlower : binade ≤ roundDiv .even c (d <<< t) := by
      refine le_trans ?_ (roundDiv_bounds _ _ _).1
      have hne : c / d ≠ 0 := by
        intro hzero
        rw [ht, hzero, Nat.log2_zero] at hlt
        omega
      rw [Nat.shiftLeft_eq, ← Nat.div_div_eq_div_mul, Nat.le_div_iff_mul_le (Nat.two_pow_pos t), binade_eq, ← pow_add]
      exact (Nat.pow_le_pow_right (by decide) (by omega)).trans (Nat.log2_self_le hne)
    calc s * binade + roundDiv .even a (b <<< s) ≤ s * binade + 2 * binade := Nat.add_le_add_left hupper _
      _ = (s + 1) * binade + binade := by ring
      _ ≤ t * binade + roundDiv .even c (d <<< t) := Nat.add_le_add (Nat.mul_le_mul_right _ hlt) hlower
  · rw [← heq]
    refine Nat.add_le_add_left (roundDiv_mono _ (hshifted _ _ hb) (hshifted _ _ hd) ?_) _
    rw [Nat.shiftLeft_eq, Nat.shiftLeft_eq, ← Nat.mul_assoc, ← Nat.mul_assoc]
    exact Nat.mul_le_mul_right _ h

/-- What is no larger than a ratio is rounded to no larger number. -/
theorem nearest?_mono {a b c d : Nat} (hb : 0 < b) (hd : 0 < d) (h : a * d ≤ c * b) {n : Magnitude}
    (hn : nearest? c d = some n) : ∃ m, nearest? a b = some m ∧ m.rank ≤ n.rank := by
  have hle : roundedRank (a * unitsPerOne) b ≤ n.rank := by
    rw [← nearest?_eq_some_iff.mp hn]
    refine roundedRank_mono hb hd ?_
    rw [Nat.mul_right_comm, Nat.mul_right_comm c]
    exact Nat.mul_le_mul_right _ h
  exact ⟨⟨_, hle.trans_lt n.rank_lt⟩, nearest?_eq_some_iff.mpr rfl, hle⟩

/-- Larger ranks have larger values. -/
theorem units_mono {m n : Magnitude} (h : m.rank ≤ n.rank) : m.units ≤ n.units := by
  have hquot : m.rank / binade ≤ n.rank / binade := Nat.div_le_div_right h
  have hm := Nat.div_add_mod m.rank binade
  have hmod := Nat.mod_lt m.rank (show 0 < binade by decide)
  rw [units_eq, units_eq]
  rcases (show m.shift ≤ n.shift from Nat.sub_le_sub_right hquot 1).lt_or_eq with hlt | heq
  · have hlarge : binade ≤ n.rank := by
      have hone : 1 ≤ n.rank / binade := by
        unfold shift at hlt
        omega
      exact (Nat.one_le_div_iff (by decide)).mp hone
    have hsignificand : m.rank - m.shift * binade ≤ 2 * binade := by
      rw [shift, Nat.sub_mul, Nat.mul_comm _ binade]
      omega
    calc (m.rank - m.shift * binade) * 2 ^ m.shift ≤ 2 * binade * 2 ^ m.shift := Nat.mul_le_mul_right _ hsignificand
      _ = binade * 2 ^ (m.shift + 1) := by rw [pow_succ]; ring
      _ ≤ binade * 2 ^ n.shift := Nat.mul_le_mul_left _ (Nat.pow_le_pow_right (by decide) hlt)
      _ ≤ (n.rank - n.shift * binade) * 2 ^ n.shift := by
        rw [significand_eq hlarge]
        exact Nat.mul_le_mul_right _ (Nat.le_add_right _ _)
  · rw [heq]
    exact Nat.mul_le_mul_right _ (Nat.sub_le_sub_right h _)

/-- A ratio of equal numbers is one. -/
theorem nearest?_self {k : Nat} (hk : 0 < k) : nearest? k k = some one := by
  refine nearest?_exact hk ?_
  have hunits : one.units = unitsPerOne := by decide +kernel
  rw [hunits, Nat.mul_comm]

end Magnitude

namespace Binary64

open Magnitude

/-- A count by one that is no smaller, within 64 bits, is a probability. -/
theorem quotient_isProbability {a b : Nat} (hab : a ≤ b) (hb : 0 < b) (hword : b ≤ 0xFFFFFFFFFFFFFFFF) :
    (quotient a b).isProbability = true := by
  obtain ⟨top, htop⟩ : ∃ top, nearest? 0xFFFFFFFFFFFFFFFF 1 = some top :=
    Option.isSome_iff_exists.mp (by decide +kernel)
  obtain ⟨n, hn, -⟩ := nearest?_mono Nat.one_pos Nat.one_pos (Nat.mul_le_mul_right 1 hword) htop
  obtain ⟨m, hm, hmn⟩ := nearest?_mono Nat.one_pos Nat.one_pos (Nat.mul_le_mul_right 1 hab) hn
  have hpos : 0 < n.rank := by
    obtain ⟨unit, hunit, hle⟩ := nearest?_mono Nat.one_pos Nat.one_pos (Nat.mul_le_mul_right 1 hb) hn
    cases (nearest?_self Nat.one_pos).symm.trans hunit
    exact lt_of_lt_of_le (by decide) hle
  have hunits : 0 < n.units := Nat.pos_of_ne_zero fun h => hpos.ne' ((units_eq_zero_iff n).mp h)
  have hratio : m.units * n.units ≤ n.units * n.units := Nat.mul_le_mul_right _ (units_mono hmn)
  obtain ⟨r, hr, hle⟩ := nearest?_mono hunits hunits hratio (nearest?_self hunits)
  rw [quotient, ofNat, ofNat, ofRatio_of_nearest? _ hm, ofRatio_of_nearest? _ hn, div, if_neg hpos.ne',
    ofRatio_of_nearest? _ hr]
  exact decide_eq_true hle

end Binary64

end QuantumMemory

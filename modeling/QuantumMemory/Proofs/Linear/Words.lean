/-
  QuantumMemory.Proofs.Linear.Words — rows of 64-bit words, bit by bit.

  Shifting a word and masking it reads one of its bits (`wordBit_eq`), so bit `c` of a row is bit
  `c % 64` of word `c / 64`. With that a change of one word is a change of one bit
  (`bit_flip`), xor of words is xor of bits (`bit_add`), and rows with the same bits are the same
  words (`ext_bits`). The bits beyond the columns count there too.
-/

import Mathlib.Data.Nat.Bitwise
import QuantumMemory.Code.PackedMatrix

namespace QuantumMemory

/-! ## One word -/

theorem toNat_shift {k : Nat} (hk : k < 64) : (UInt64.ofNat k).toNat % 64 = k := by
  rw [UInt64.toNat_ofNat', Nat.mod_eq_of_lt (hk.trans (by decide)), Nat.mod_eq_of_lt hk]

theorem wordBit_eq (w : UInt64) {k : Nat} (hk : k < 64) : wordBit w k = w.toNat.testBit k := by
  have hshifted : ((w >>> UInt64.ofNat k) &&& 1).toNat = (w.toNat >>> k) % 2 := by
    rw [UInt64.toNat_and, UInt64.toNat_shiftRight, toNat_shift hk]
    exact Nat.and_one_is_mod _
  rw [wordBit, Bool.eq_iff_iff, beq_iff_eq, ← UInt64.toNat_inj, hshifted, Nat.testBit_eq_decide_div_mod_eq,
    decide_eq_true_iff, Nat.shiftRight_eq_div_pow]
  rfl

theorem wordBit_zero (k : Nat) : wordBit 0 k = false := by
  rw [wordBit, UInt64.zero_shiftRight]
  rfl

theorem wordBit_xor (w w' : UInt64) {k : Nat} (hk : k < 64) : wordBit (w ^^^ w') k = (wordBit w k ^^ wordBit w' k) := by
  rw [wordBit_eq _ hk, wordBit_eq _ hk, wordBit_eq _ hk, UInt64.toNat_xor, Nat.testBit_xor]

theorem wordBit_one_shift {k k' : Nat} (hk : k < 64) (hk' : k' < 64) :
    wordBit (1 <<< UInt64.ofNat k') k = decide (k = k') := by
  rw [wordBit_eq _ hk, UInt64.toNat_shiftLeft, toNat_shift hk', Nat.testBit_mod_two_pow, decide_eq_true hk,
    Bool.true_and, show (1 : UInt64).toNat = 1 from rfl, Nat.one_shiftLeft, Nat.testBit_two_pow]
  exact decide_eq_decide.mpr eq_comm

/-- Words with the same bits are the same. -/
theorem word_ext {w w' : UInt64} (h : ∀ k < 64, wordBit w k = wordBit w' k) : w = w' := by
  refine UInt64.toNat_inj.mp (Nat.eq_of_testBit_eq fun k => ?_)
  by_cases hk : k < 64
  · rw [← wordBit_eq w hk, ← wordBit_eq w' hk, h k hk]
  · have hbeyond : ∀ u : UInt64, u.toNat.testBit k = false := fun u =>
      Nat.testBit_lt_two_pow (u.toNat_lt.trans_le (Nat.pow_le_pow_right (by decide) (Nat.le_of_not_lt hk)))
    rw [hbeyond, hbeyond]

/-! ## Rows -/

namespace PackedRow

open BitRow

variable {n c k : Nat} {v w : Vector UInt64 n}

theorem bit_eq (v : Vector UInt64 n) {c : Nat} (hc : c / 64 < n) : bit v c = wordBit v[c / 64] (c % 64) := by
  show (v[c / 64]?).any (wordBit · (c % 64)) = _
  rw [Vector.getElem?_eq_getElem hc]
  rfl

theorem bit_beyond (v : Vector UInt64 n) (hc : ¬c / 64 < n) : bit v c = false := by
  show (v[c / 64]?).any (wordBit · (c % 64)) = false
  rw [Vector.getElem?_eq_none (Nat.le_of_not_lt hc)]
  rfl

theorem bit_zero (c : Nat) : bit (zero : Vector UInt64 n) c = false := by
  by_cases hc : c / 64 < n
  · rw [bit_eq _ hc, show zero = Vector.replicate n (0 : UInt64) from rfl, Vector.getElem_replicate, wordBit_zero]
  · exact bit_beyond _ hc

theorem bit_flip (v : Vector UInt64 n) (hc : c / 64 < n) (k : Nat) : bit (flip v c) k = (bit v k ^^ decide (k = c)) := by
  have hflip : flip v c = v.set (c / 64) (v[c / 64] ^^^ 1 <<< UInt64.ofNat (c % 64)) := dif_pos hc
  by_cases hk : k / 64 < n
  · rw [bit_eq _ hk, bit_eq _ hk, hflip, Vector.getElem_set]
    by_cases hword : c / 64 = k / 64
    · rw [if_pos hword, wordBit_xor _ _ (Nat.mod_lt _ (by decide)), wordBit_one_shift (Nat.mod_lt _ (by decide))
        (Nat.mod_lt _ (by decide))]
      simp only [hword]
      exact congrArg _ (decide_eq_decide.mpr (by omega))
    · rw [if_neg hword, decide_eq_false fun he => hword (by rw [he]), Bool.xor_false]
  · rw [bit_beyond _ hk, bit_beyond _ hk, decide_eq_false (by rintro rfl; exact hk hc), Bool.xor_false]

theorem bit_add (v w : Vector UInt64 n) (k : Nat) : bit (add v w) k = (bit v k ^^ bit w k) := by
  by_cases hk : k / 64 < n
  · rw [bit_eq _ hk, bit_eq _ hk, bit_eq _ hk, show add v w = v.zipWith (· ^^^ ·) w from rfl, Vector.getElem_zipWith,
      wordBit_xor _ _ (Nat.mod_lt _ (by decide))]
  · rw [bit_beyond _ hk, bit_beyond _ hk, bit_beyond _ hk]
    rfl

/-- Rows with the same bits are the same words. -/
theorem ext_bits (h : ∀ c, bit v c = bit w c) : v = w := by
  refine Vector.ext fun i hi => word_ext fun k hk => ?_
  have hword : (i * 64 + k) / 64 = i := by omega
  have hplace : (i * 64 + k) % 64 = k := by omega
  have hbit := h (i * 64 + k)
  rw [bit_eq _ (by omega), bit_eq _ (by omega)] at hbit
  simpa only [hword, hplace] using hbit

/-- The zero test sees every bit that is stored. -/
theorem isZero_iff : isZero v = true ↔ ∀ c, bit v c = false := by
  have hzero : isZero v = true ↔ v = zero := by
    show v.all (· == 0) = true ↔ v = .replicate n 0
    rw [Vector.all_eq_true, Vector.ext_iff]
    simp only [beq_iff_eq, Vector.getElem_replicate]
  rw [hzero]
  exact ⟨fun h c => h ▸ bit_zero c, fun h => ext_bits fun c => (h c).trans (bit_zero c).symm⟩

end PackedRow

end QuantumMemory

/-
  QuantumMemory.Proofs.Number.Literal — literals as they are written, and what they are read as.

  A literal that can be spelled has digits for its parts, and no zero before other digits
  (`Numeral.Spellable`); whole numbers and finite numbers are written with such ones. A whole number
  is read back from its digits (`natural?_ofNat`, `integer?_ofInt`), and whatever literal names a number
  names a finite one (`number?_isFinite`). The reading of decimal places rounds more than once, so not every
  number is read back from its own literal; `Binary64.ReadsBack` says that one is.
-/

import QuantumMemory.Number.Numeral
import QuantumMemory.Proofs.Number.Rounding

namespace QuantumMemory

/-- Only the number zero is written with a leading zero. -/
theorem toDigits_of_head? {n : Nat} (h : (Nat.toDigits 10 n).head? = some '0') : Nat.toDigits 10 n = ['0'] := by
  induction n using Nat.strongRecOn with
  | ind n ih =>
    rw [Nat.toDigits_eq_if (by decide)] at h ⊢
    split at h
    · rename_i hlt
      rw [if_pos hlt, Option.some.inj h]
    · rename_i hge
      have hdigits := Nat.toDigits_ne_nil (b := 10) (n := n / 10)
      rw [List.head?_append_of_ne_nil _ hdigits] at h
      have hzero : n / 10 = 0 := by
        have hread := congrArg (Nat.ofDigitChars 10 · 0) (ih (n / 10) (by omega) h)
        rwa [Nat.ofDigitChars_ten_toDigits] at hread
      omega

/-- Only zero is written with the coefficient zero. -/
theorem Magnitude.rank_eq_zero {m : Magnitude} {tie : Tie} (h : (m.shortest tie).coefficient = 0) : m.rank = 0 := by
  have hback := m.shortest_magnitude? tie
  rw [Decimal.magnitude?, h, Nat.zero_mul] at hback
  have hnone : nearest? 0 (powerOfTen (-(m.shortest tie).exponent).toNat) = some .zero := by
    refine nearest?_exact (powerOfTen_pos _) ?_
    rw [(units_eq_zero_iff _).mpr rfl, Nat.zero_mul, Nat.zero_mul]
  rw [← Option.some.inj (hnone.symm.trans hback)]
  rfl

namespace Numeral

/-- Digits before the point, and if there is a point digits after it. -/
structure Spellable (n : Numeral) : Prop where
  digits : ∀ c ∈ n.whole ++ n.fraction, c.isDigit = true
  nonempty : n.whole ≠ []
  noLeadingZero : n.whole.head? = some '0' → n.whole = ['0']

theorem spellable_ofInt (k : Int) : (ofInt k).Spellable where
  digits := by
    rw [show (ofInt k).fraction = [] from rfl, List.append_nil]
    exact toDigits_isDigit k.natAbs
  nonempty := Nat.toDigits_ne_nil
  noLeadingZero := toDigits_of_head?

theorem spellable_ofNat (k : Nat) : (ofNat k).Spellable := spellable_ofInt k

/-- Digits with a zero first are followed by zeros only if there is nothing else. -/
theorem spellable_ofDecimal (negative : Bool) {d : Decimal} (hd : d.coefficient = 0 → d.exponent ≤ 0) :
    (ofDecimal negative d).Spellable := by
  have hdigits := d.digits_isDigit
  have hzero : d.digits.head? = some '0' → d.digits = ['0'] := toDigits_of_head?
  have hpos : 0 < d.digits.length := List.length_pos_iff.mpr d.digits_ne_nil
  simp only [ofDecimal]
  split
  · refine ⟨?_, ?_, fun h => ?_⟩
    · simpa only [List.take_append_drop] using hdigits
    · exact List.ne_nil_of_length_pos (by simpa using hpos)
    · rw [List.head?_take, if_neg (by decide)] at h
      rw [hzero h]
      rfl
  · split
    · rename_i hexponent
      refine ⟨?_, by simp [d.digits_ne_nil], fun h => ?_⟩
      · refine List.forall_mem_append.mpr ⟨List.forall_mem_append.mpr ⟨hdigits, isDigit_zeros _⟩, ?_⟩
        simp
      · rw [List.head?_append_of_ne_nil _ d.digits_ne_nil] at h
        have hone := hzero h
        have hcoefficient : d.coefficient = 0 := by
          have hvalue := d.ofDigitChars_digits
          rw [hone] at hvalue
          exact hvalue.symm
        have hnone : d.exponent.toNat = 0 := by
          have := hd hcoefficient
          omega
        simp only [hone, hnone, List.replicate_zero, List.append_nil]
    · split
      · rename_i hlead
        refine ⟨?_, ?_, fun h => ?_⟩
        · simpa only [List.take_append_drop] using hdigits
        · exact List.ne_nil_of_length_pos (by simp; omega)
        · rw [List.head?_take, if_neg (by omega)] at h
          simp only [hzero h, List.take_succ_cons, List.take_nil]
      · refine ⟨?_, by simp, fun _ => rfl⟩
        refine List.forall_mem_append.mpr ⟨by simp, List.forall_mem_append.mpr ⟨isDigit_zeros _, hdigits⟩⟩

/-- Whatever finite number is written, its literal can be spelled. -/
theorem spellable_ofBinary64 {x : Binary64} {n : Numeral} (h : ofBinary64 x = some n) : n.Spellable := by
  cases x with
  | nan => cases h
  | infinite negative => cases h
  | finite negative m =>
    cases h
    refine spellable_ofDecimal negative fun hzero => ?_
    rw [Magnitude.shortest, if_pos (Magnitude.rank_eq_zero hzero)]

/-! ## Whole numbers -/

theorem integer?_ofInt {k : Int} (hlow : -(negativeBound : Int) ≤ k) (hhigh : k ≤ naturalBound) :
    (ofInt k).integer? = some k := by
  have hmagnitude : (ofInt k).magnitude = k.natAbs := Nat.ofDigitChars_ten_toDigits
  have hinteger : (ofInt k).isInteger = true := rfl
  rw [integer?, hinteger, hmagnitude]
  rcases lt_or_ge k 0 with hneg | hnonneg
  · have hsign : (ofInt k).negative = true := decide_eq_true hneg
    have hbound : 0 < k.natAbs ∧ k.natAbs ≤ negativeBound := by omega
    have hvalue : -(k.natAbs : Int) = k := by omega
    rw [hsign, if_neg (by decide), if_pos rfl, if_pos hbound, hvalue]
  · have hsign : (ofInt k).negative = false := decide_eq_false (by omega)
    have hbound : k.natAbs ≤ naturalBound := by omega
    have hvalue : (k.natAbs : Int) = k := by omega
    rw [hsign, if_neg (by decide), if_neg Bool.false_ne_true, if_pos hbound, hvalue]

theorem natural?_ofNat {k bound : Nat} (hk : k ≤ bound) (hbound : bound ≤ naturalBound) :
    (ofNat k).natural? bound = some k := by
  have hread : (ofNat k).integer? = some (k : Int) :=
    integer?_ofInt (k := (k : Int)) (by omega) (by exact_mod_cast hk.trans hbound)
  rw [natural?, hread]
  exact if_pos hk

theorem natural?_le {n : Numeral} {bound k : Nat} (h : n.natural? bound = some k) : k ≤ bound := by
  rw [natural?] at h
  split at h
  · obtain ⟨hle, hk⟩ := Option.ite_none_right_eq_some.mp h
    exact Option.some.inj hk ▸ hle
  · cases h

theorem natAbs_of_integer? {n : Numeral} {k : Int} (h : n.integer? = some k) : k.natAbs ≤ naturalBound := by
  rw [integer?] at h
  have hbounds : negativeBound ≤ naturalBound := by decide
  split at h
  · cases h
  · split at h
    · obtain ⟨hle, hk⟩ := Option.ite_none_right_eq_some.mp h
      cases hk
      omega
    · obtain ⟨hle, hk⟩ := Option.ite_none_right_eq_some.mp h
      cases hk
      simpa using hle

/-! ## Real numbers -/

/-- What a literal names is finite. -/
theorem number?_isFinite {n : Numeral} {x : Binary64} (h : n.number? = some x) : x.isFinite = true := by
  rw [number?] at h
  split at h
  · rename_i k hk
    cases h
    obtain ⟨top, htop⟩ : ∃ top, Magnitude.nearest? naturalBound 1 = some top :=
      Option.isSome_iff_exists.mp (by decide +kernel)
    obtain ⟨m, hm, -⟩ := Magnitude.nearest?_mono Nat.one_pos Nat.one_pos
      (Nat.mul_le_mul_right 1 (natAbs_of_integer? hk)) htop
    rw [Binary64.ofIntRatio, Binary64.ofRatio_of_nearest? _ hm]
    rfl
  · obtain ⟨m, -, hx⟩ := Option.bind_eq_some_iff.mp h
    cases hx
    rfl

end Numeral

/-- Written with a literal, the number is read back from it. -/
def Binary64.ReadsBack (x : Binary64) : Prop := ∀ n, Numeral.ofBinary64 x = some n → n.number? = some x

end QuantumMemory

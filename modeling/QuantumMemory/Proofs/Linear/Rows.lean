/-
  QuantumMemory.Proofs.Linear.Rows — rows of bits as vectors over the field of two elements.

  A row has its bits for entries, and xor adds entries (`entries_xor`). Rows span a space
  (`rowSpace`), and vectors without ones beyond the columns make one (`within`). The vector
  of a list has a one at each index that is listed an odd number of times (`entries_vector`);
  from the list of its ones a row within the columns comes back (`vector_support`).
-/

import Mathlib.Algebra.Field.ZMod
import Mathlib.GroupTheory.GroupAction.Ring
import Mathlib.LinearAlgebra.Pi
import Mathlib.LinearAlgebra.Span.Basic
import QuantumMemory.Code.BitMatrix

namespace QuantumMemory

namespace BitMatrix

/-- A row or a vector, column by column. -/
abbrev Entries := Nat → ZMod 2

def entries (v : Nat) : Entries := fun c => if v.testBit c then 1 else 0

theorem entries_eq_one {v c : Nat} : entries v c = 1 ↔ v.testBit c = true := by simp [entries]

theorem entries_eq_zero {v c : Nat} : entries v c = 0 ↔ v.testBit c = false := by simp [entries]

@[simp] theorem entries_zero : entries 0 = 0 := by
  funext c
  simp [entries]

theorem entries_xor (v w : Nat) : entries (v ^^^ w) = entries v + entries w := by
  funext c
  simp only [entries, Pi.add_apply, Nat.testBit_xor]
  cases v.testBit c <;> cases w.testBit c <;> decide

theorem entries_inj {v w : Nat} : entries v = entries w ↔ v = w := by
  refine ⟨fun h => Nat.eq_of_testBit_eq fun c => ?_, congrArg entries⟩
  have hc := congrFun h c
  simp only [entries] at hc
  cases hv : v.testBit c <;> cases hw : w.testBit c <;> simp_all

theorem entries_bit (c : Nat) : entries (1 <<< c) = Pi.single c 1 := by
  funext k
  rw [Nat.one_shiftLeft, entries, Nat.testBit_two_pow, Pi.single_apply]
  by_cases h : c = k
  · simp [h]
  · simp [h, Ne.symm h]

theorem entries_clear (c pivot row : Nat) : entries (clear c pivot row) = entries row + entries row c • entries pivot := by
  unfold clear
  cases h : row.testBit c with
  | true => rw [if_pos rfl, entries_xor, entries_eq_one.mpr h, one_smul]
  | false => rw [if_neg Bool.false_ne_true, entries_eq_zero.mpr h, zero_smul, add_zero]

/-! ## Spaces -/

/-- The sums of rows. -/
def rowSpace (rows : List Nat) : Submodule (ZMod 2) Entries := Submodule.span (ZMod 2) (entries '' {row | row ∈ rows})

theorem entries_mem {rows : List Nat} {row : Nat} (h : row ∈ rows) : entries row ∈ rowSpace rows :=
  Submodule.subset_span ⟨row, h, rfl⟩

theorem rowSpace_le {rows : List Nat} {space : Submodule (ZMod 2) Entries} :
    rowSpace rows ≤ space ↔ ∀ row ∈ rows, entries row ∈ space := by
  rw [rowSpace, Submodule.span_le, Set.image_subset_iff]
  rfl

/-- The vectors without ones at or beyond `cols`. -/
def within (cols : Nat) : Submodule (ZMod 2) Entries where
  carrier := {x | ∀ c, cols ≤ c → x c = 0}
  zero_mem' := fun _ _ => rfl
  add_mem' := fun hx hy c hc => by rw [Pi.add_apply, hx c hc, hy c hc, add_zero]
  smul_mem' := fun a x hx c hc => by rw [Pi.smul_apply, hx c hc, smul_zero]

theorem mem_within {cols : Nat} {x : Entries} : x ∈ within cols ↔ ∀ c, cols ≤ c → x c = 0 := Iff.rfl

theorem entries_within {cols v : Nat} : entries v ∈ within cols ↔ v < 2 ^ cols := by
  rw [mem_within]
  constructor
  · intro h
    exact Nat.lt_pow_two_of_testBit v fun c hc => entries_eq_zero.mp (h c hc)
  · intro h c hc
    exact entries_eq_zero.mpr (Nat.testBit_lt_two_pow (h.trans_le (Nat.pow_le_pow_right (by decide) hc)))

/-! ## Products -/

/-- The product with a vector on the first columns. -/
def against (cols : Nat) (x : Entries) : Entries →ₗ[ZMod 2] ZMod 2 := ∑ c ∈ Finset.range cols, x c • LinearMap.proj c

theorem against_apply (cols : Nat) (x y : Entries) : against cols x y = ∑ c ∈ Finset.range cols, x c * y c := by
  simp [against, LinearMap.sum_apply]

theorem against_comm (cols : Nat) (x y : Entries) : against cols x y = against cols y x := by
  rw [against_apply, against_apply]
  exact Finset.sum_congr rfl fun c _ => mul_comm _ _

/-! ## Lists of ones -/

theorem entries_vector (support : List Nat) (c : Nat) : entries (vector support) c = (support.count c : ZMod 2) := by
  have hfold : ∀ v, entries (support.foldl (fun v c => v ^^^ 1 <<< c) v) c = entries v c + (support.count c : ZMod 2) := by
    induction support with
    | nil => simp
    | cons k rest ih =>
      intro v
      rw [List.foldl_cons, ih, entries_xor, entries_bit, Pi.add_apply, Pi.single_apply, List.count_cons, add_assoc]
      by_cases hk : c = k
      · simp [hk, add_comm]
      · simp [hk, Ne.symm hk]
  rw [vector, hfold, entries_zero, Pi.zero_apply, zero_add]

theorem mem_support {cols row c : Nat} : c ∈ support cols row ↔ c < cols ∧ row.testBit c = true := by
  rw [support, List.mem_filter, List.mem_range]

theorem mem_support_of_lt {cols row c : Nat} (h : row < 2 ^ cols) : c ∈ support cols row ↔ row.testBit c = true := by
  rw [mem_support, and_iff_right_iff_imp]
  intro hbit
  refine Nat.lt_of_not_le fun hge => ?_
  rw [Nat.testBit_lt_two_pow (h.trans_le (Nat.pow_le_pow_right (by decide) hge))] at hbit
  cases hbit

theorem support_nodup (cols row : Nat) : (support cols row).Nodup := List.nodup_range.filter _

/-- A row within the columns is the vector of its ones. -/
theorem vector_support {cols row : Nat} (h : row < 2 ^ cols) : vector (support cols row) = row := by
  rw [← entries_inj]
  funext c
  rw [entries_vector, (support_nodup cols row).count, entries, Nat.cast_ite, Nat.cast_one, Nat.cast_zero]
  exact if_congr (mem_support_of_lt h) rfl rfl

end BitMatrix

end QuantumMemory

/-
  QuantumMemory.Proofs.Linear.Basis — the kernel's rows are a basis, and sums of rows are told
  from other vectors.

  Over two elements the space of some rows is what parts of them add up to
  (`mem_rowSpace_iff`). A product with a vector is one parity for each row (`parity_eq`), so what
  the rows all meet evenly is the kernel's space (`mul?_none_odd_iff`). A kernel vector has a one
  in its own free column and in no other, which makes the kernel's rows independent
  (`Echelon.kernelVectors_independent`); there are as many as columns without a pivot.

  - `kernel_basis`: the rows of the kernel are a basis of the vectors that every row meets
    evenly, and with the rank they make up the columns.
  - `contains?_exact`: a vector is found in the row space just if part of the rows adds up to it.
-/

import Mathlib.Algebra.BigOperators.Group.Finset.Basic
import Mathlib.LinearAlgebra.LinearIndependent.Lemmas
import QuantumMemory.Proofs.Linear.Kernel

namespace QuantumMemory

namespace BitMatrix

/-! ## Sums of rows -/

/-- Some of the rows, each taken once, add up to the vector. -/
def IsSum (rows : List Nat) (x : Entries) : Prop := ∃ part : List Nat, part.Sublist rows ∧ (part.map entries).sum = x

theorem rowSpace_cons (row : Nat) (rest : List Nat) :
    rowSpace (row :: rest) = Submodule.span (ZMod 2) (insert (entries row) (entries '' {r | r ∈ rest})) := by
  rw [rowSpace, ← Set.image_insert_eq]
  congr 2
  ext r
  simp

/-- Two elements leave no other multiples than nothing and the row itself. -/
theorem mem_rowSpace_iff {rows : List Nat} {x : Entries} : x ∈ rowSpace rows ↔ IsSum rows x := by
  have hbit : ∀ a : ZMod 2, a = 0 ∨ a = 1 := by decide
  induction rows generalizing x with
  | nil => simp [rowSpace, IsSum, eq_comm]
  | cons row rest ih =>
    rw [rowSpace_cons, Submodule.mem_span_insert]
    constructor
    · intro hx
      obtain ⟨a, z, hz, rfl⟩ := hx
      obtain ⟨part, hpart, rfl⟩ := ih.mp hz
      rcases hbit a with rfl | rfl
      · exact ⟨part, hpart.cons row, by rw [zero_smul, zero_add]⟩
      · exact ⟨row :: part, hpart.cons_cons row, by rw [List.map_cons, List.sum_cons, one_smul]⟩
    · intro hx
      obtain ⟨part, hpart, rfl⟩ := hx
      rcases List.sublist_cons_iff.mp hpart with hrest | ⟨more, rfl, hrest⟩
      · exact ⟨0, _, ih.mpr ⟨part, hrest, rfl⟩, by rw [zero_smul, zero_add]⟩
      · exact ⟨1, _, ih.mpr ⟨more, hrest, rfl⟩, by rw [List.map_cons, List.sum_cons, one_smul]⟩

/-! ## Products with a vector -/

/-- The vector with a one at each index that is listed an odd number of times. -/
def odds (s : List Nat) : Entries := fun c => if Odd (s.count c) then 1 else 0

theorem odds_eq_count (s : List Nat) (c : Nat) : odds s c = (s.count c : ZMod 2) := by
  unfold odds
  by_cases h : Odd (s.count c)
  · rw [if_pos h, ZMod.natCast_eq_one_iff_odd.mpr h]
  · rw [if_neg h, (ZMod.natCast_eq_zero_iff_even).mpr (Nat.not_odd_iff_even.mp h)]

theorem entries_vector_eq_odds (s : List Nat) : entries (vector s) = odds s := by
  funext c
  rw [entries_vector, odds_eq_count]

theorem odds_within {cols : Nat} {s : List Nat} (hs : ∀ c ∈ s, c < cols) : odds s ∈ within cols := by
  intro c hc
  have hnot : c ∉ s := fun hmem => Nat.not_lt_of_le hc (hs c hmem)
  rw [odds_eq_count, List.count_eq_zero_of_not_mem hnot, Nat.cast_zero]

theorem parity_eq (row : Nat) (s : List Nat) : (if parity row s then 1 else 0) = (s.map (entries row)).sum := by
  have hfold : ∀ b : Bool, (if s.foldl (fun b c => b ^^ row.testBit c) b then 1 else 0 : ZMod 2) =
      (if b then 1 else 0) + (s.map (entries row)).sum := by
    induction s with
    | nil => simp
    | cons c rest ih =>
      intro b
      rw [List.foldl_cons, ih, List.map_cons, List.sum_cons, ← add_assoc]
      congr 1
      unfold entries
      cases b <;> cases row.testBit c <;> decide
  rw [parity, hfold, if_neg Bool.false_ne_true, zero_add]

theorem against_odds {cols : Nat} {s : List Nat} (hs : ∀ c ∈ s, c < cols) (x : Entries) :
    against cols x (odds s) = (s.map x).sum := by
  have hsub : s.toFinset ⊆ Finset.range cols := fun c hc => Finset.mem_range.mpr (hs c (List.mem_toFinset.mp hc))
  rw [against_apply, Finset.sum_list_map_count, ← Finset.sum_subset hsub]
  · refine Finset.sum_congr rfl fun c _ => ?_
    rw [odds_eq_count, nsmul_eq_mul, mul_comm]
  · intro c _ hc
    rw [odds_eq_count, List.count_eq_zero_of_not_mem fun hmem => hc (List.mem_toFinset.mpr hmem), Nat.cast_zero, mul_zero]

variable {m : BitMatrix} {s : List Nat}

theorem mul?_eq (hs : ∀ c ∈ s, c < m.cols) : m.mul? s = some (m.rows.map (parity · s)) :=
  mapM_some fun _ _ => if_pos (fits_of_lt hs)

/-- No row is met an odd number of times just if the vector is orthogonal to all. -/
theorem mul?_none_odd_iff (hs : ∀ c ∈ s, c < m.cols) :
    m.mul? s = some (List.replicate m.rows.length false) ↔ odds s ∈ kernelSpace m := by
  rw [mul?_eq hs, Option.some_inj, List.map_eq_replicate_iff, mem_kernelSpace, and_iff_right (odds_within hs)]
  refine forall₂_congr fun row _ => ?_
  rw [against_odds hs, ← parity_eq]
  cases parity row s <;> decide

/-! ## The kernel -/

/-- Each has a one in its own free column, where the others have none. -/
theorem Echelon.kernelVectors_independent {cols : Nat} {reduced : List (Nat × Nat)} (h : Echelon cols reduced)
    {free : List Nat} (hn : free.Nodup) (hfree : ∀ c ∈ free, c ∉ reduced.map Prod.fst) :
    LinearIndependent (ZMod 2) fun i => entries (kernelVector reduced (free.get i)) := by
  refine Fintype.linearIndependent_iff.mpr fun g hg i => ?_
  have hi := congrFun hg (free.get i)
  rw [Finset.sum_apply, Finset.sum_eq_single i] at hi
  · rwa [Pi.smul_apply, h.kernelVector_other _ (hfree _ (List.get_mem free i)), if_pos rfl, smul_eq_mul, mul_one] at hi
  · intro j _ hne
    have hcolumns : free.get i ≠ free.get j := fun heq => hne (hn.get_inj_iff.mp heq).symm
    rw [Pi.smul_apply, h.kernelVector_other _ (hfree _ (List.get_mem free i)), if_neg hcolumns, smul_zero]
  · exact fun hnot => absurd (Finset.mem_univ i) hnot

/-- The columns without a pivot, as the kernel takes them. -/
def freeList (m : BitMatrix) : List Nat := (List.range m.cols).filter fun c => !(m.echelon.map Prod.fst).contains c

theorem kernel_rows (m : BitMatrix) : m.kernel.rows = m.freeList.map (kernelVector m.echelon) := rfl

/-- Every column has a pivot or is free. -/
theorem length_freeList (m : BitMatrix) : m.freeList.length + m.rank = m.cols := by
  have h := echelon_echelon m
  have hpivots : ((List.range m.cols).filter fun c => (m.echelon.map Prod.fst).contains c).Perm (m.echelon.map Prod.fst) := by
    refine (List.perm_ext_iff_of_nodup (List.nodup_range.filter _) h.nodup).mpr fun c => ?_
    rw [List.mem_filter, List.mem_range, List.contains_iff_mem]
    refine and_iff_right_of_imp fun hc => ?_
    obtain ⟨e, he, rfl⟩ := List.mem_map.mp hc
    exact h.before e he
  have hsplit := List.length_eq_length_filter_add (l := List.range m.cols) fun c => (m.echelon.map Prod.fst).contains c
  rw [hpivots.length_eq, List.length_map, List.length_range] at hsplit
  rw [hsplit, Nat.add_comm]
  rfl

/-- The rows of one matrix are a basis of what every row of the other meets evenly. -/
structure KernelBasis (m basis : BitMatrix) : Prop where
  cols : basis.cols = m.cols
  inRange : basis.InRange
  count : basis.rows.length + m.rank = m.cols
  independent : LinearIndependent (ZMod 2) fun i => entries (basis.rows.get i)
  annihilated : ∀ row ∈ basis.rows, m.mul? (support basis.cols row) = some (List.replicate m.rows.length false)
  complete : ∀ s : List Nat, (∀ c ∈ s, c < m.cols) → m.mul? s = some (List.replicate m.rows.length false) →
    IsSum basis.rows (odds s)

/-- The kernel has a row for every column that the rank leaves; its rows are independent, every
    row of the matrix meets them evenly, and what else is met so adds up some of them. -/
theorem kernel_basis (h : m.InRange) : KernelBasis m m.kernel := by
  have hechelon := echelon_echelon m
  have hspace := rowSpace_kernel h
  constructor
  case cols => rfl
  case inRange => exact kernel_inRange m
  case count =>
    rw [kernel_rows, List.length_map]
    exact length_freeList m
  case independent =>
    have hfree : ∀ c ∈ m.freeList, c ∉ m.echelon.map Prod.fst := by
      intro c hc hpivot
      have hnot := (List.mem_filter.mp hc).2
      rw [List.contains_iff_mem.mpr hpivot] at hnot
      cases hnot
    have hlength : m.kernel.rows.length = m.freeList.length := by rw [kernel_rows, List.length_map]
    have hrows : (fun i => entries (m.kernel.rows.get i)) =
        (fun i => entries (kernelVector m.echelon (m.freeList.get i))) ∘ Fin.cast hlength := by
      funext i
      exact congrArg entries (List.getElem_map ..)
    rw [hrows]
    exact (hechelon.kernelVectors_independent (List.nodup_range.filter _) hfree).comp _ (Fin.cast_injective hlength)
  case annihilated =>
    intro row hrow
    have hlt : row < 2 ^ m.cols := kernel_inRange m row hrow
    have hodds : odds (support m.cols row) = entries row := by
      rw [← entries_vector_eq_odds, vector_support hlt]
    refine (mul?_none_odd_iff fun c hc => (mem_support.mp hc).1).mpr ?_
    rw [hodds, ← hspace]
    exact entries_mem hrow
  case complete =>
    intro s hs hmul
    rw [← mem_rowSpace_iff, hspace]
    exact (mul?_none_odd_iff hs).mp hmul

/-- Across three words, the third row the sum of the others: two pivots, and 128 rows that
    make the kernel. -/
theorem kernel_basis_wide :
    (⟨130, [1 ||| 1 <<< 129, 1 <<< 64 ||| 1 <<< 129, 1 ||| 1 <<< 64]⟩ : BitMatrix).InRange ∧
      KernelBasis ⟨130, [1 ||| 1 <<< 129, 1 <<< 64 ||| 1 <<< 129, 1 ||| 1 <<< 64]⟩
        (kernel ⟨130, [1 ||| 1 <<< 129, 1 <<< 64 ||| 1 <<< 129, 1 ||| 1 <<< 64]⟩) ∧
      rank ⟨130, [1 ||| 1 <<< 129, 1 <<< 64 ||| 1 <<< 129, 1 ||| 1 <<< 64]⟩ = 2 ∧
      (kernel ⟨130, [1 ||| 1 <<< 129, 1 <<< 64 ||| 1 <<< 129, 1 ||| 1 <<< 64]⟩).rows.length = 128 := by
  have hrange : (⟨130, [1 ||| 1 <<< 129, 1 <<< 64 ||| 1 <<< 129, 1 ||| 1 <<< 64]⟩ : BitMatrix).InRange := by
    unfold InRange
    decide
  have hrank : rank ⟨130, [1 ||| 1 <<< 129, 1 <<< 64 ||| 1 <<< 129, 1 ||| 1 <<< 64]⟩ = 2 := by decide +kernel
  have hbasis := kernel_basis hrange
  refine ⟨hrange, hbasis, hrank, ?_⟩
  have hcount := hbasis.count
  rw [hrank] at hcount
  exact Nat.add_right_cancel hcount

/-! ## Membership -/

/-- The answer is yes just if some of the rows add up to the vector of the listed ones. -/
theorem contains?_exact (h : m.InRange) (hs : ∀ c ∈ s, c < m.cols) :
    ∃ answer, m.contains? s = some answer ∧ (answer = true ↔ IsSum m.rows (odds s)) := by
  refine ⟨residue m.echelon (vector s) == 0, ?_, ?_⟩
  · rw [contains?, vector?, if_pos (fits_of_lt hs), Option.map_some]
  · rw [beq_iff_eq, residue_echelon_eq_zero_iff h, mem_rowSpace_iff, entries_vector_eq_odds]

/-- Two checks in a line add up to the ends, however the ends are listed, and not to one of them. -/
theorem contains?_exact_line :
    (⟨3, [0b011, 0b110]⟩ : BitMatrix).InRange ∧ contains? ⟨3, [0b011, 0b110]⟩ [2, 1, 0, 1] = some true ∧
      IsSum [0b011, 0b110] (odds [2, 1, 0, 1]) ∧ contains? ⟨3, [0b011, 0b110]⟩ [0] = some false ∧
      ¬IsSum [0b011, 0b110] (odds [0]) := by
  have hrange : (⟨3, [0b011, 0b110]⟩ : BitMatrix).InRange := by unfold InRange; decide
  obtain ⟨answer, hanswer, hiff⟩ := contains?_exact (s := [2, 1, 0, 1]) hrange (by decide)
  obtain ⟨answer', hanswer', hiff'⟩ := contains?_exact (s := [0]) hrange (by decide)
  have hends : contains? ⟨3, [0b011, 0b110]⟩ [2, 1, 0, 1] = some true := by decide
  have hone : contains? ⟨3, [0b011, 0b110]⟩ [0] = some false := by decide
  obtain rfl := Option.some.inj (hanswer.symm.trans hends)
  obtain rfl := Option.some.inj (hanswer'.symm.trans hone)
  exact ⟨hrange, hends, hiff.mp rfl, hone, fun hsum => Bool.false_ne_true (hiff'.mpr hsum)⟩

end BitMatrix

end QuantumMemory

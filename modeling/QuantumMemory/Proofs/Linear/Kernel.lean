/-
  QuantumMemory.Proofs.Linear.Kernel — what is read off the echelon form.

  A sum of reduced rows is known by its entries at the pivots (`Echelon.coordinates`). So what
  is left of a vector when these are cleared is nothing just if the vector is a sum of rows
  (`Echelon.residue_eq_zero_iff`). The product of a reduced row with a vector is the entry at
  its pivot and what the free columns add (`Echelon.against_row`), from which the kernel
  vectors are orthogonal to all rows and every vector that is so is a sum of them
  (`rowSpace_kernel`). The search for a logical operator therefore comes back empty-handed
  just if the kernel holds nothing but sums of rows (`minWeightLogical?_cases`).
-/

import QuantumMemory.Proofs.Linear.Elimination
import QuantumMemory.Proofs.Success

namespace QuantumMemory

namespace BitMatrix

/-! ## Sums of reduced rows -/

namespace Echelon

variable {cols : Nat} {reduced : List (Nat × Nat)} (h : Echelon cols reduced)

include h

theorem pivot_inj {e e' : Nat × Nat} (he : e ∈ reduced) (he' : e' ∈ reduced) (hp : e.1 = e'.1) : e = e' :=
  List.inj_on_of_nodup_map h.nodup he he' hp

/-- A sum of reduced rows adds up those at whose pivots it has a one. -/
theorem coordinates {x : Entries} (hx : x ∈ rowSpace (reduced.map Prod.snd)) :
    x = ∑ e ∈ reduced.toFinset, x e.1 • entries e.2 := by
  induction hx using Submodule.span_induction with
  | mem x hx =>
    obtain ⟨row, hrow, rfl⟩ := hx
    obtain ⟨e, he, rfl⟩ := List.mem_map.mp hrow
    rw [Finset.sum_eq_single e]
    · rw [h.own e he, one_smul]
    · intro e' he' hne
      have hmem := List.mem_toFinset.mp he'
      rw [h.others e he e' hmem fun hp => hne (h.pivot_inj hmem he hp), zero_smul]
    · exact fun hnot => absurd (List.mem_toFinset.mpr he) hnot
  | zero => simp
  | add x y _ _ hx hy =>
    simp only [Pi.add_apply, add_smul, Finset.sum_add_distrib]
    exact congrArg₂ (· + ·) hx hy
  | smul a x _ hx =>
    simp only [Pi.smul_apply, smul_assoc, ← Finset.smul_sum]
    exact congrArg (a • ·) hx

theorem eq_zero {x : Entries} (hx : x ∈ rowSpace (reduced.map Prod.snd)) (hp : ∀ e ∈ reduced, x e.1 = 0) : x = 0 := by
  rw [h.coordinates hx]
  refine Finset.sum_eq_zero fun e he => ?_
  rw [hp e (List.mem_toFinset.mp he), zero_smul]

end Echelon

/-! ## Residues -/

theorem residue_append (reduced : List (Nat × Nat)) (e : Nat × Nat) (v : Nat) :
    residue (reduced ++ [e]) v = clear e.1 e.2 (residue reduced v) := by
  rw [residue, List.foldl_append]
  rfl

/-- Clearing adds sums of rows. -/
theorem residue_sub (reduced : List (Nat × Nat)) (v : Nat) :
    entries (residue reduced v) - entries v ∈ rowSpace (reduced.map Prod.snd) := by
  induction reduced using List.reverseRecOn with
  | nil => simp [residue]
  | append_singleton part last ih =>
    have hpart : rowSpace (part.map Prod.snd) ≤ rowSpace ((part ++ [last]).map Prod.snd) := by
      refine rowSpace_le.mpr fun row hrow => entries_mem ?_
      rw [List.map_append]
      exact List.mem_append_left _ hrow
    have hlast : entries last.2 ∈ rowSpace ((part ++ [last]).map Prod.snd) := entries_mem (by simp)
    rw [residue_append, entries_clear, add_sub_right_comm]
    exact Submodule.add_mem _ (hpart ih) (Submodule.smul_mem _ _ hlast)

namespace Echelon

variable {cols : Nat} {reduced : List (Nat × Nat)}

theorem residue_pivot (h : Echelon cols reduced) (v : Nat) : ∀ e ∈ reduced, entries (residue reduced v) e.1 = 0 := by
  induction reduced using List.reverseRecOn with
  | nil => exact fun e he => absurd he List.not_mem_nil
  | append_singleton part last ih =>
    intro e he
    have hlast : last ∈ part ++ [last] := List.mem_append_right _ (List.mem_singleton_self _)
    rw [residue_append, entries_clear, Pi.add_apply, Pi.smul_apply, smul_eq_mul]
    rcases List.mem_append.mp he with hpart | hlast'
    · have hlt : e.1 < last.1 := by
        have hascend := h.ascend
        rw [List.map_append] at hascend
        exact (List.pairwise_append.mp hascend).2.2 _ (List.mem_map_of_mem hpart) _ (List.mem_singleton_self _)
      rw [ih (h.sublist (List.sublist_append_left _ _)) e hpart, h.others last hlast e he (Nat.ne_of_lt hlt), mul_zero,
        add_zero]
    · rw [List.mem_singleton.mp hlast', h.own last hlast, mul_one, CharTwo.add_self_eq_zero]

theorem residue_eq_zero_iff (h : Echelon cols reduced) {v : Nat} :
    residue reduced v = 0 ↔ entries v ∈ rowSpace (reduced.map Prod.snd) := by
  have hsub := residue_sub reduced v
  constructor
  · intro hzero
    rw [hzero, entries_zero, zero_sub] at hsub
    exact (Submodule.neg_mem_iff _).mp hsub
  · intro hv
    have hres : entries (residue reduced v) ∈ rowSpace (reduced.map Prod.snd) := by
      rw [← sub_add_cancel (entries (residue reduced v)) (entries v)]
      exact Submodule.add_mem _ hsub hv
    rw [← entries_inj, entries_zero]
    exact h.eq_zero hres (h.residue_pivot v)

end Echelon

/-! ## Kernel vectors -/

/-- The vectors within the columns that every row is orthogonal to. -/
def kernelSpace (m : BitMatrix) : Submodule (ZMod 2) Entries where
  carrier := {x | x ∈ within m.cols ∧ ∀ row ∈ m.rows, against m.cols (entries row) x = 0}
  zero_mem' := ⟨Submodule.zero_mem _, fun row _ => map_zero _⟩
  add_mem' := fun hx hy => ⟨Submodule.add_mem _ hx.1 hy.1, fun row hrow => by
    rw [map_add, hx.2 row hrow, hy.2 row hrow, add_zero]⟩
  smul_mem' := fun a x hx => ⟨Submodule.smul_mem _ a hx.1, fun row hrow => by
    rw [map_smul, hx.2 row hrow, smul_zero]⟩

theorem mem_kernelSpace {m : BitMatrix} {x : Entries} :
    x ∈ kernelSpace m ↔ x ∈ within m.cols ∧ ∀ row ∈ m.rows, against m.cols (entries row) x = 0 := Iff.rfl

/-- Orthogonal to rows, orthogonal to their sums. -/
theorem against_rowSpace {cols : Nat} {rows : List Nat} {x : Entries} :
    (∀ row ∈ rows, against cols (entries row) x = 0) ↔ rowSpace rows ≤ LinearMap.ker (against cols x) := by
  rw [rowSpace_le]
  refine forall₂_congr fun row _ => ?_
  rw [LinearMap.mem_ker, against_comm]

/-- The columns that have no pivot. -/
def freeColumns (cols : Nat) (reduced : List (Nat × Nat)) : Finset Nat :=
  {c ∈ Finset.range cols | c ∉ reduced.map Prod.fst}

theorem mem_freeColumns {cols c : Nat} {reduced : List (Nat × Nat)} :
    c ∈ freeColumns cols reduced ↔ c < cols ∧ c ∉ reduced.map Prod.fst := by
  rw [freeColumns, Finset.mem_filter, Finset.mem_range]

theorem mem_kernel_rows {m : BitMatrix} {v : Nat} :
    v ∈ m.kernel.rows ↔ ∃ c ∈ freeColumns m.cols m.echelon, kernelVector m.echelon c = v := by
  simp [kernel, mem_freeColumns]

namespace Echelon

variable {cols : Nat} {reduced : List (Nat × Nat)} (h : Echelon cols reduced)

include h

theorem kernelVector_apply (free c : Nat) : entries (kernelVector reduced free) c =
    (if c = free then 1 else 0) + ∑ e ∈ reduced.toFinset, if e.1 = c then entries e.2 free else 0 := by
  have hfold : ∀ v, entries (reduced.foldl (fun v e => if e.2.testBit free then v ^^^ 1 <<< e.1 else v) v) c =
      entries v c + (reduced.map fun e => if e.1 = c then entries e.2 free else 0).sum := by
    clear h
    induction reduced with
    | nil => simp
    | cons e rest ih =>
      intro v
      rw [List.foldl_cons, ih, List.map_cons, List.sum_cons, ← add_assoc]
      congr 1
      cases hbit : e.2.testBit free with
      | true =>
        rw [if_pos rfl, entries_xor, entries_bit, Pi.add_apply, Pi.single_apply, entries_eq_one.mpr hbit]
        simp only [eq_comm]
      | false => rw [if_neg Bool.false_ne_true, entries_eq_zero.mpr hbit, ite_self, add_zero]
  refine (hfold (1 <<< free)).trans ?_
  rw [entries_bit, Pi.single_apply, List.sum_toFinset _ (List.Nodup.of_map _ h.nodup)]

/-- At a pivot a kernel vector is what the row of the pivot has in the free column. -/
theorem kernelVector_pivot {free : Nat} (hfree : free ∉ reduced.map Prod.fst) {e : Nat × Nat} (he : e ∈ reduced) :
    entries (kernelVector reduced free) e.1 = entries e.2 free := by
  have hne : e.1 ≠ free := fun hp => hfree (hp ▸ List.mem_map_of_mem he)
  rw [h.kernelVector_apply, if_neg hne, zero_add, Finset.sum_eq_single e]
  · exact if_pos rfl
  · exact fun e' he' hne' => if_neg fun hp => hne' (h.pivot_inj (List.mem_toFinset.mp he') he hp)
  · exact fun hnot => absurd (List.mem_toFinset.mpr he) hnot

theorem kernelVector_other (free : Nat) {c : Nat} (hc : c ∉ reduced.map Prod.fst) :
    entries (kernelVector reduced free) c = if c = free then 1 else 0 := by
  rw [h.kernelVector_apply, Finset.sum_eq_zero, add_zero]
  exact fun e he => if_neg fun hp : e.1 = c => hc (hp ▸ List.mem_map_of_mem (List.mem_toFinset.mp he))

theorem not_pivot {c : Nat} (hc : cols ≤ c) : c ∉ reduced.map Prod.fst := by
  intro hmem
  obtain ⟨e, he, rfl⟩ := List.mem_map.mp hmem
  exact absurd (h.before e he) (Nat.not_lt_of_le hc)

theorem kernelVector_within {free : Nat} (hlt : free < cols) : entries (kernelVector reduced free) ∈ within cols := by
  intro c hc
  rw [h.kernelVector_other free (h.not_pivot hc), if_neg (by omega)]

/-- Of the pivots a reduced row meets its own only. -/
theorem against_row {e : Nat × Nat} (he : e ∈ reduced) (x : Entries) :
    against cols (entries e.2) x = x e.1 + ∑ c ∈ freeColumns cols reduced, x c * entries e.2 c := by
  rw [against_apply, ← Finset.sum_filter_add_sum_filter_not _ (· ∈ reduced.map Prod.fst)]
  congr 1
  · rw [Finset.sum_eq_single e.1]
    · rw [h.own e he, one_mul]
    · intro c hc hne
      obtain ⟨e', he', rfl⟩ := List.mem_map.mp (Finset.mem_filter.mp hc).2
      rw [h.others e he e' he' hne, zero_mul]
    · intro hnot
      exact absurd (Finset.mem_filter.mpr ⟨Finset.mem_range.mpr (h.before e he), List.mem_map_of_mem he⟩) hnot
  · exact Finset.sum_congr rfl fun c _ => mul_comm _ _

theorem against_kernelVector {free : Nat} (hfree : free ∈ freeColumns cols reduced) :
    ∀ row ∈ reduced.map Prod.snd, against cols (entries row) (entries (kernelVector reduced free)) = 0 := by
  intro row hrow
  obtain ⟨e, he, rfl⟩ := List.mem_map.mp hrow
  rw [h.against_row he, h.kernelVector_pivot (mem_freeColumns.mp hfree).2 he, Finset.sum_eq_single free]
  · rw [h.kernelVector_other free (mem_freeColumns.mp hfree).2, if_pos rfl, one_mul, CharTwo.add_self_eq_zero]
  · intro c hc hne
    rw [h.kernelVector_other free (mem_freeColumns.mp hc).2, if_neg hne, zero_mul]
  · exact fun hnot => absurd hfree hnot

/-- A vector that is orthogonal to the rows adds up the kernel vectors of the free columns
    in which it has a one. -/
theorem eq_sum_kernel {x : Entries} (hx : x ∈ within cols)
    (hrows : ∀ row ∈ reduced.map Prod.snd, against cols (entries row) x = 0) :
    x = ∑ f ∈ freeColumns cols reduced, x f • entries (kernelVector reduced f) := by
  funext c
  rw [Finset.sum_apply]
  simp only [Pi.smul_apply, smul_eq_mul]
  by_cases hpivot : c ∈ reduced.map Prod.fst
  · obtain ⟨e, he, rfl⟩ := List.mem_map.mp hpivot
    have hrow := hrows e.2 (List.mem_map_of_mem he)
    rw [h.against_row he, CharTwo.add_eq_zero] at hrow
    rw [hrow]
    refine Finset.sum_congr rfl fun f hf => ?_
    rw [h.kernelVector_pivot (mem_freeColumns.mp hf).2 he]
  · have hother : ∀ f, entries (kernelVector reduced f) c = if c = f then 1 else 0 := fun f =>
      h.kernelVector_other f hpivot
    simp only [hother, mul_ite, mul_one, mul_zero, Finset.sum_ite_eq]
    split
    · rfl
    · rename_i hnot
      exact hx c (Nat.le_of_not_lt fun hlt => hnot (mem_freeColumns.mpr ⟨hlt, hpivot⟩))

end Echelon

variable {m : BitMatrix}

theorem kernel_inRange (m : BitMatrix) : m.kernel.InRange := by
  intro v hv
  obtain ⟨c, hc, rfl⟩ := mem_kernel_rows.mp hv
  exact entries_within.mp ((echelon_echelon m).kernelVector_within (mem_freeColumns.mp hc).1)

/-- The kernel's rows span the vectors that every row is orthogonal to. -/
theorem rowSpace_kernel (h : m.InRange) : rowSpace m.kernel.rows = kernelSpace m := by
  have he := echelon_echelon m
  have hsame : ∀ x, (∀ row ∈ m.echelon.map Prod.snd, against m.cols (entries row) x = 0) ↔
      ∀ row ∈ m.rows, against m.cols (entries row) x = 0 := by
    intro x
    rw [against_rowSpace, against_rowSpace, rowSpace_echelon h]
  refine le_antisymm (rowSpace_le.mpr fun v hv => ?_) fun x hx => ?_
  · obtain ⟨c, hc, rfl⟩ := mem_kernel_rows.mp hv
    exact ⟨he.kernelVector_within (mem_freeColumns.mp hc).1, (hsame _).mp (he.against_kernelVector hc)⟩
  · rw [he.eq_sum_kernel hx.1 ((hsame x).mpr hx.2)]
    exact Submodule.sum_mem _ fun f hf =>
      Submodule.smul_mem _ _ (entries_mem (mem_kernel_rows.mpr ⟨f, hf, rfl⟩))

/-! ## The search -/

theorem shortest?_mem {lists : List (List Nat)} {s : List Nat} (h : shortest? lists = some s) : s ∈ lists := by
  induction lists generalizing s with
  | nil => cases h
  | cons first rest ih =>
    rw [shortest?] at h
    cases hrest : shortest? rest with
    | none =>
      rw [hrest] at h
      cases h
      exact List.mem_cons_self
    | some t =>
      simp only [hrest] at h
      split at h
      · cases h
        exact List.mem_cons_of_mem _ (ih hrest)
      · cases h
        exact List.mem_cons_self

theorem shortest?_none {lists : List (List Nat)} (h : shortest? lists = none) : lists = [] := by
  cases lists with
  | nil => rfl
  | cons first rest =>
    rw [shortest?] at h
    cases hrest : shortest? rest with
    | none =>
      rw [hrest] at h
      cases h
    | some t =>
      simp only [hrest] at h
      split at h <;> cases h

variable {x z : BitMatrix}

theorem residue_echelon_eq_zero_iff (hz : z.InRange) {v : Nat} :
    residue z.echelon v = 0 ↔ entries v ∈ rowSpace z.rows := by
  rw [(echelon_echelon z).residue_eq_zero_iff, rowSpace_echelon hz]

/-- The search is for the first of the shortest among the supports of the candidates. -/
theorem minWeightLogical?_eq (hcols : x.cols = z.cols) : minWeightLogical? x z =
    some (shortest? ((x.kernel.rows.filter fun v => residue z.echelon v ≠ 0).map (support x.cols))) := by
  have hcandidates : x.kernel.supports.mapM (fun s => (vector? z.cols s).map fun v => (s, residue z.echelon v)) =
      some (x.kernel.rows.map fun v => (support x.cols v, residue z.echelon v)) := by
    have hsupports : x.kernel.supports = x.kernel.rows.map (support x.cols) := rfl
    rw [hsupports, mapM_some (g := fun s => (s, residue z.echelon (vector s)))]
    · rw [List.map_map]
      congr 1
      refine List.map_congr_left fun v hv => ?_
      have hvector : vector (support x.cols v) = v := vector_support (kernel_inRange x v hv)
      rw [Function.comp_apply, hvector]
    · intro s hs
      obtain ⟨v, -, rfl⟩ := List.mem_map.mp hs
      have hfits : fits z.cols (support x.cols v) = true := fits_of_lt fun c hc => hcols ▸ (mem_support.mp hc).1
      rw [vector?, if_pos hfits, Option.map_some]
  rw [minWeightLogical?, hcandidates, Option.bind_eq_bind, Option.bind_some, List.filter_map, List.map_map]
  rfl

/-- Either the kernel of `x` holds sums of rows of `z` only, and nothing is found; or a kernel
    vector is found that is none. -/
theorem minWeightLogical?_cases (hx : x.InRange) (hz : z.InRange) (hcols : x.cols = z.cols) :
    (minWeightLogical? x z = some none ∧ kernelSpace x ≤ rowSpace z.rows) ∨
      ∃ v, minWeightLogical? x z = some (some (support x.cols v)) ∧ v < 2 ^ x.cols ∧ entries v ∈ kernelSpace x ∧
        entries v ∉ rowSpace z.rows := by
  rw [minWeightLogical?_eq hcols]
  cases hfound : shortest? ((x.kernel.rows.filter fun v => residue z.echelon v ≠ 0).map (support x.cols)) with
  | none =>
    refine .inl ⟨rfl, ?_⟩
    rw [← rowSpace_kernel hx]
    refine rowSpace_le.mpr fun v hv => (residue_echelon_eq_zero_iff hz).mp ?_
    have hnone := List.map_eq_nil_iff.mp (shortest?_none hfound)
    simpa using List.filter_eq_nil_iff.mp hnone v hv
  | some s =>
    obtain ⟨v, hcandidate, rfl⟩ := List.mem_map.mp (shortest?_mem hfound)
    obtain ⟨hv, hr⟩ := List.mem_filter.mp hcandidate
    refine .inr ⟨v, rfl, kernel_inRange x v hv, ?_, fun hsum => ?_⟩
    · rw [← rowSpace_kernel hx]
      exact entries_mem hv
    · exact of_decide_eq_true hr ((residue_echelon_eq_zero_iff hz).mpr hsum)

end BitMatrix

end QuantumMemory

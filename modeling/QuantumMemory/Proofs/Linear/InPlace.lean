/-
  QuantumMemory.Proofs.Linear.InPlace — elimination in place, on rows of any kind.

  Elimination looks at bits, exchanges rows and adds them, and does nothing else to them. So a
  map between two kinds of rows that keeps bits and sums carries it along step by step
  (`Carries`, `Elimination.run_map`), and what holds of all rows and of sums holds of all
  rows afterwards (`Elimination.forall_run`). The same is said of vectors, of flips and of the kernel.

  The pivots are columns that were asked for (`Elimination.mem_pivots_run`), so bits beyond the
  columns have no say in it.
-/

import Mathlib.Data.List.Basic
import QuantumMemory.Code.PackedMatrix

namespace QuantumMemory

namespace BitRow

/-! ## Rows of any type -/

section Rows

variable {ρ ρ' : Type} {f : ρ → ρ'} {rows : List ρ} {P : ρ → Prop}

theorem swapRows_map (f : ρ → ρ') (rows : List ρ) (i j : Nat) :
    swapRows (rows.map f) i j = (swapRows rows i j).map f := by
  unfold swapRows
  rw [List.getElem?_map, List.getElem?_map]
  cases rows[i]? with
  | none => rfl
  | some a =>
    cases rows[j]? with
    | none => rfl
    | some b => simp only [Option.map_some, List.map_set]

theorem modify_map {g : ρ → ρ} {g' : ρ' → ρ'} (h : ∀ v, f (g v) = g' (f v)) (rows : List ρ) (i : Nat) :
    (rows.map f).modify i g' = (rows.modify i g).map f := by
  refine List.ext_getElem? fun k => ?_
  rw [List.getElem?_map, List.getElem?_modify, List.getElem?_modify, List.getElem?_map]
  cases rows[k]? with
  | none => rfl
  | some v =>
    by_cases hk : i = k
    · simp [hk, h]
    · simp [hk]

theorem forall_swapRows (h : ∀ v ∈ rows, P v) (i j : Nat) : ∀ v ∈ swapRows rows i j, P v := by
  unfold swapRows
  split
  · rename_i a b ha hb
    intro v hv
    rcases List.mem_or_eq_of_mem_set hv with hv | rfl
    · rcases List.mem_or_eq_of_mem_set hv with hv | rfl
      · exact h v hv
      · exact h v (List.mem_of_getElem? hb)
    · exact h v (List.mem_of_getElem? ha)
  · exact h

theorem forall_modify {g : ρ → ρ} (hg : ∀ v, P v → P (g v)) (h : ∀ v ∈ rows, P v) (i : Nat) :
    ∀ v ∈ rows.modify i g, P v := by
  intro v hv
  obtain ⟨k, hk⟩ := List.mem_iff_getElem?.mp hv
  rw [List.getElem?_modify] at hk
  obtain ⟨w, hw, rfl⟩ := Option.map_eq_some_iff.mp hk
  have hold := h w (List.mem_of_getElem? hw)
  split
  · exact hg w hold
  · exact hold

namespace Elimination

/-- The same pivots, and rows of the other kind. -/
def map (f : ρ → ρ') (e : Elimination ρ) : Elimination ρ' := ⟨e.rows.map f, e.pivots⟩

theorem reduced_map (f : ρ → ρ') (e : Elimination ρ) : (e.map f).reduced = e.reduced.map f := List.map_take.symm

theorem forall_reduced {e : Elimination ρ} (h : ∀ v ∈ e.rows, P v) : ∀ v ∈ e.reduced, P v :=
  fun v hv => h v (List.mem_of_mem_take hv)

end Elimination

end Rows

variable {ρ ρ' : Type} [BitRow ρ] [BitRow ρ']

/-- The map keeps sums, and below a limit bits and their changes. -/
structure Carries (limit : Nat) (f : ρ → ρ') : Prop where
  zero : f zero = zero
  bit : ∀ v c, c < limit → bit (f v) c = bit v c
  flip : ∀ v c, c < limit → f (flip v c) = flip (f v) c
  add : ∀ v w, f (add v w) = add (f v) (f w)

variable {limit : Nat} {f : ρ → ρ'} {rows : List ρ} {c : Nat}

/-- The vector with its bits changed once for every index that is listed. -/
def vector (support : List Nat) : ρ := support.foldl flip zero

theorem vector?_eq (support : List Nat) :
    (vector? support : Option ρ) = if fits ρ support then some (vector support) else none := by
  have hfold : ∀ v : ρ, support.foldlM (fun v c => if c < capacity ρ then some (flip v c) else none) v =
      if fits ρ support then some (support.foldl flip v) else none := by
    induction support with
    | nil => exact fun _ => rfl
    | cons c rest ih =>
      intro v
      rw [List.foldlM_cons, fits, List.all_cons]
      by_cases hc : c < capacity ρ
      · rw [if_pos hc, decide_eq_true hc, Bool.true_and]
        exact ih _
      · rw [if_neg hc, decide_eq_false hc, Bool.false_and]
        rfl
  exact hfold zero

/-! ## Steps -/

theorem bitAt_map (hf : Carries limit f) (hc : c < limit) (i : Nat) : bitAt (rows.map f) i c = bitAt rows i c := by
  rw [bitAt, bitAt, List.getElem?_map, Option.any_map]
  cases rows[i]? with
  | none => rfl
  | some row => exact hf.bit row c hc

theorem addRow_map (hf : Carries limit f) (rows : List ρ) (target source : Nat) :
    addRow (rows.map f) target source = (addRow rows target source).map f := by
  unfold addRow
  rw [List.getElem?_map]
  cases rows[source]? with
  | none => rfl
  | some row => exact modify_map (fun v => hf.add v row) rows target

theorem clearColumn_map (hf : Carries limit f) (hc : c < limit) (r : Nat) (rows : List ρ) :
    clearColumn c r (rows.map f) = (clearColumn c r rows).map f := by
  unfold clearColumn
  rw [List.length_map]
  generalize List.range rows.length = indices
  induction indices generalizing rows with
  | nil => rfl
  | cons i rest ih =>
    rw [List.foldl_cons, List.foldl_cons, bitAt_map hf hc]
    split
    · rw [addRow_map hf]
      exact ih _
    · exact ih _

theorem vector_map (hf : Carries limit f) {support : List Nat} (h : ∀ c ∈ support, c < limit) :
    f (vector support) = vector support := by
  have hfold : ∀ v, f (support.foldl flip v) = support.foldl flip (f v) := by
    induction support with
    | nil => exact fun _ => rfl
    | cons c rest ih =>
      intro v
      obtain ⟨hc, hrest⟩ := List.forall_mem_cons.mp h
      rw [List.foldl_cons, List.foldl_cons, ih hrest, hf.flip v c hc]
  rw [vector, hfold, hf.zero]
  rfl

theorem forall_vector {P : ρ → Prop} {cols : Nat} (hzero : P zero) (hflip : ∀ v c, c < cols → P v → P (flip v c))
    {support : List Nat} (h : ∀ c ∈ support, c < cols) : P (vector support : ρ) := by
  have hfold : ∀ v, P v → P (support.foldl flip v) := by
    induction support with
    | nil => exact fun _ hv => hv
    | cons c rest ih =>
      obtain ⟨hc, hrest⟩ := List.forall_mem_cons.mp h
      exact fun v hv => ih hrest _ (hflip v c hc hv)
  exact hfold zero hzero

/-! ## What sums keep -/

section Forall

variable {P : ρ → Prop} (hadd : ∀ v w, P v → P w → P (add v w))

include hadd

theorem forall_addRow (h : ∀ v ∈ rows, P v) (target source : Nat) : ∀ v ∈ addRow rows target source, P v := by
  unfold addRow
  split
  · rename_i row hrow
    exact forall_modify (fun v hv => hadd v row hv (h row (List.mem_of_getElem? hrow))) h target
  · exact h

theorem forall_clearColumn (h : ∀ v ∈ rows, P v) (c r : Nat) : ∀ v ∈ clearColumn c r rows, P v := by
  unfold clearColumn
  generalize List.range rows.length = indices
  induction indices generalizing rows with
  | nil => exact h
  | cons i rest ih =>
    rw [List.foldl_cons]
    split
    · exact ih (forall_addRow hadd h i r)
    · exact ih h

end Forall

namespace Elimination

variable {e : Elimination ρ} {columns : List Nat}

/-! ## The run -/

theorem pivotRow?_map (hf : Carries limit f) (hc : c < limit) : (e.map f).pivotRow? c = e.pivotRow? c := by
  unfold pivotRow? map
  rw [List.length_map]
  exact congrArg (List.find? · _) (funext fun i => bitAt_map hf hc i)

theorem place_map (hf : Carries limit f) (hc : c < limit) (i : Nat) : (e.map f).place c i = (e.place c i).map f := by
  unfold place map
  rw [swapRows_map, clearColumn_map hf hc]

/-- A map that keeps bits and sums carries the elimination along. -/
theorem run_map (hf : Carries limit f) (h : ∀ c ∈ columns, c < limit) (e : Elimination ρ) :
    run columns (e.map f) = (run columns e).map f := by
  induction columns generalizing e with
  | nil => rfl
  | cons c rest ih =>
    obtain ⟨hc, hrest⟩ := List.forall_mem_cons.mp h
    rw [run, run, pivotRow?_map hf hc, show (e.map f).rows.length = e.rows.length from List.length_map f,
      show (e.map f).pivots = e.pivots from rfl]
    by_cases hdone : e.pivots.length = e.rows.length
    · rw [if_pos hdone, if_pos hdone]
    · rw [if_neg hdone, if_neg hdone]
      cases e.pivotRow? c with
      | none => exact ih hrest e
      | some i =>
        show run rest ((e.map f).place c i) = (run rest (e.place c i)).map f
        rw [place_map hf hc]
        exact ih hrest _

theorem mem_pivots_run (h : c ∈ (run columns e).pivots) : c ∈ e.pivots ∨ c ∈ columns := by
  induction columns generalizing e with
  | nil => exact .inl h
  | cons k rest ih =>
    rw [run] at h
    split at h
    · exact .inl h
    · split at h
      · exact (ih h).imp_right (List.mem_cons_of_mem k)
      · rcases ih h with h | h
        · rcases List.mem_append.mp h with h | h
          · exact .inl h
          · exact .inr (List.mem_singleton.mp h ▸ List.mem_cons_self)
        · exact .inr (List.mem_cons_of_mem k h)

/-- What holds of all rows, and with two rows of their sum, holds of all rows afterwards. -/
theorem forall_run {P : ρ → Prop} (hadd : ∀ v w, P v → P w → P (add v w)) (h : ∀ v ∈ e.rows, P v) :
    ∀ v ∈ (run columns e).rows, P v := by
  induction columns generalizing e with
  | nil => exact h
  | cons c rest ih =>
    rw [run]
    split
    · exact h
    · split
      · exact ih h
      · exact ih (forall_clearColumn hadd (forall_swapRows h _ _) _ _)

/-! ## The kernel -/

/-- The bits listed with a mark that is kept are changed, one after the other. -/
def flipEach (keep : Nat → Bool) (marked : List (Nat × Nat)) (v : ρ) : ρ :=
  marked.foldl (fun v (c, i) => if keep i then flip v c else v) v

theorem flipEach_map (hf : Carries limit f) (keep : Nat → Bool) {marked : List (Nat × Nat)}
    (h : ∀ p ∈ marked, p.1 < limit) (v : ρ) : flipEach keep marked (f v) = f (flipEach keep marked v) := by
  induction marked generalizing v with
  | nil => rfl
  | cons p rest ih =>
    obtain ⟨hp, hrest⟩ := List.forall_mem_cons.mp h
    simp only [flipEach, List.foldl_cons] at ih ⊢
    split
    · rw [← hf.flip v p.1 hp]
      exact ih hrest _
    · exact ih hrest _

theorem forall_flipEach {P : ρ → Prop} {cols : Nat} (hflip : ∀ v c, c < cols → P v → P (flip v c)) (keep : Nat → Bool)
    {marked : List (Nat × Nat)} (h : ∀ p ∈ marked, p.1 < cols) {v : ρ} (hv : P v) : P (flipEach keep marked v) := by
  induction marked generalizing v with
  | nil => exact hv
  | cons p rest ih =>
    obtain ⟨hp, hrest⟩ := List.forall_mem_cons.mp h
    simp only [flipEach, List.foldl_cons] at ih ⊢
    split
    · exact ih hrest (hflip v p.1 hp hv)
    · exact ih hrest hv

theorem kernelVector_eq (e : Elimination ρ) (free : Nat) :
    e.kernelVector free = flipEach (bitAt e.reduced · free) e.pivots.zipIdx (flip zero free) := rfl

theorem kernelVector_map (hf : Carries limit f) (hpivots : ∀ p ∈ e.pivots, p < limit) (hc : c < limit) :
    (e.map f).kernelVector c = f (e.kernelVector c) := by
  have hkeep : (bitAt (e.map f).reduced · c) = (bitAt e.reduced · c) := funext fun i => by
    rw [reduced_map, bitAt_map hf hc]
  rw [kernelVector_eq, kernelVector_eq, hkeep, ← hf.zero, ← hf.flip _ c hc]
  exact flipEach_map hf _ (fun p hp => hpivots p.1 (List.fst_mem_of_mem_zipIdx hp)) _

theorem kernel_map (hf : Carries limit f) (hpivots : ∀ p ∈ e.pivots, p < limit) {cols : Nat} (hcols : cols ≤ limit) :
    (e.map f).kernel cols = (e.kernel cols).map f := by
  unfold kernel
  rw [List.map_map]
  refine List.map_congr_left fun c hc => kernelVector_map hf hpivots ?_
  exact Nat.lt_of_lt_of_le (List.mem_range.mp (List.mem_filter.mp hc).1) hcols

theorem forall_kernel {P : ρ → Prop} {cols : Nat} (hzero : P zero) (hflip : ∀ v c, c < cols → P v → P (flip v c))
    (hpivots : ∀ p ∈ e.pivots, p < cols) : ∀ v ∈ e.kernel cols, P v := by
  intro v hv
  obtain ⟨c, hc, rfl⟩ := List.mem_map.mp hv
  rw [kernelVector_eq]
  exact forall_flipEach hflip _ (fun p hp => hpivots p.1 (List.fst_mem_of_mem_zipIdx hp))
    (hflip _ c (List.mem_range.mp (List.mem_filter.mp hc).1) hzero)

end Elimination

end BitRow

end QuantumMemory

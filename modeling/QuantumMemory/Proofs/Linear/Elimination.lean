/-
  QuantumMemory.Proofs.Linear.Elimination — what elimination makes of the rows.

  The reduced rows are in reduced echelon form (`Echelon`): pivots ascend, a row starts at its
  own pivot, and no other reduced row has a one there. Elimination takes the columns in turn.
  Before a column the rows left have no ones in those done (`Sweep`), which one column
  keeps (`Sweep.skip`, `Sweep.pivot`) as it keeps the space of all rows (`rowSpace_pivot`). After
  the last column nothing is left, so the reduced rows span what the rows did
  (`rowSpace_echelon`).
-/

import QuantumMemory.Proofs.Linear.Rows

namespace QuantumMemory

namespace BitMatrix

/-! ## Pivots -/

theorem exchange?_some {c first pivot : Nat} {rows rest : List Nat} (h : exchange? c first rows = some (pivot, rest)) :
    pivot.testBit c = true ∧ (first :: rows).Perm (pivot :: rest) := by
  induction rows generalizing rest with
  | nil => cases h
  | cons row others ih =>
    rw [exchange?] at h
    by_cases hbit : row.testBit c = true
    · rw [if_pos hbit] at h
      cases h
      exact ⟨hbit, .swap _ _ _⟩
    · rw [if_neg hbit] at h
      obtain ⟨⟨p, left⟩, hex, he⟩ := Option.map_eq_some_iff.mp h
      cases he
      obtain ⟨hp, hperm⟩ := ih hex
      refine ⟨hp, (List.Perm.swap _ _ _).trans ?_⟩
      exact (hperm.cons row).trans (.swap _ _ _)

theorem exchange?_none {c first : Nat} {rows : List Nat} (h : exchange? c first rows = none) :
    ∀ row ∈ rows, row.testBit c = false := by
  induction rows with
  | nil => exact fun row hrow => absurd hrow List.not_mem_nil
  | cons row others ih =>
    rw [exchange?] at h
    by_cases hbit : row.testBit c = true
    · rw [if_pos hbit] at h
      cases h
    · rw [if_neg hbit] at h
      exact List.forall_mem_cons.mpr ⟨by simpa using hbit, ih (Option.map_eq_none_iff.mp h)⟩

theorem pivot?_some {c pivot : Nat} {rows rest : List Nat} (h : pivot? c rows = some (pivot, rest)) :
    pivot.testBit c = true ∧ rows.Perm (pivot :: rest) := by
  cases rows with
  | nil => cases h
  | cons first others =>
    rw [pivot?] at h
    by_cases hbit : first.testBit c = true
    · rw [if_pos hbit] at h
      cases h
      exact ⟨hbit, .refl _⟩
    · rw [if_neg hbit] at h
      exact exchange?_some h

theorem pivot?_none {c : Nat} {rows : List Nat} (h : pivot? c rows = none) : ∀ row ∈ rows, row.testBit c = false := by
  cases rows with
  | nil => exact fun row hrow => absurd hrow List.not_mem_nil
  | cons first others =>
    rw [pivot?] at h
    by_cases hbit : first.testBit c = true
    · rw [if_pos hbit] at h
      cases h
    · rw [if_neg hbit] at h
      exact List.forall_mem_cons.mpr ⟨by simpa using hbit, exchange?_none h⟩

/-- The reduced rows cleared in column `c` with the help of a pivot, which becomes the last. -/
def withPivot (c pivot : Nat) (reduced : List (Nat × Nat)) : List (Nat × Nat) :=
  reduced.map (fun (p, row) => (p, clear c pivot row)) ++ [(c, pivot)]

theorem mem_withPivot {c pivot : Nat} {reduced : List (Nat × Nat)} {e : Nat × Nat} :
    e ∈ withPivot c pivot reduced ↔ (∃ e' ∈ reduced, e = (e'.1, clear c pivot e'.2)) ∨ e = (c, pivot) := by
  simp only [withPivot, List.mem_append, List.mem_map, List.mem_singleton, eq_comm]

/-! ## Reduced echelon form -/

/-- Rows with their pivots, all before column `bound`, in reduced echelon form. -/
structure Echelon (bound : Nat) (reduced : List (Nat × Nat)) : Prop where
  before : ∀ e ∈ reduced, e.1 < bound
  ascend : (reduced.map Prod.fst).Pairwise (· < ·)
  start : ∀ e ∈ reduced, ∀ c < e.1, entries e.2 c = 0
  own : ∀ e ∈ reduced, entries e.2 e.1 = 1
  others : ∀ e ∈ reduced, ∀ e' ∈ reduced, e'.1 ≠ e.1 → entries e.2 e'.1 = 0

namespace Echelon

variable {bound : Nat} {reduced : List (Nat × Nat)}

theorem nil (bound : Nat) : Echelon bound [] where
  before := fun _ h => absurd h List.not_mem_nil
  ascend := .nil
  start := fun _ h => absurd h List.not_mem_nil
  own := fun _ h => absurd h List.not_mem_nil
  others := fun _ h => absurd h List.not_mem_nil

theorem mono (h : Echelon bound reduced) {bound' : Nat} (hle : bound ≤ bound') : Echelon bound' reduced :=
  { h with before := fun e he => (h.before e he).trans_le hle }

theorem sublist (h : Echelon bound reduced) {part : List (Nat × Nat)} (hs : part.Sublist reduced) : Echelon bound part where
  before := fun e he => h.before e (hs.subset he)
  ascend := h.ascend.sublist (hs.map _)
  start := fun e he => h.start e (hs.subset he)
  own := fun e he => h.own e (hs.subset he)
  others := fun e he e' he' => h.others e (hs.subset he) e' (hs.subset he')

theorem nodup (h : Echelon bound reduced) : (reduced.map Prod.fst).Nodup := h.ascend.imp Nat.ne_of_lt

/-- A row that starts at column `bound` becomes the next, and the rest are cleared there. -/
theorem append (h : Echelon bound reduced) {pivot : Nat} (hlow : ∀ c < bound, entries pivot c = 0)
    (hone : entries pivot bound = 1) :
    Echelon (bound + 1) (withPivot bound pivot reduced) := by
  have hcleared : ∀ row c, c < bound → entries (clear bound pivot row) c = entries row c := by
    intro row c hc
    rw [entries_clear, Pi.add_apply, Pi.smul_apply, hlow c hc, smul_zero, add_zero]
  have hzero : ∀ row, entries (clear bound pivot row) bound = 0 := by
    intro row
    rw [entries_clear, Pi.add_apply, Pi.smul_apply, hone, smul_eq_mul, mul_one, CharTwo.add_self_eq_zero]
  refine ⟨fun e he => ?_, ?_, fun e he c hc => ?_, fun e he => ?_, fun e he e' he' hne => ?_⟩
  · rcases mem_withPivot.mp he with ⟨r, hr, rfl⟩ | rfl
    · exact Nat.lt_succ_of_lt (h.before r hr)
    · exact Nat.lt_succ_self bound
  · rw [withPivot, List.map_append, List.map_map]
    refine List.pairwise_append.mpr ⟨h.ascend, List.pairwise_singleton _ _, fun p hp p' hp' => ?_⟩
    obtain ⟨e, he, rfl⟩ := List.mem_map.mp hp
    rw [List.mem_singleton.mp hp']
    exact h.before e he
  · rcases mem_withPivot.mp he with ⟨r, hr, rfl⟩ | rfl
    · rw [hcleared r.2 c (hc.trans (h.before r hr))]
      exact h.start r hr c hc
    · exact hlow c hc
  · rcases mem_withPivot.mp he with ⟨r, hr, rfl⟩ | rfl
    · rw [hcleared r.2 r.1 (h.before r hr)]
      exact h.own r hr
    · exact hone
  · rcases mem_withPivot.mp he with ⟨r, hr, rfl⟩ | rfl
    · rcases mem_withPivot.mp he' with ⟨r', hr', rfl⟩ | rfl
      · rw [hcleared r.2 r'.1 (h.before r' hr')]
        exact h.others r hr r' hr' hne
      · exact hzero r.2
    · rcases mem_withPivot.mp he' with ⟨r', hr', rfl⟩ | rfl
      · exact hlow r'.1 (h.before r' hr')
      · exact absurd rfl hne

end Echelon

/-! ## The sweep -/

/-- Elimination before column `c`: what is reduced, and the rows left. -/
structure Sweep (c : Nat) (reduced : List (Nat × Nat)) (rows : List Nat) : Prop where
  echelon : Echelon c reduced
  left : ∀ row ∈ rows, ∀ k < c, entries row k = 0

namespace Sweep

variable {c : Nat} {reduced : List (Nat × Nat)} {rows : List Nat}

theorem start (rows : List Nat) : Sweep 0 [] rows := ⟨.nil 0, fun _ _ k hk => absurd hk (Nat.not_lt_zero k)⟩

theorem skip (h : Sweep c reduced rows) (hp : pivot? c rows = none) : Sweep (c + 1) reduced rows := by
  refine ⟨h.echelon.mono (Nat.le_succ c), fun row hrow k hk => ?_⟩
  rcases Nat.lt_succ_iff_lt_or_eq.mp hk with hk | rfl
  · exact h.left row hrow k hk
  · exact entries_eq_zero.mpr (pivot?_none hp row hrow)

theorem pivot (h : Sweep c reduced rows) {pivot : Nat} {rest : List Nat} (hp : pivot? c rows = some (pivot, rest)) :
    Sweep (c + 1) (withPivot c pivot reduced) (rest.map (clear c pivot)) := by
  obtain ⟨hbit, hperm⟩ := pivot?_some hp
  have hone := entries_eq_one.mpr hbit
  have hlow := h.left pivot (hperm.mem_iff.mpr List.mem_cons_self)
  refine ⟨h.echelon.append hlow hone, fun row hrow k hk => ?_⟩
  obtain ⟨row, hmem, rfl⟩ := List.mem_map.mp hrow
  have hrow := h.left row (hperm.mem_iff.mpr (List.mem_cons_of_mem _ hmem))
  rw [entries_clear, Pi.add_apply, Pi.smul_apply, smul_eq_mul]
  rcases Nat.lt_succ_iff_lt_or_eq.mp hk with hk | rfl
  · rw [hrow k hk, hlow k hk, mul_zero, add_zero]
  · rw [hone, mul_one, CharTwo.add_self_eq_zero]

end Sweep

/-- Clearing rows with one of them leaves their space as it is. -/
theorem rowSpace_pivot {c pivot : Nat} {reduced : List (Nat × Nat)} {rows rest : List Nat} (hperm : rows.Perm (pivot :: rest)) :
    rowSpace ((withPivot c pivot reduced).map Prod.snd ++ rest.map (clear c pivot)) =
      rowSpace (reduced.map Prod.snd ++ rows) := by
  set after := (withPivot c pivot reduced).map Prod.snd ++ rest.map (clear c pivot) with hafter
  have hmem : ∀ row, row ∈ after ↔
      (∃ row' ∈ reduced.map Prod.snd ++ rest, row = clear c pivot row') ∨ row = pivot := by
    intro row
    simp only [hafter, withPivot, List.map_append, List.map_map, List.map_cons, List.map_nil, List.mem_append,
      List.mem_map, List.mem_singleton, Function.comp_apply]
    aesop
  have hpivot : entries pivot ∈ rowSpace after := entries_mem ((hmem pivot).mpr (.inr rfl))
  have hbefore : ∀ row, row ∈ reduced.map Prod.snd ++ rows ↔ row ∈ reduced.map Prod.snd ++ rest ∨ row = pivot := by
    intro row
    rw [List.mem_append, List.mem_append, hperm.mem_iff, List.mem_cons]
    tauto
  have hpivot' : entries pivot ∈ rowSpace (reduced.map Prod.snd ++ rows) :=
    entries_mem ((hbefore pivot).mpr (.inr rfl))
  refine le_antisymm (rowSpace_le.mpr fun row hrow => ?_) (rowSpace_le.mpr fun row hrow => ?_)
  · rcases (hmem row).mp hrow with ⟨row', hrow', rfl⟩ | rfl
    · rw [entries_clear]
      exact Submodule.add_mem _ (entries_mem ((hbefore row').mpr (.inl hrow'))) (Submodule.smul_mem _ _ hpivot')
    · exact hpivot'
  · rcases (hbefore row).mp hrow with hrow | rfl
    · have hback : entries row = entries (clear c pivot row) - entries row c • entries pivot := by
        rw [entries_clear, add_sub_cancel_right]
      rw [hback]
      exact Submodule.sub_mem _ (entries_mem ((hmem _).mpr (.inl ⟨row, hrow, rfl⟩))) (Submodule.smul_mem _ _ hpivot)
    · exact hpivot

theorem reduce_sweep {c n : Nat} {reduced : List (Nat × Nat)} {rows : List Nat} (h : Sweep c reduced rows) :
    ∃ rest, Sweep (c + n) (reduce (List.range' c n) reduced rows) rest ∧
      rowSpace ((reduce (List.range' c n) reduced rows).map Prod.snd ++ rest) = rowSpace (reduced.map Prod.snd ++ rows) := by
  induction n generalizing c reduced rows with
  | zero => exact ⟨rows, h, rfl⟩
  | succ n ih =>
    have hnext : c + (n + 1) = c + 1 + n := by omega
    rw [List.range'_succ, reduce, hnext]
    cases hp : pivot? c rows with
    | none => exact ih (h.skip hp)
    | some found =>
      obtain ⟨pivot, rest⟩ := found
      obtain ⟨left, hsweep, hspace⟩ := ih (h.pivot hp)
      exact ⟨left, hsweep, hspace.trans (rowSpace_pivot (pivot?_some hp).2)⟩

variable {m : BitMatrix}

theorem echelon_sweep (m : BitMatrix) :
    ∃ rest, Sweep m.cols m.echelon rest ∧ rowSpace (m.echelon.map Prod.snd ++ rest) = rowSpace m.rows := by
  have h := reduce_sweep (n := m.cols) (Sweep.start m.rows)
  rwa [Nat.zero_add, ← List.range_eq_range'] at h

theorem echelon_echelon (m : BitMatrix) : Echelon m.cols m.echelon := by
  obtain ⟨rest, hsweep, -⟩ := echelon_sweep m
  exact hsweep.echelon

/-- All that is stored is within the columns. -/
def InRange (m : BitMatrix) : Prop := ∀ row ∈ m.rows, row < 2 ^ m.cols

theorem InRange.rowSpace_le (h : m.InRange) : rowSpace m.rows ≤ within m.cols :=
  BitMatrix.rowSpace_le.mpr fun row hrow => entries_within.mpr (h row hrow)

/-- Elimination keeps the space of the rows. -/
theorem rowSpace_echelon (h : m.InRange) : rowSpace (m.echelon.map Prod.snd) = rowSpace m.rows := by
  obtain ⟨rest, hsweep, hspace⟩ := echelon_sweep m
  have hrest : ∀ row ∈ rest, entries row = 0 := by
    intro row hrow
    funext c
    rcases Nat.lt_or_ge c m.cols with hc | hc
    · exact hsweep.left row hrow c hc
    · have hmem : entries row ∈ rowSpace m.rows := hspace ▸ entries_mem (List.mem_append_right _ hrow)
      exact h.rowSpace_le hmem c hc
  rw [← hspace]
  refine le_antisymm (rowSpace_le.mpr fun row hrow => entries_mem (List.mem_append_left _ hrow)) ?_
  refine rowSpace_le.mpr fun row hrow => ?_
  rcases List.mem_append.mp hrow with hrow | hrow
  · exact entries_mem hrow
  · rw [hrest row hrow]
    exact Submodule.zero_mem _

end BitMatrix

end QuantumMemory

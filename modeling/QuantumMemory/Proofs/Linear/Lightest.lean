/-
  QuantumMemory.Proofs.Linear.Lightest — the search for a light logical operator is sound and
  complete.

  The candidates are the rows of a kernel basis that are no sums of rows, in their order, and of
  these the first of the shortest is taken (`shortest?_split`). If there are none the whole
  kernel is sums of rows, since a basis of it is.

  - `minWeightLogical?_lightest`: nothing is found just if every vector of the kernel is a sum of
    rows, and what is found is the first of the lightest basis vectors that are not.
-/

import QuantumMemory.Proofs.Linear.Kernel

namespace QuantumMemory

namespace BitMatrix

/-- The first of the shortest: those before it are longer, none after it is shorter. -/
theorem shortest?_split {lists : List (List Nat)} {s : List Nat} (h : shortest? lists = some s) :
    ∃ before after, lists = before ++ s :: after ∧ (∀ t ∈ before, s.length < t.length) ∧
      ∀ t ∈ after, s.length ≤ t.length := by
  induction lists generalizing s with
  | nil => cases h
  | cons first rest ih =>
    rw [shortest?] at h
    cases hrest : shortest? rest with
    | none =>
      rw [hrest] at h
      cases h
      rw [shortest?_none hrest]
      exact ⟨[], [], rfl, by simp, by simp⟩
    | some t =>
      simp only [hrest] at h
      obtain ⟨before, after, rfl, hbefore, hafter⟩ := ih hrest
      split at h
      · rename_i hlt
        cases h
        exact ⟨first :: before, after, rfl, List.forall_mem_cons.mpr ⟨hlt, hbefore⟩, hafter⟩
      · rename_i hle
        cases h
        have hle := Nat.le_of_not_lt hle
        refine ⟨[], before ++ t :: after, rfl, by simp, fun u hu => ?_⟩
        rcases List.mem_append.mp hu with hu | hu
        · exact hle.trans (hbefore u hu).le
        · rcases List.mem_cons.mp hu with rfl | hu
          · exact hle
          · exact hle.trans (hafter u hu)

/-! ## Supports -/

/-- The vector with a one at each member of a list. -/
def indicator (s : List Nat) : Entries := fun c => if c ∈ s then 1 else 0

theorem indicator_support {cols v : Nat} (h : v < 2 ^ cols) : indicator (support cols v) = entries v := by
  funext c
  exact if_congr (mem_support_of_lt h) rfl rfl

theorem support_ascend (cols v : Nat) : (support cols v).Pairwise (· < ·) := List.pairwise_lt_range.filter _

/-! ## The search -/

/-- The support of a vector in the kernel of `x` that is no sum of rows of `z`: of the rows
    of the kernel's basis that are none, the first of the lightest. -/
structure LightestLogical (x z : BitMatrix) (s : List Nat) : Prop where
  ascend : s.Pairwise (· < ·)
  kernel : indicator s ∈ kernelSpace x
  outside : indicator s ∉ rowSpace z.rows
  chosen : ∃ before v after, x.kernel.rows = before ++ v :: after ∧ entries v = indicator s ∧
    (∀ w ∈ before, entries w ∉ rowSpace z.rows → s.length < (support x.cols w).length) ∧
    ∀ w ∈ after, entries w ∉ rowSpace z.rows → s.length ≤ (support x.cols w).length

variable {x z : BitMatrix}

/-- Nothing is found just if all of the kernel is sums of rows; otherwise it is the first of
    the lightest rows of the kernel's basis that are none. -/
theorem minWeightLogical?_lightest (hx : x.InRange) (hz : z.InRange) (hcols : x.cols = z.cols) :
    ∃ found, minWeightLogical? x z = some found ∧
      (found = none ↔ kernelSpace x ≤ rowSpace z.rows) ∧ ∀ s, found = some s → LightestLogical x z s := by
  refine ⟨_, minWeightLogical?_eq hcols, ?_, fun s hs => ?_⟩
  · rw [← rowSpace_kernel hx, rowSpace_le]
    constructor
    · intro hnone v hv
      have hempty := List.map_eq_nil_iff.mp (shortest?_none hnone)
      have hzero := List.filter_eq_nil_iff.mp hempty v hv
      exact (residue_echelon_eq_zero_iff hz).mp (by simpa using hzero)
    · intro hall
      have hempty : (x.kernel.rows.filter fun v => residue z.echelon v ≠ 0) = [] := by
        refine List.filter_eq_nil_iff.mpr fun v hv => ?_
        simpa using (residue_echelon_eq_zero_iff hz).mpr (hall v hv)
      rw [hempty]
      rfl
  · obtain ⟨before, after, hsplit, hbefore, hafter⟩ := shortest?_split hs
    obtain ⟨early, rest, hcandidates, rfl, hrest⟩ := List.map_eq_append_iff.mp hsplit
    obtain ⟨v, late, rfl, rfl, rfl⟩ := List.map_eq_cons_iff.mp hrest
    obtain ⟨before, rest, hrows, rfl, hrest⟩ := List.filter_eq_append_iff.mp hcandidates
    obtain ⟨skipped, after, rfl, hskipped, hv, rfl⟩ := List.filter_eq_cons_iff.mp hrest
    have hmem : v ∈ x.kernel.rows := by simp [hrows]
    have hindicator := indicator_support (kernel_inRange x v hmem)
    have hcandidate : ∀ w, entries w ∉ rowSpace z.rows → decide (residue z.echelon w ≠ 0) = true := fun w hw =>
      decide_eq_true fun hzero => hw ((residue_echelon_eq_zero_iff hz).mp hzero)
    refine ⟨support_ascend _ _, ?_, ?_, before ++ skipped, v, after, ?_, hindicator.symm, ?_, ?_⟩
    · rw [← rowSpace_kernel hx]
      exact hindicator ▸ entries_mem hmem
    · intro hsum
      rw [show support x.cols v = support x.kernel.cols v from rfl, hindicator] at hsum
      exact of_decide_eq_true hv ((residue_echelon_eq_zero_iff hz).mpr hsum)
    · rw [hrows, List.append_assoc]
    · intro w hw hout
      rcases List.mem_append.mp hw with hw | hw
      · exact hbefore _ (List.mem_map_of_mem (List.mem_filter.mpr ⟨hw, hcandidate w hout⟩))
      · exact absurd (hcandidate w hout) (hskipped w hw)
    · intro w hw hout
      exact hafter _ (List.mem_map_of_mem (List.mem_filter.mpr ⟨hw, hcandidate w hout⟩))

/-- For one check of each basis on four qubits the first of three pairs is found, and none for
    one on two. -/
theorem minWeightLogical?_lightest_pair :
    (⟨4, [0b1111]⟩ : BitMatrix).InRange ∧ (⟨2, [0b11]⟩ : BitMatrix).InRange ∧
      minWeightLogical? ⟨4, [0b1111]⟩ ⟨4, [0b1111]⟩ = some (some [0, 1]) ∧
      LightestLogical ⟨4, [0b1111]⟩ ⟨4, [0b1111]⟩ [0, 1] ∧ kernelSpace ⟨2, [0b11]⟩ ≤ rowSpace [0b11] := by
  have hfour : (⟨4, [0b1111]⟩ : BitMatrix).InRange := by unfold InRange; decide
  have htwo : (⟨2, [0b11]⟩ : BitMatrix).InRange := by unfold InRange; decide
  obtain ⟨found, hfound, -, hsome⟩ := minWeightLogical?_lightest hfour hfour rfl
  obtain ⟨found', hfound', hnone, -⟩ := minWeightLogical?_lightest htwo htwo rfl
  have hpair : minWeightLogical? ⟨4, [0b1111]⟩ ⟨4, [0b1111]⟩ = some (some [0, 1]) := by decide
  have hlack : minWeightLogical? ⟨2, [0b11]⟩ ⟨2, [0b11]⟩ = some none := by decide
  exact ⟨hfour, htwo, hpair, hsome _ (Option.some.inj (hfound.symm.trans hpair)),
    hnone.mp (Option.some.inj (hfound'.symm.trans hlack))⟩

end BitMatrix

end QuantumMemory

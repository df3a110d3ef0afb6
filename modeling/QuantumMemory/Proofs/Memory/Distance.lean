/-
  QuantumMemory.Proofs.Memory.Distance — how many faults a memory takes to fail unseen.

  When no detector fires, the detectors of a Z check over all rounds add up to the final
  outcomes of its support, so those are even (`support_even`). Let even supports make all
  rows of data agree with the logical operator (`RowsAgree`). Then a flip of the observable
  flips every row, and as no fault meets two rows that takes as many faults as there are
  rows (`rows_le_faults`).
-/

import QuantumMemory.Proofs.Memory.Rows

namespace QuantumMemory

namespace Layout

variable {g : Graph} {bases : List CheckBasis} {l : Layout} {row : Qubit → Nat}

/-- Where every Z check has an even part, the first `d` rows have the parity of the logical
    operator. -/
def RowsAgree (l : Layout) (row : Qubit → Nat) (d : Nat) (logical : List Qubit) : Prop :=
  ∀ F : Qubit → ZMod 2, (∀ c ∈ l.checks .z, ((l.support c).map F).sum = 0) →
    ∀ ρ < d, ((l.rowOf row ρ).map F).sum = (logical.map F).sum

/-! ## Along the memory -/

section Memory

variable (hf : Fits g bases l) (hs : g.Sound) (hb : bases.Nodup) (ht : l.Tidy) (hhooks : HooksInRow g row)
  (p1 p2 : Binary64)

include hf hs hb ht hhooks

theorem narrow_rest {rounds : Nat} (logical : List Qubit) {r j : Nat} (hj : r + j = rounds) :
    Along (Narrow g.size) (l.rest p1 p2 rounds logical r j)
      (fun ρ => l.weights (countOf ((l.rowOf row ρ).map (·, rounds))) rounds r j) fun _ => 0 := by
  induction j generalizing r with
  | zero =>
    have hhead : l.readout p1 rounds logical = Memory.noise1 p1 l.data ++ ((Instruction.measure l.data).kept ++
        (detectorsFor (l.finalLedger rounds) (l.closingTerms rounds) ++
          (Instruction.observable 0 ((l.finalLedger rounds).offsets (logical.map (·, rounds)))).kept)) := by
      simp only [readout, List.append_assoc]
    have hstart : ∀ s : Qubit → ZMod 2, pull ((Instruction.measure l.data).kept ++
        (detectorsFor (l.finalLedger rounds) (l.closingTerms rounds) ++
          (Instruction.observable 0 ((l.finalLedger rounds).offsets (logical.map (·, rounds)))).kept)) (l.data.map s) 0 =
        (0 : Pauli).measuring l.data s := by
      intro s
      have hall := pull_readout ht p1 rounds logical s
      rwa [hhead, pull_append, measurementsOf_noise1, List.drop_zero, pull_noise1] at hall
    rw [rest, hhead]
    refine along_append.mpr ⟨narrow_noise1 p1 fun q hq => ?_, along_append.mpr ⟨narrow_kept rfl,
      along_append.mpr ⟨narrow_detectorsFor _ _, narrow_kept rfl⟩⟩⟩
    simp only [measurementsOf_noise1, List.drop_zero, weights, hstart]
    exact onRow_narrow (fun ρ => startOp_onRow row hf hs ρ hj) hq
  | succ j ih =>
    have hlt : r < rounds := by omega
    rw [rest, roundProgram, along_append, along_append, Circuit.measurementsOf_append, measurementsOf_extraction,
      measurementsOf_detectorsFor]
    simp only [Nat.add_zero, weights_drop, pull_rest ht, pull_detectorsFor]
    refine ⟨⟨?_, narrow_detectorsFor _ _⟩, ih (by omega)⟩
    have hchecks : ∀ ρ, (l.allChecks.map fun c => countOf ((l.rowOf row ρ).map (·, rounds)) (c, r)) =
        l.allChecks.map fun _ => 0 := fun ρ => by rw [rowWeights_check row ρ hlt]
    simp only [weights, hchecks]
    exact narrow_extraction hf hs hb ht hhooks p1 p2 r (fun ρ => startOp_onRow row hf hs ρ (by omega)) _

/-- In a memory no fault meets two rows. -/
theorem narrow_compiled {rounds : Nat} (hpos : 1 ≤ rounds) (logical : List Qubit) :
    Along (Narrow g.size) (l.program p1 p2 rounds ++ l.readout p1 rounds logical)
      (fun ρ => (l.finalLedger rounds).terms.map (countOf ((l.rowOf row ρ).map (·, rounds)))) fun _ => 0 := by
  obtain ⟨n, rfl⟩ : ∃ n, rounds = n + 1 := ⟨rounds - 1, by omega⟩
  have hj : 0 + (n + 1) = n + 1 := Nat.zero_add _
  have hw : ∀ ω : Term → ZMod 2, (l.finalLedger (n + 1)).terms.map ω = l.weights ω (n + 1) 0 (n + 1) := by
    intro ω
    rw [← weights_rest ω (n + 1) hj]
    rfl
  have hreset : Circuit.measurementsOf (Instruction.reset l.allQubits).kept = 0 := by
    rw [← length_measuredBy, measuredBy_kept]
    rfl
  rw [program_rest p1 p2 (n + 1) logical hj, program]
  simp only [hw, along_append, Circuit.measurementsOf_append, hreset, measurementsOf_noise1, Nat.add_zero, List.drop_zero,
    pull_rest ht]
  refine ⟨⟨narrow_kept rfl, narrow_noise1 p1 fun q hq => ?_⟩, narrow_rest hf hs hb ht hhooks p1 p2 logical hj⟩
  rcases hf.data_or_check (hf.mem_allQubits.mp hq) with hd | hc
  · exact onRow_narrow (fun ρ => startOp_onRow row hf hs ρ hj) hd
  · simp only [startOp, rowWeights_check row _ (Nat.succ_pos n)]
    exact narrow_roundOp hf hs hb hhooks (fun ρ => startOp_onRow row hf hs ρ (by omega)) hc

end Memory

/-! ## What silent detectors leave -/

theorem mem_detectorSites_z (hskip : l.skipped = []) {c : Qubit} (hc : c ∈ l.checks .z) (hsub : l.checks .z ⊆ l.allChecks)
    {rounds r : Nat} (hr : r ≤ rounds) : (c, r) ∈ l.detectorSites rounds := by
  have hdeclared : ∀ checks : List Qubit, c ∈ checks → c ∈ l.declared checks := by
    intro checks h
    simp [declared, isSkipped, hskip, h]
  rcases Nat.lt_or_ge r rounds with hlt | hge
  · refine List.mem_append_left _ (List.mem_flatMap.mpr ⟨r, List.mem_range.mpr hlt, ?_⟩)
    refine List.mem_map.mpr ⟨c, hdeclared _ ?_, rfl⟩
    split
    · exact hc
    · exact hsub hc
  · have heq : r = rounds := by omega
    subst heq
    exact List.mem_append_right _ (List.mem_map.mpr ⟨c, hdeclared _ hc, rfl⟩)

/-- Where all sites of a Z check are silent, its support is even in the end. -/
theorem support_even {reading : Term → ZMod 2} {c : Qubit} {rounds : Nat} (hpos : 1 ≤ rounds)
    (h : ∀ r ≤ rounds, ((l.siteTerms rounds (c, r)).map reading).sum = 0) :
    ((l.support c).map fun q => reading (q, rounds)).sum = 0 := by
  have hround : ∀ r, r < rounds → reading (c, r) = 0 := by
    intro r
    induction r with
    | zero =>
      intro _
      simpa [siteTerms] using h 0 (by omega)
    | succ r ih =>
      intro hr
      have hsite := h (r + 1) (by omega)
      rw [siteTerms, if_neg (by omega)] at hsite
      simpa [ih (by omega)] using hsite
  obtain ⟨n, rfl⟩ : ∃ n, rounds = n + 1 := ⟨rounds - 1, by omega⟩
  have hlast := h (n + 1) (Nat.le_refl _)
  rw [siteTerms, if_pos rfl, List.map_append, List.sum_append, List.map_map] at hlast
  simpa [hround n (by omega), Function.comp_def] using hlast

/-- A memory whose observable flips while its detectors are silent has a fault for every row. -/
theorem rows_le_faults (hf : Fits g bases l) (hs : g.Sound) (hb : bases.Nodup) (hr : l.InReach) (hskip : l.skipped = [])
    (hhooks : HooksInRow g row) {logical : List Qubit} (hlog : ∀ q ∈ logical, q ∈ l.data) (hne : logical ≠ []) {d : Nat}
    (hrows : RowsAgree l row d logical) (name : String) (params : CodeParams) {rounds : Nat} (hpos : 1 ≤ rounds)
    {faults : List Fault} (hfaults : ∀ fault ∈ faults, (l.compiled name params rounds logical).circuit.CanFail fault)
    (hsilent : ∀ a ∈ (l.compiled name params rounds logical).circuit.detectorFlips (errorsOf faults), a = 0)
    (hflip : (l.compiled name params rounds logical).circuit.observableFlips (errorsOf faults) ≠ [(0, 0)]) :
    d ≤ faults.length := by
  have ht := hf.tidy hs hb
  set flipped := (l.compiled name params rounds logical).circuit.flips (errorsOf faults) with hflipped
  have hlen : flipped.length = (l.finalLedger rounds).length := length_flips_compiled name params rounds logical _
  have heven : ∀ c ∈ l.checks .z,
      ((l.support c).map fun q => (l.finalLedger rounds).reading flipped (q, rounds)).sum = 0 := by
    intro c hc
    refine support_even hpos fun r hle => hsilent _ ?_
    rw [Circuit.detectorFlips, ← hflipped, detector_parities ht hr name params hpos logical hlen, detectorTerms_eq l hpos,
      List.map_map]
    exact List.mem_map.mpr ⟨(c, r), mem_detectorSites_z hskip hc (hf.checks_subset .z) hle, rfl⟩
  have hodd : (logical.map fun q => (l.finalLedger rounds).reading flipped (q, rounds)).sum ≠ 0 := by
    intro hzero
    refine hflip ?_
    rw [Circuit.observableFlips, ← hflipped, observable_parities ht hr name params hpos logical hlen hlog, if_neg hne,
      hzero]
  refine le_length_of_narrow (hf.compiled_within hs params.depolarize1Rate params.depolarize2Rate rounds logical)
    (narrow_compiled hf hs hb ht hhooks _ _ hpos logical) (fun fault hmem => ?_) fun ρ hρ => ?_
  · obtain ⟨i, hi, hfail⟩ := hfaults fault hmem
    rw [instructions_compiled] at hi
    exact ⟨i, hi, hfail⟩
  · have hsum := Ledger.sum_readings (l.finalLedger rounds) flipped ((l.rowOf row ρ).map (·, rounds))
    rw [List.map_map] at hsum
    rw [hflipped, Circuit.flips, instructions_compiled] at hsum
    rw [← hsum, ← instructions_compiled name, ← Circuit.flips, ← hflipped]
    exact (hrows _ heven ρ hρ).trans_ne hodd

end Layout

end QuantumMemory

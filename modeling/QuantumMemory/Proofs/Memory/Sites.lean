/-
  QuantumMemory.Proofs.Memory.Sites — what detectors and observable measure on data qubits.

  The site of a detector is its check and the round that it closes; round 0 compares with
  the prepared state, and the last site of a Z check with the final data. Pulled back to the
  start of a round, the detector of a site is its check's support if that is the round it
  closes, and nothing on data qubits before any other round (`bits_site`): the two outcomes
  that it compares cancel. The observable is the logical operator before every round
  (`bits_logical`).
-/

import Mathlib.Algebra.BigOperators.Group.Finset.Piecewise
import Mathlib.Algebra.CharP.Two
import QuantumMemory.Proofs.Memory.Readings

namespace QuantumMemory

namespace Layout

variable {g : Graph} {bases : List CheckBasis} {l : Layout}

/-- The check of each detector and the round that it closes, the readout being the last one. -/
def detectorSites (l : Layout) (rounds : Nat) : List (Qubit × Nat) :=
  ((List.range rounds).flatMap fun r => (l.declared (if r = 0 then l.checks .z else l.allChecks)).map (·, r)) ++
    (l.declared (l.checks .z)).map (·, rounds)

/-- The terms that the detector of a site compares. -/
def siteTerms (l : Layout) (rounds : Nat) : Qubit × Nat → List Term
  | (c, 0) => [(c, 0)]
  | (c, r + 1) => if r + 1 = rounds then (l.support c).map (·, rounds) ++ [(c, r)] else [(c, r), (c, r + 1)]

theorem detectorTerms_eq (l : Layout) {rounds : Nat} (hpos : 1 ≤ rounds) :
    l.detectorTerms rounds = (l.detectorSites rounds).map (l.siteTerms rounds) := by
  obtain ⟨n, rfl⟩ : ∃ n, rounds = n + 1 := ⟨rounds - 1, by omega⟩
  rw [detectorTerms, detectorSites, List.map_append, List.map_flatMap]
  congr 1
  · refine List.flatMap_congr fun r hr => ?_
    have hlt := List.mem_range.mp hr
    rw [List.map_map]
    cases r with
    | zero => rfl
    | succ r =>
      refine List.map_congr_left fun c _ => ?_
      rw [Function.comp_apply, siteTerms, if_neg (by omega)]
  · rw [closingTerms, List.map_map]
    refine List.map_congr_left fun c _ => ?_
    rw [Function.comp_apply, siteTerms, if_pos rfl]
    rfl

/-- The first and the last sites are those of Z checks. -/
theorem Fits.detectorSites_basis (hf : Fits g bases l) {rounds : Nat} {c : Qubit} {r : Nat}
    (h : (c, r) ∈ l.detectorSites rounds) :
    r ≤ rounds ∧ ∃ b, c ∈ g.checkQubits b ∧ (r = 0 ∨ r = rounds → b = .z) := by
  rcases List.mem_append.mp h with h | h
  · obtain ⟨r', hr', h⟩ := List.mem_flatMap.mp h
    obtain ⟨c', hc', he⟩ := List.mem_map.mp h
    obtain ⟨rfl, rfl⟩ := Prod.mk.inj he
    have hlt := List.mem_range.mp hr'
    have hmem := (List.mem_filter.mp hc').1
    split at hmem
    · rw [hf.checks] at hmem
      exact ⟨hlt.le, .z, hmem, fun _ => rfl⟩
    · obtain ⟨b, hb⟩ := hf.mem_allChecks.mp hmem
      exact ⟨hlt.le, b, hb, fun h => by omega⟩
  · obtain ⟨c', hc', he⟩ := List.mem_map.mp h
    obtain ⟨rfl, rfl⟩ := Prod.mk.inj he
    have hmem := (List.mem_filter.mp hc').1
    rw [hf.checks] at hmem
    exact ⟨Nat.le_refl _, .z, hmem, fun _ => rfl⟩

/-! ## Weights -/

/-- A site names its check's outcome of the round that it closes and of the one before. -/
theorem countOf_site_check (l : Layout) {rounds r r₀ : Nat} (hr : r < rounds) (c c' : Qubit) :
    countOf (l.siteTerms rounds (c, r₀)) (c', r) = if c' = c ∧ (r = r₀ ∨ r + 1 = r₀) then 1 else 0 := by
  unfold countOf
  cases r₀ with
  | zero =>
    rw [siteTerms, List.count_singleton]
    by_cases h : c = c'
    · subst h
      by_cases hr0 : r = 0
      · simp [hr0]
      · simp [hr0, Ne.symm hr0]
    · simp [h, Ne.symm h]
  | succ n =>
    rw [siteTerms]
    split
    · rename_i hlast
      have hnot : (c', r) ∉ (l.support c).map (·, rounds) := by
        intro hmem
        obtain ⟨q, -, he⟩ := List.mem_map.mp hmem
        have heq := (Prod.mk.inj he).2
        omega
      have hne : r ≠ n + 1 := by omega
      rw [List.count_append, List.count_eq_zero_of_not_mem hnot, Nat.zero_add, List.count_singleton]
      by_cases h : c = c'
      · subst h
        by_cases hn : r = n
        · simp [hn]
        · simp [hn, hne, Ne.symm hn]
      · simp [h, Ne.symm h]
    · rw [List.count_cons, List.count_singleton]
      by_cases h : c = c'
      · subst h
        by_cases hn : n = r
        · simp [hn]
        · by_cases hn' : n + 1 = r
          · simp [← hn']
          · simp [hn, hn', Ne.symm hn, Ne.symm hn']
      · simp [h, Ne.symm h]

/-- The last site of a check names the final outcomes of its support. -/
theorem Fits.countOf_site_data (hf : Fits g bases l) (hs : g.Sound) {rounds : Nat} (hpos : 1 ≤ rounds) (r₀ : Nat)
    {c q : Qubit} (hc : c ∈ l.allChecks) (hq : q ∈ l.data) :
    countOf (l.siteTerms rounds (c, r₀)) (q, rounds) = if r₀ = rounds ∧ q ∈ l.support c then 1 else 0 := by
  have hne : c ≠ q := fun he => hf.check_not_data hc (he ▸ hq)
  unfold countOf
  cases r₀ with
  | zero =>
    have h0 : 0 ≠ rounds := by omega
    simp [siteTerms, hne, h0]
  | succ n =>
    rw [siteTerms]
    split
    · rename_i hlast
      have hn := (hf.support_nodup hs hc).map (f := (·, rounds)) fun q q' he => (Prod.mk.inj he).1
      rw [List.count_append, hn.count, List.count_singleton]
      simp [hne, hlast]
    · rename_i hlast
      simp [hne, hlast]

/-- The observable names no outcome of a check. -/
theorem countOf_logical_check (logical : List Qubit) {rounds r : Nat} (hr : r < rounds) (c : Qubit) :
    countOf (logical.map (·, rounds)) (c, r) = 0 := by
  have hnot : (c, r) ∉ logical.map (·, rounds) := by
    intro hmem
    obtain ⟨q, -, he⟩ := List.mem_map.mp hmem
    have heq := (Prod.mk.inj he).2
    omega
  rw [countOf, List.count_eq_zero_of_not_mem hnot, Nat.cast_zero]

/-- Counts over a set add up to the entries in the set. -/
theorem sum_count (S : Finset Qubit) (qubits : List Qubit) :
    ∑ q ∈ S, (qubits.count q : ZMod 2) = qubits.countP (· ∈ S) := by
  induction qubits with
  | nil => simp
  | cons a rest ih =>
    simp only [List.count_cons, Nat.cast_add, Finset.sum_add_distrib, ih, List.countP_cons]
    by_cases h : a ∈ S <;> simp [h]

/-! ## On data qubits -/

section Data

variable (hf : Fits g bases l) (hs : g.Sound) (hb : bases.Nodup)

include hf hs hb

/-- Over a whole round one check reaches its support. -/
theorem arrivals_support {b b' : CheckBasis} {c : Qubit} (hc : c ∈ g.checkQubits b') {s : Qubit → ZMod 2}
    (hs' : ∀ c' ∈ l.allChecks, c' ≠ c → s c' = 0) (q : Qubit) :
    arrivals b s (roundEvents g bases) 0 q = if b' = b ∧ q ∈ l.support c then s c else 0 := by
  rw [hf.arrivals_one hs hb hc hs', hf.support (hf.check_mem hc)]
  simp only [Nat.zero_le, and_true, List.mem_map]

/-- Before each round the detector of a site is its check's support, or nothing. -/
theorem bits_site {rounds : Nat} (hpos : 1 ≤ rounds) {c : Qubit} {r₀ : Nat} {b₀ : CheckBasis}
    (hc : c ∈ g.checkQubits b₀) (hlast : r₀ = rounds → b₀ = .z) {b : CheckBasis} (hy : b ≠ .y) {q : Qubit}
    (hq : q ∈ l.data) {r j : Nat} (hj : r + j = rounds) :
    (l.startOp (countOf (l.siteTerms rounds (c, r₀))) rounds r j).bits b q =
      if b₀ = b ∧ r = r₀ ∧ q ∈ l.support c then 1 else 0 := by
  induction j generalizing r with
  | zero =>
    have hr : r = rounds := by omega
    have hcount := hf.countOf_site_data hs hpos r₀ (hf.check_mem hc) hq
    subst hr
    cases b with
    | x =>
      have hno : ¬(b₀ = .x ∧ r = r₀ ∧ q ∈ l.support c) := by
        intro h
        have hz := hlast h.2.1.symm
        rw [h.1] at hz
        cases hz
      simp [startOp, Pauli.bits, Pauli.measuring, hno]
    | y => exact absurd rfl hy
    | z =>
      have hiff : (r₀ = r ∧ q ∈ l.support c) ↔ (b₀ = .z ∧ r = r₀ ∧ q ∈ l.support c) :=
        ⟨fun h => ⟨hlast h.1, h.1.symm, h.2⟩, fun h => ⟨h.2.1.symm, h.2.2⟩⟩
      simp only [startOp, Pauli.bits, Pauli.measuring, if_pos hq, hcount, hiff]
  | succ j ih =>
    have hlt : r < rounds := by omega
    rw [startOp, hf.bits_roundOp hs hy hq, ih (by omega), arrivals_support hf hs hb hc (fun c' _ hne => by
      rw [countOf_site_check l hlt, if_neg fun h => hne h.1]), countOf_site_check l hlt]
    by_cases h : b₀ = b ∧ q ∈ l.support c
    · by_cases h0 : r + 1 = r₀
      · have hne : r ≠ r₀ := by omega
        simp [h, h0, hne, CharTwo.add_self_eq_zero]
      · simp [h, h0]
    · have h' : ∀ p : Prop, ¬(b₀ = b ∧ p ∧ q ∈ l.support c) := fun p hp => h ⟨hp.1, hp.2.2⟩
      simp only [if_neg h, if_neg (h' _), add_zero]

omit hb in
/-- Before each round the observable is the logical operator. -/
theorem bits_logical {rounds : Nat} (logical : List Qubit) {b : CheckBasis} (hy : b ≠ .y) {q : Qubit} (hq : q ∈ l.data)
    {r j : Nat} (hj : r + j = rounds) :
    (l.startOp (countOf (logical.map (·, rounds))) rounds r j).bits b q =
      if b = .z then (logical.count q : ZMod 2) else 0 := by
  induction j generalizing r with
  | zero =>
    have hcount : countOf (logical.map (·, rounds)) (q, rounds) = (logical.count q : ZMod 2) :=
      congrArg _ (List.count_map_of_injective logical (·, rounds) (fun a a' he => (Prod.mk.inj he).1) q)
    cases b with
    | x => simp [startOp, Pauli.bits, Pauli.measuring]
    | y => exact absurd rfl hy
    | z => simp [startOp, Pauli.bits, Pauli.measuring, hq, hcount]
  | succ j ih =>
    have hlt : r < rounds := by omega
    have hzero : ∀ c, countOf (logical.map (·, rounds)) (c, r) = 0 := fun c => countOf_logical_check logical hlt c
    rw [startOp, hf.bits_roundOp hs hy hq, ih (by omega), arrivals_zero (fun e _ => hzero e.check), add_zero]

end Data

end Layout

end QuantumMemory

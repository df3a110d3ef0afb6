/-
  QuantumMemory.Proofs.Memory.DataErrors — which detectors fire when data qubits are hit
  between rounds.

  X on data qubits flips the Z checks on an odd number of them in every later round, so of
  their detectors only the one of the round that follows fires, and Z does the same to X
  checks (`data_errors`).
-/

import QuantumMemory.Proofs.Memory.Sites

namespace QuantumMemory

namespace Pauli

/-- X on the qubits of a set. -/
def xOn (S : Finset Qubit) : Pauli where
  x q := if q ∈ S then 1 else 0
  z := 0

/-- Z on the qubits of a set. -/
def zOn (S : Finset Qubit) : Pauli where
  x := 0
  z q := if q ∈ S then 1 else 0

/-- What checks of the basis see on a set: Z for X checks, X for any other. -/
def against (b : CheckBasis) (S : Finset Qubit) : Pauli :=
  match b with
  | .x => zOn S
  | _ => xOn S

theorem sum_on {n : Nat} {S : Finset Qubit} (h : ∀ q ∈ S, q < n) (a : Qubit → ZMod 2) :
    (∑ q ∈ Finset.range n, (if q ∈ S then 1 else 0) * a q) = ∑ q ∈ S, a q := by
  simp only [ite_mul, one_mul, zero_mul, Finset.sum_ite_mem]
  refine Finset.sum_congr (Finset.inter_eq_right.mpr fun q hq => ?_) fun _ _ => rfl
  exact Finset.mem_range.mpr (h q hq)

theorem pairing_against {n : Nat} {S : Finset Qubit} (h : ∀ q ∈ S, q < n) (b : CheckBasis) (p : Pauli) :
    pairing n (against b S) p = ∑ q ∈ S, p.bits b q := by
  cases b with
  | x => simp [pairing, against, zOn, bits, ← sum_on h]
  | y => simp [pairing, against, xOn, bits, ← sum_on h]
  | z => simp [pairing, against, xOn, bits, ← sum_on h]

end Pauli

namespace Layout

variable {g : Graph} {bases : List CheckBasis} {l : Layout}

section Flips

variable (hf : Fits g bases l) (hs : g.Sound) (ht : l.Tidy) (name : String) (params : CodeParams)
  {logical : List Qubit} {rounds r j : Nat} (hj : r + j = rounds) {b : CheckBasis} (hy : b ≠ .y) {S : Finset Qubit}
  (hS : ∀ q ∈ S, q ∈ l.data)

/-- The readings of terms after an error on data just before round `r`. -/
def readingsAfter (l : Layout) (name : String) (params : CodeParams) (rounds : Nat) (logical : List Qubit) (r : Nat)
    (f : Pauli) (ts : List Term) : ZMod 2 :=
  (ts.map ((l.finalLedger rounds).reading ((l.compiled name params rounds logical).circuit.flips
    (errorAt (l.program params.depolarize1Rate params.depolarize2Rate r).length f)))).sum

include hf hs ht hj hS

/-- The error changes readings where it meets what they measure. -/
theorem readingsAfter_eq (b : CheckBasis) (ts : List Term) :
    l.readingsAfter name params rounds logical r (.against b S) ts =
      ∑ q ∈ S, (l.startOp (countOf ts) rounds r j).bits b q := by
  rw [readingsAfter, readings_flips hf hs ht name params logical hj,
    Pauli.pairing_against fun q hq => hf.data_lt (hS q hq)]

include hy

/-- Of all detectors those of checks of the basis change that close round `r`, by their share
    of the error. -/
theorem readingsAfter_site (hb : bases.Nodup) (hpos : 1 ≤ rounds) {site : Qubit × Nat}
    (hsite : site ∈ l.detectorSites rounds) :
    l.readingsAfter name params rounds logical r (.against b S) (l.siteTerms rounds site) =
      if site.2 = r ∧ site.1 ∈ l.checks b then ((S.filter fun q => q ∈ l.support site.1).card : ZMod 2) else 0 := by
  obtain ⟨c, r₀⟩ := site
  obtain ⟨-, b₀, hc, hends⟩ := hf.detectorSites_basis hsite
  have hbits : ∀ q ∈ S, (l.startOp (countOf (l.siteTerms rounds (c, r₀))) rounds r j).bits b q =
      if b₀ = b ∧ r = r₀ ∧ q ∈ l.support c then 1 else 0 :=
    fun q hq => bits_site hf hs hb hpos hc (fun h => hends (.inr h)) hy (hS q hq) hj
  rw [readingsAfter_eq hf hs ht name params hj hS, Finset.sum_congr rfl hbits]
  simp only [hf.mem_checks hc]
  by_cases h : r₀ = r ∧ b₀ = b
  · simp [h.1, h.2, Finset.sum_boole]
  · have hno : ∀ q, ¬(b₀ = b ∧ r = r₀ ∧ q ∈ l.support c) := fun q hq => h ⟨hq.2.1.symm, hq.1⟩
    simp [if_neg h, hno]

/-- The observable changes by its share of X errors, counted as often as it names them. -/
theorem readingsAfter_logical : l.readingsAfter name params rounds logical r (.against b S) (logical.map (·, rounds)) =
    if b = .z then (logical.countP (· ∈ S) : ZMod 2) else 0 := by
  rw [readingsAfter_eq hf hs ht name params hj hS,
    Finset.sum_congr rfl fun q hq => bits_logical hf hs logical hy (hS q hq) hj]
  by_cases h : b = .z
  · simp only [if_pos h, sum_count]
  · simp only [if_neg h, Finset.sum_const_zero]

/-- How data errors change the detectors. -/
theorem detectorFlips_against (hb : bases.Nodup) (hr : l.InReach) (hpos : 1 ≤ rounds) :
    (l.compiled name params rounds logical).circuit.detectorFlips
      (errorAt (l.program params.depolarize1Rate params.depolarize2Rate r).length (.against b S)) =
      (l.detectorSites rounds).map fun site => if site.2 = r ∧ site.1 ∈ l.checks b then
        ((S.filter fun q => q ∈ l.support site.1).card : ZMod 2) else 0 := by
  rw [Circuit.detectorFlips, detector_parities ht hr name params hpos logical
    (length_flips_compiled name params rounds logical _), detectorTerms_eq l hpos, List.map_map]
  exact List.map_congr_left fun site hsite => readingsAfter_site hf hs ht name params hj hy hS hb hpos hsite

/-- How data errors change the observable. -/
theorem observableFlips_against (hr : l.InReach) (hpos : 1 ≤ rounds) (hlog : ∀ q ∈ logical, q ∈ l.data) :
    (l.compiled name params rounds logical).circuit.observableFlips
      (errorAt (l.program params.depolarize1Rate params.depolarize2Rate r).length (.against b S)) =
      if logical = [] then [] else [(0, if b = .z then (logical.countP (· ∈ S) : ZMod 2) else 0)] := by
  rw [Circuit.observableFlips, observable_parities ht hr name params hpos logical
    (length_flips_compiled name params rounds logical _) hlog, ← readingsAfter_logical hf hs ht name params hj hy hS,
    readingsAfter, List.map_map]
  rfl

end Flips

/-- X on data qubits just before a round, or before the readout, flips the detectors that the
    round closes of the Z checks on an odd number of them, and the observable if it has an
    odd number of them; Z flips the detectors of X checks, and the observable never. -/
theorem data_errors (hg : g.Built) (hsize : g.size < 2 ^ 30) (hb : bases.Nodup) {policy : BoundaryPolicy}
    (hl : Layout.ofGraph g bases policy = .ok l) (name : String) {params : CodeParams} (hp : params.validate = .ok ())
    {rounds : Nat} (hpos : 1 ≤ rounds) {logical : List Qubit} (hlog : ∀ q ∈ logical, q ∈ g.dataQubits) {S : Finset Qubit}
    (hS : ∀ q ∈ S, q ∈ g.dataQubits) {r : Nat} (hr : r ≤ rounds) :
    ∃ e m, l.buildMemory name params rounds logical = .ok e ∧
      (Memory.start name params).perform (l.upToRound r) = (.ok (), m) ∧
      m.circuit.instructions <+: e.circuit.instructions ∧
      e.circuit.detectors.map e.ledger.read =
        (l.detectorSites rounds).map (fun site => (l.siteTerms rounds site).map some) ∧
      e.circuit.detectorFlips (errorAt m.circuit.instructions.length (.xOn S)) =
        (l.detectorSites rounds).map (fun site => if site.2 = r ∧ site.1 ∈ l.checks .z then
          ((S.filter fun q => q ∈ l.support site.1).card : ZMod 2) else 0) ∧
      e.circuit.observableFlips (errorAt m.circuit.instructions.length (.xOn S)) =
        (if logical = [] then [] else [(0, (logical.countP (· ∈ S) : ZMod 2))]) ∧
      e.circuit.detectorFlips (errorAt m.circuit.instructions.length (.zOn S)) =
        (l.detectorSites rounds).map (fun site => if site.2 = r ∧ 0 < r ∧ r < rounds ∧ site.1 ∈ l.checks .x then
          ((S.filter fun q => q ∈ l.support site.1).card : ZMod 2) else 0) ∧
      e.circuit.observableFlips (errorAt m.circuit.instructions.length (.zOn S)) =
        if logical = [] then [] else [(0, 0)] := by
  have hf := ofGraph_ok hl
  have hs := hg.sound
  have ht := hf.tidy hs hb
  have hreach := hf.inReach hb hsize
  obtain ⟨h1, h2⟩ := usable_of_validate hp
  have hlog' : ∀ q ∈ logical, q ∈ l.data := by rw [hf.data]; exact hlog
  have hS' : ∀ q ∈ S, q ∈ l.data := by rw [hf.data]; exact hS
  have hj : r + (rounds - r) = rounds := by omega
  have hcircuit : (l.compiled name params rounds logical).circuit.instructions =
      (l.memoryAfter name params r).circuit.instructions ++ l.rest params.depolarize1Rate params.depolarize2Rate rounds
        logical r (rounds - r) := by
    rw [instructions_compiled, program_rest _ _ _ _ hj, memoryAfter, Circuit.instructions_extendAll]
    rfl
  have hlen : (l.memoryAfter name params r).circuit.instructions =
      l.program params.depolarize1Rate params.depolarize2Rate r := by
    rw [memoryAfter, Circuit.instructions_extendAll]
    rfl
  have hsites := detectors_compiled ht hreach name params hpos logical
  rw [detectorTerms_eq l hpos, List.map_map] at hsites
  refine ⟨_, _, buildMemory_eq ht hreach name h1 h2 hpos hlog', perform_rounds ht name h1 h2 r, ⟨_, hcircuit.symm⟩,
    hsites, ?_⟩
  rw [hlen]
  refine ⟨detectorFlips_against hf hs ht name params hj (by decide : CheckBasis.z ≠ .y) hS' hb hreach hpos,
    observableFlips_against hf hs ht name params hj (by decide : CheckBasis.z ≠ .y) hS' hreach hpos hlog', ?_,
    observableFlips_against hf hs ht name params hj (by decide : CheckBasis.x ≠ .y) hS' hreach hpos hlog'⟩
  refine (detectorFlips_against hf hs ht name params hj (by decide : CheckBasis.x ≠ .y) hS' hb hreach
    hpos).trans ?_
  refine List.map_congr_left fun site hsite => if_congr ?_ rfl rfl
  obtain ⟨hle, b, hc, hends⟩ := hf.detectorSites_basis hsite
  constructor
  · rintro ⟨rfl, hx⟩
    have hbx : b = .x := (hf.mem_checks hc).mp hx
    have hne : ¬(site.2 = 0 ∨ site.2 = rounds) := fun h => by
      have hbz := hends h
      rw [hbx] at hbz
      cases hbz
    exact ⟨rfl, by omega, by omega, hx⟩
  · rintro ⟨he, -, -, hx⟩
    exact ⟨he, hx⟩

/-- A Bell pair over three rounds: X, and then Z, on qubit 1 before round 1. -/
theorem data_errors_bellPair :
    ∃ e m, bellLayout.buildMemory "bell" ⟨1, .zero, .zero⟩ 3 [0, 0, 1] = .ok e ∧
      (Memory.start "bell" ⟨1, .zero, .zero⟩).perform (bellLayout.upToRound 1) = (.ok (), m) ∧
      m.circuit.instructions <+: e.circuit.instructions ∧
      e.circuit.detectors.map e.ledger.read =
        [[some (2, 0)], [some (2, 0), some (2, 1)], [some (3, 0), some (3, 1)], [some (2, 1), some (2, 2)],
          [some (3, 1), some (3, 2)], [some (0, 3), some (1, 3), some (2, 2)]] ∧
      e.circuit.detectorFlips (errorAt m.circuit.instructions.length (.xOn {1})) = [0, 1, 0, 0, 0, 0] ∧
      e.circuit.observableFlips (errorAt m.circuit.instructions.length (.xOn {1})) = [(0, 1)] ∧
      e.circuit.detectorFlips (errorAt m.circuit.instructions.length (.zOn {1})) = [0, 0, 1, 0, 0, 0] ∧
      e.circuit.observableFlips (errorAt m.circuit.instructions.length (.zOn {1})) = [(0, 0)] :=
  data_errors bellPair_built (by decide) (by decide) bellLayout_ok "bell" (by rfl) (by decide) (by decide) (by decide)
    (by decide)

end Layout

end QuantumMemory

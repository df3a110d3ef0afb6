/-
  QuantumMemory.Proofs.Shor.Round — what the outcomes of a Shor memory measure at the start
  of each round.

  Pulled back over a round, the weights of its ancillas come in where they are measured
  (`opened_phase`, `opened_bitFlip`). The phase ancillas, turned into the X basis, put X on the
  blocks that they compare (`x_phased_data`), and what they get back is the Z of whole blocks
  (`z_phased_phase`). Then the data qubits put X on the bit-flip ancillas that compare them
  (`x_roundOp_bitFlip`) and get their Z (`z_roundOp_data`). `startOp` is the operator at the
  start of any round, and `pull_rest` says that it is what the circuit from there on measures.
-/

import Mathlib.Algebra.BigOperators.Group.Finset.Piecewise
import Mathlib.Algebra.CharP.Two
import QuantumMemory.Proofs.Pauli.Round
import QuantumMemory.Proofs.Shor.Program

namespace QuantumMemory

/-- Interactions whose controls are apart from their targets. -/
theorem Layout.interact_apart {pairs : List (Qubit × Qubit)} (h : ∀ p ∈ pairs, ∀ p' ∈ pairs, p.1 ≠ p'.2) (p : Pauli)
    (q : Qubit) :
    (interact pairs p).x q = p.x q + (pairs.map fun pair => if q = pair.2 then p.x pair.1 else 0).sum ∧
      (interact pairs p).z q = p.z q + (pairs.map fun pair => if q = pair.1 then p.z pair.2 else 0).sum := by
  constructor
  · have hswap : ∀ hop ∈ pairs.map Prod.swap, ∀ hop' ∈ pairs.map Prod.swap, hop.1 ≠ hop'.2 := by
      intro hop hmem hop' hmem'
      obtain ⟨pair, hpair, rfl⟩ := List.mem_map.mp hmem
      obtain ⟨pair', hpair', rfl⟩ := List.mem_map.mp hmem'
      exact (h pair' hpair' pair hpair).symm
    rw [interact, x_foldr_cx, relay_once hswap, List.map_map]
    rfl
  · rw [interact, z_foldr_cx, relay_once h]

namespace ShorCode

open Layout Memory

variable (c : ShorCode)

/-! ## Pulling back -/

/-- The operator after the interactions of the phase ancillas, from the one after the round. -/
def opened (s : Qubit → ZMod 2) (p : Pauli) : Pauli := (p.measuring c.ancillas s).turn c.phaseAncillas

/-- The operator before the interactions of the phase ancillas. -/
def phased (s : Qubit → ZMod 2) (p : Pauli) : Pauli := interact c.phaseLayers.flatten (c.opened s p)

/-- The operator before a round whose ancillas have weights, from the one after. -/
def roundOp (s : Qubit → ZMod 2) (p : Pauli) : Pauli :=
  interact c.bitFlipLayers.flatten ((c.phased s p).turn c.phaseAncillas)

/-- The operator before the encoding of blocks that are reset. -/
def encodedOp (p : Pauli) : Pauli := (interact c.fanOutLayers.flatten p).turn c.leaders

/-- A round and what follows the last one, from round `r` on, with `j` rounds to go. -/
def rest (p1 p2 : Binary64) (rounds r : Nat) : Nat → List Instruction
  | 0 => c.readout p1 rounds
  | j + 1 => c.roundProgram p1 p2 r ++ rest p1 p2 rounds (r + 1) j

/-- What weighted outcomes measure before round `r`, with `j` rounds to go. -/
def startOp (ω : Term → ZMod 2) (rounds r : Nat) : Nat → Pauli
  | 0 => ((0 : Pauli).measuring c.dataQubits fun q => ω (q, rounds)).turn c.dataQubits
  | j + 1 => c.roundOp (fun a => ω (a, r)) (startOp ω rounds (r + 1) j)

theorem pull_hadamard {qubits : List Qubit} (h : qubits.Nodup) (w : List (ZMod 2)) (p : Pauli) :
    pull (Instruction.gate .h qubits).kept w p = p.turn qubits := by
  rw [pull_kept]
  exact Pauli.ungate_h h p

theorem pull_extraction (p1 p2 : Binary64) (round : Nat) (s : Qubit → ZMod 2) (more : List (ZMod 2)) (p : Pauli) :
    pull (c.extraction p1 p2 round) (c.ancillas.map s ++ more) p = c.roundOp s p := by
  have h0 : ∀ w p, pull (if round = 0 then [] else noise1 p1 c.ancillas) w p = p := by
    intro w p
    split
    · rfl
    · exact pull_noise1 _ _ _ _
  have hm : ∀ p, pull (Instruction.measureReset c.ancillas).kept (c.ancillas.map s ++ more) p =
      p.measuring c.ancillas s := by
    intro p
    rw [pull_kept]
    exact Pauli.clear_weighted c.ancillas_nodup p s more
  simp only [extraction, pull_append, Circuit.measurementsOf_append, h0, measurementsOf_first,
    pull_hadamard c.phaseAncillas_nodup, measurementsOf_gate, measurementsOf_noise1, measurementsOf_layers, pull_noise1,
    pull_layers, Nat.add_zero, List.drop_zero, hm, roundOp, phased, opened, interact]

theorem pull_readout (p1 : Binary64) (rounds : Nat) (s : Qubit → ZMod 2) :
    pull (c.readout p1 rounds) (c.dataQubits.map s) 0 = ((0 : Pauli).measuring c.dataQubits s).turn c.dataQubits := by
  have hn : c.dataQubits.Nodup := List.nodup_range
  have hm : ∀ w p, pull (Instruction.measure c.dataQubits).kept w p = p + .weighted c.dataQubits w :=
    fun w p => pull_kept _ w p
  have hobs : ∀ w p, pull (Instruction.observable 0
      ((c.register.finalLedger rounds).offsets (logical.map (·, rounds)))).kept w p = p := fun w p => pull_kept _ w p
  have hclear : (0 : Pauli).clear c.dataQubits = 0 := by ext q <;> simp [Pauli.clear]
  have hw := Pauli.clear_weighted hn 0 s []
  rw [hclear, List.append_nil] at hw
  simp only [readout, pull_append, Circuit.measurementsOf_append, measurementsOf_noise1, measurementsOf_gate, hobs,
    pull_detectorsFor, hm, pull_noise1, List.drop_zero, Nat.add_zero, hw, pull_hadamard hn]

theorem pull_encoding (p1 p2 : Binary64) (w : List (ZMod 2)) (p : Pauli) :
    pull (c.encoding p1 p2) w p = (c.encodedOp p).clear (List.range c.numQubits) := by
  have hreset : ∀ w p, pull (Instruction.reset (List.range c.numQubits)).kept w p = p.clear (List.range c.numQubits) :=
    fun w p => pull_kept _ w p
  simp only [encoding, pull_append, hreset, pull_noise1, pull_hadamard c.leaders_nodup, pull_layers, encodedOp, interact]

/-- What follows measures the operator at its start. -/
theorem pull_rest (p1 p2 : Binary64) (rounds : Nat) (ω : Term → ZMod 2) (r j : Nat) :
    pull (c.rest p1 p2 rounds r j) (c.register.weights ω rounds r j) 0 = c.startOp ω rounds r j := by
  induction j generalizing r with
  | zero => exact c.pull_readout p1 rounds _
  | succ j ih =>
    have hdrop := weights_drop c.register ω rounds r j
    rw [register_allChecks] at hdrop
    rw [rest, roundProgram, pull_append, pull_append, Circuit.measurementsOf_append, measurementsOf_extraction,
      measurementsOf_detectorsFor, pull_detectorsFor]
    simp only [Nat.add_zero, hdrop, ih]
    rw [weights, register_allChecks]
    exact c.pull_extraction p1 p2 r _ _ _

/-- The circuit up to a round and from there on. -/
theorem program_rest (p1 p2 : Binary64) (rounds : Nat) {r j : Nat} (h : r + j = rounds) :
    c.program p1 p2 rounds ++ c.readout p1 rounds = c.program p1 p2 r ++ c.rest p1 p2 rounds r j := by
  induction j generalizing r with
  | zero => subst h; rfl
  | succ j ih => rw [ih (r := r + 1) (by omega), program, rest, List.append_assoc]

/-! ## Sums over the layers -/

/-- A sum over layers that are numbered. -/
theorem sum_numbered (n : Nat) (layer : Nat → List (Qubit × Qubit)) (f : Qubit × Qubit → ZMod 2) :
    (((List.range n).map layer).flatten.map f).sum = ∑ k ∈ Finset.range n, ((layer k).map f).sum := by
  rw [List.map_flatten, List.sum_flatten, List.map_map, List.map_map]
  rfl

theorem sum_phaseLayers (f : Qubit × Qubit → ZMod 2) : (c.phaseLayers.flatten.map f).sum =
    ∑ b ∈ Finset.range (c.blocks - 1), ∑ k ∈ Finset.range 6, f (c.phaseAncilla b, 3 * b + k) := by
  rw [phaseLayers, sum_numbered, Finset.sum_comm]
  refine Finset.sum_congr rfl fun k _ => ?_
  rw [phaseLayer, List.map_map]
  rfl

theorem sum_bitFlipLayers (f : Qubit × Qubit → ZMod 2) : (c.bitFlipLayers.flatten.map f).sum =
    ∑ b ∈ Finset.range c.blocks, ∑ k ∈ Finset.range 2,
      (f (3 * b + k, c.bitFlipAncilla b 0) + f (3 * b + k + 1, c.bitFlipAncilla b 1)) := by
  rw [bitFlipLayers, sum_numbered, Finset.sum_comm]
  refine Finset.sum_congr rfl fun k _ => ?_
  rw [bitFlipLayer, List.map_flatMap, List.flatMap, List.sum_flatten, List.map_map]
  refine congrArg List.sum (List.map_congr_left fun b _ => ?_)
  simp

theorem sum_fanOutLayers (f : Qubit × Qubit → ZMod 2) : (c.fanOutLayers.flatten.map f).sum =
    ∑ b ∈ Finset.range c.blocks, (f (3 * b, 3 * b + 1) + f (3 * b, 3 * b + 2)) := by
  rw [Finset.sum_add_distrib]
  simp only [fanOutLayers, fanOutLayer, List.map_cons, List.map_nil, List.flatten_cons, List.flatten_nil,
    List.append_nil, List.map_append, List.sum_append, List.map_map]
  rfl

/-! ## Sides -/

theorem phase_sides : ∀ pair ∈ c.phaseLayers.flatten, pair.1 ∈ c.phaseAncillas ∧ pair.2 ∈ c.dataQubits := by
  intro pair hpair
  obtain ⟨layer, hlayer, hmem⟩ := List.mem_flatten.mp hpair
  obtain ⟨k, hk, rfl⟩ := List.mem_map.mp hlayer
  exact c.phaseLayer_sides (List.mem_range.mp hk) hmem

theorem bitFlip_sides : ∀ pair ∈ c.bitFlipLayers.flatten, pair.1 ∈ c.dataQubits ∧ pair.2 ∈ c.bitFlipAncillas := by
  intro pair hpair
  obtain ⟨layer, hlayer, hmem⟩ := List.mem_flatten.mp hpair
  obtain ⟨k, hk, rfl⟩ := List.mem_map.mp hlayer
  exact c.bitFlipLayer_sides (List.mem_range.mp hk) hmem

variable {c} {s : Qubit → ZMod 2} {p : Pauli}

theorem phase_apart : ∀ pair ∈ c.phaseLayers.flatten, ∀ pair' ∈ c.phaseLayers.flatten, pair.1 ≠ pair'.2 :=
  fun pair h pair' h' => (c.data_ne_ancilla (c.phase_sides pair' h').2
    (List.mem_append_right _ (c.phase_sides pair h).1)).symm

theorem bitFlip_apart : ∀ pair ∈ c.bitFlipLayers.flatten, ∀ pair' ∈ c.bitFlipLayers.flatten, pair.1 ≠ pair'.2 :=
  fun pair h pair' h' => c.data_ne_ancilla (c.bitFlip_sides pair h).1
    (List.mem_append_left _ (c.bitFlip_sides pair' h').2)

theorem sum_none {α : Type} {xs : List α} {P : α → Prop} [DecidablePred P] (h : ∀ a ∈ xs, ¬P a) (f : α → ZMod 2) :
    (xs.map fun a => if P a then f a else 0).sum = 0 := by
  refine List.sum_eq_zero fun v hv => ?_
  obtain ⟨a, ha, rfl⟩ := List.mem_map.mp hv
  exact if_neg (h a ha)

/-! ## The phase ancillas -/

theorem opened_data {q : Qubit} (hq : q ∈ c.dataQubits) : (c.opened s p).x q = p.x q ∧ (c.opened s p).z q = p.z q := by
  have hancilla : q ∉ c.ancillas := fun h => c.data_ne_ancilla hq h rfl
  have hphase : q ∉ c.phaseAncillas := fun h => hancilla (List.mem_append_right _ h)
  simp [opened, Pauli.turn, Pauli.measuring, hancilla, hphase]

theorem opened_phase {a : Qubit} (ha : a ∈ c.phaseAncillas) : (c.opened s p).x a = s a ∧ (c.opened s p).z a = 0 := by
  have hancilla : a ∈ c.ancillas := List.mem_append_right _ ha
  simp [opened, Pauli.turn, Pauli.measuring, hancilla, ha]

theorem phase_ne_bitFlip {a : Qubit} (ha : a ∈ c.bitFlipAncillas) : a ∉ c.phaseAncillas := by
  intro h
  have hlt := (c.mem_bitFlipAncillas.mp ha).2
  have hle := (c.mem_phaseAncillas.mp h).1
  omega

theorem opened_bitFlip {a : Qubit} (ha : a ∈ c.bitFlipAncillas) :
    (c.opened s p).x a = 0 ∧ (c.opened s p).z a = s a := by
  have hancilla : a ∈ c.ancillas := List.mem_append_left _ ha
  simp [opened, Pauli.turn, Pauli.measuring, hancilla, phase_ne_bitFlip ha]

/-- Of the qubits that a phase ancilla reaches, one is qubit `i` of a block that it compares. -/
theorem sum_reached {i : Nat} (hi : i < 3) (b b' : Nat) (v : ZMod 2) :
    (∑ k ∈ Finset.range 6, if 3 * b + i = 3 * b' + k then v else 0) = if b = b' ∨ b = b' + 1 then v else 0 := by
  by_cases h : b = b' ∨ b = b' + 1
  · have hk : 3 * b + i - 3 * b' ∈ Finset.range 6 := Finset.mem_range.mpr (by omega)
    rw [if_pos h, Finset.sum_eq_single_of_mem _ hk fun k _ hne => if_neg (by omega), if_pos (by omega)]
  · rw [if_neg h]
    refine Finset.sum_eq_zero fun k hk => if_neg ?_
    have hlt := Finset.mem_range.mp hk
    omega

/-- All qubits of a block get the same X from the phase ancillas. -/
theorem x_phased_data {b i : Nat} (hb : b < c.blocks) (hi : i < 3) : (c.phased s p).x (3 * b + i) = p.x (3 * b + i) +
    ∑ b' ∈ Finset.range (c.blocks - 1), if b = b' ∨ b = b' + 1 then s (c.phaseAncilla b') else 0 := by
  have hq : 3 * b + i ∈ c.dataQubits := c.mem_dataQubits.mpr (by omega)
  rw [phased, (interact_apart phase_apart _ _).1, (opened_data hq).1, sum_phaseLayers]
  refine congrArg _ (Finset.sum_congr rfl fun b' hb' => ?_)
  have ha : c.phaseAncilla b' ∈ c.phaseAncillas := List.mem_map_of_mem (List.mem_range.mpr (Finset.mem_range.mp hb'))
  simp only [(opened_phase ha).1]
  exact sum_reached hi b b' _

theorem z_phased_data {q : Qubit} (hq : q ∈ c.dataQubits) : (c.phased s p).z q = p.z q := by
  have hnone : ∀ pair ∈ c.phaseLayers.flatten, ¬q = pair.1 := fun pair h =>
    c.data_ne_ancilla hq (List.mem_append_right _ (c.phase_sides pair h).1)
  rw [phased, (interact_apart phase_apart _ _).2, (opened_data hq).2, sum_none hnone, add_zero]

theorem x_phased_ancilla {a : Qubit} (ha : a ∈ c.ancillas) : (c.phased s p).x a = (c.opened s p).x a := by
  have hnone : ∀ pair ∈ c.phaseLayers.flatten, ¬a = pair.2 := fun pair h =>
    (c.data_ne_ancilla (c.phase_sides pair h).2 ha).symm
  rw [phased, (interact_apart phase_apart _ _).1, sum_none hnone, add_zero]

theorem z_phased_bitFlip {a : Qubit} (ha : a ∈ c.bitFlipAncillas) : (c.phased s p).z a = s a := by
  have hnone : ∀ pair ∈ c.phaseLayers.flatten, ¬a = pair.1 := fun pair h he =>
    phase_ne_bitFlip ha (he ▸ (c.phase_sides pair h).1)
  rw [phased, (interact_apart phase_apart _ _).2, (opened_bitFlip ha).2, sum_none hnone, add_zero]

/-- A phase ancilla gets the Z of the two blocks that it compares. -/
theorem z_phased_phase {b : Nat} (hb : b < c.blocks - 1) :
    (c.phased s p).z (c.phaseAncilla b) = ∑ k ∈ Finset.range 6, p.z (3 * b + k) := by
  have ha : c.phaseAncilla b ∈ c.phaseAncillas := List.mem_map_of_mem (List.mem_range.mpr hb)
  have hne : ∀ b' ∈ Finset.range (c.blocks - 1), b' ≠ b → (∑ k ∈ Finset.range 6,
      if c.phaseAncilla b = c.phaseAncilla b' then (c.opened s p).z (3 * b' + k) else 0) = 0 :=
    fun b' _ hne => Finset.sum_eq_zero fun k _ => if_neg fun h => hne (Nat.add_left_cancel h).symm
  rw [phased, (interact_apart phase_apart _ _).2, (opened_phase ha).2, zero_add, sum_phaseLayers,
    Finset.sum_eq_single_of_mem b (Finset.mem_range.mpr hb) hne]
  refine Finset.sum_congr rfl fun k hk => ?_
  have hq : 3 * b + k ∈ c.dataQubits := c.mem_dataQubits.mpr (by have hlt := Finset.mem_range.mp hk; omega)
  rw [if_pos rfl, (opened_data hq).2]

/-! ## The bit-flip ancillas -/

theorem turned_data {q : Qubit} (hq : q ∈ c.dataQubits) : ((c.phased s p).turn c.phaseAncillas).x q = (c.phased s p).x q ∧
    ((c.phased s p).turn c.phaseAncillas).z q = (c.phased s p).z q := by
  have hphase : q ∉ c.phaseAncillas := fun h => c.data_ne_ancilla hq (List.mem_append_right _ h) rfl
  simp [Pauli.turn, hphase]

theorem bitFlip_mem {b j : Nat} (hb : b < c.blocks) (hj : j < 2) : c.bitFlipAncilla b j ∈ c.bitFlipAncillas := by
  refine c.mem_bitFlipAncillas.mpr ?_
  simp only [bitFlipAncilla]
  omega

theorem bitFlip_inj {b b' j j' : Nat} (hj : j < 2) (hj' : j' < 2) :
    c.bitFlipAncilla b j = c.bitFlipAncilla b' j' ↔ b = b' ∧ j = j' := by
  have hnum : 3 * c.blocks + 2 * b + j = 3 * c.blocks + 2 * b' + j' ↔ b = b' ∧ j = j' := by omega
  exact hnum

theorem x_roundOp_data {q : Qubit} (hq : q ∈ c.dataQubits) : (c.roundOp s p).x q = (c.phased s p).x q := by
  have hnone : ∀ pair ∈ c.bitFlipLayers.flatten, ¬q = pair.2 := fun pair h =>
    c.data_ne_ancilla hq (List.mem_append_left _ (c.bitFlip_sides pair h).2)
  rw [roundOp, (interact_apart bitFlip_apart _ _).1, (turned_data hq).1, sum_none hnone, add_zero]

/-- A phase ancilla has X before the round if the two blocks that it compares have Z after it. -/
theorem x_roundOp_phase {b : Nat} (hb : b < c.blocks - 1) :
    (c.roundOp s p).x (c.phaseAncilla b) = ∑ k ∈ Finset.range 6, p.z (3 * b + k) := by
  have ha : c.phaseAncilla b ∈ c.phaseAncillas := List.mem_map_of_mem (List.mem_range.mpr hb)
  have hnone : ∀ pair ∈ c.bitFlipLayers.flatten, ¬c.phaseAncilla b = pair.2 := fun pair h he =>
    phase_ne_bitFlip (c.bitFlip_sides pair h).2 (he ▸ ha)
  rw [roundOp, (interact_apart bitFlip_apart _ _).1, sum_none hnone, add_zero, ← z_phased_phase (s := s) hb]
  simp [Pauli.turn, ha]

/-- A bit-flip ancilla has X before the round if one of the two qubits that it compares has. -/
theorem x_roundOp_bitFlip {b j : Nat} (hb : b < c.blocks) (hj : j < 2) :
    (c.roundOp s p).x (c.bitFlipAncilla b j) = (c.phased s p).x (3 * b + j) + (c.phased s p).x (3 * b + (j + 1)) := by
  have ha := bitFlip_mem hb hj
  have hstart : ((c.phased s p).turn c.phaseAncillas).x (c.bitFlipAncilla b j) = 0 := by
    have hphased := (x_phased_ancilla (s := s) (p := p) (List.mem_append_left _ ha)).trans (opened_bitFlip ha).1
    simp [Pauli.turn, phase_ne_bitFlip ha, hphased]
  have hdata : ∀ k < 2, ∀ i < 2, 3 * b + k + i ∈ c.dataQubits := fun k hk i hi => c.mem_dataQubits.mpr (by omega)
  rw [roundOp, (interact_apart bitFlip_apart _ _).1, hstart, zero_add, sum_bitFlipLayers,
    Finset.sum_eq_single_of_mem b (Finset.mem_range.mpr hb)]
  · have hsame : ∀ j' < 2, (c.bitFlipAncilla b j = c.bitFlipAncilla b j') ↔ j = j' := fun j' hj' => by
      rw [bitFlip_inj hj hj', and_iff_right rfl]
    have hk : ∀ k ∈ Finset.range 2,
        ((if c.bitFlipAncilla b j = c.bitFlipAncilla b 0
            then ((c.phased s p).turn c.phaseAncillas).x (3 * b + k) else 0) +
          if c.bitFlipAncilla b j = c.bitFlipAncilla b 1
            then ((c.phased s p).turn c.phaseAncillas).x (3 * b + k + 1) else 0) =
        (c.phased s p).x (3 * b + k + j) := by
      intro k hk
      have hk := Finset.mem_range.mp hk
      have h0 := (turned_data (s := s) (p := p) (hdata k hk 0 (by decide))).1
      have h1 := (turned_data (s := s) (p := p) (hdata k hk 1 (by decide))).1
      rw [Nat.add_zero] at h0
      rw [if_congr (hsame 0 (by decide)) rfl rfl, if_congr (hsame 1 (by decide)) rfl rfl, h0, h1]
      obtain rfl | rfl : j = 0 ∨ j = 1 := by omega
      · simp
      · simp
    rw [Finset.sum_congr rfl hk, Finset.sum_range_succ, Finset.sum_range_one]
    rw [show 3 * b + 0 + j = 3 * b + j by omega, show 3 * b + 1 + j = 3 * b + (j + 1) by omega]
  · intro b' _ hne
    have hother : ∀ j' < 2, ¬c.bitFlipAncilla b j = c.bitFlipAncilla b' j' := fun j' hj' h =>
      hne ((bitFlip_inj hj hj').mp h).1.symm
    refine Finset.sum_eq_zero fun k _ => ?_
    rw [if_neg (hother 0 (by decide)), if_neg (hother 1 (by decide)), add_zero]

/-- A data qubit gets the weights of the bit-flip ancillas that it is compared by. -/
theorem z_roundOp_data {b i : Nat} (hb : b < c.blocks) (hi : i < 3) : (c.roundOp s p).z (3 * b + i) =
    p.z (3 * b + i) + ((if i < 2 then s (c.bitFlipAncilla b 0) else 0) +
      if 1 ≤ i then s (c.bitFlipAncilla b 1) else 0) := by
  have hq : 3 * b + i ∈ c.dataQubits := c.mem_dataQubits.mpr (by omega)
  have hweight : ∀ j < 2, ((c.phased s p).turn c.phaseAncillas).z (c.bitFlipAncilla b j) = s (c.bitFlipAncilla b j) := by
    intro j hj
    have ha := bitFlip_mem hb hj
    simp [Pauli.turn, phase_ne_bitFlip ha, z_phased_bitFlip ha]
  rw [roundOp, (interact_apart bitFlip_apart _ _).2, (turned_data hq).2, z_phased_data hq, sum_bitFlipLayers,
    Finset.sum_eq_single_of_mem b (Finset.mem_range.mpr hb)]
  · have hfirst : ∀ k, 3 * b + i = 3 * b + k ↔ i = k := by omega
    have hsecond : ∀ k, 3 * b + i = 3 * b + k + 1 ↔ i = k + 1 := by omega
    have hk : ∀ k ∈ Finset.range 2,
        ((if 3 * b + i = 3 * b + k then ((c.phased s p).turn c.phaseAncillas).z (c.bitFlipAncilla b 0) else 0) +
          if 3 * b + i = 3 * b + k + 1 then ((c.phased s p).turn c.phaseAncillas).z (c.bitFlipAncilla b 1) else 0) =
        (if i = k then s (c.bitFlipAncilla b 0) else 0) + if i = k + 1 then s (c.bitFlipAncilla b 1) else 0 := by
      intro k _
      rw [if_congr (hfirst k) rfl rfl, if_congr (hsecond k) rfl rfl, hweight 0 (by decide), hweight 1 (by decide)]
    refine congrArg _ ((Finset.sum_congr rfl hk).trans ?_)
    rw [Finset.sum_range_succ, Finset.sum_range_one]
    obtain rfl | rfl | rfl : i = 0 ∨ i = 1 ∨ i = 2 := by omega
    · simp
    · simp [add_comm]
    · simp
  · intro b' _ hne
    refine Finset.sum_eq_zero fun k hk => ?_
    have hk := Finset.mem_range.mp hk
    have hfirst : 3 * b + i ≠ 3 * b' + k := by omega
    have hsecond : 3 * b + i ≠ 3 * b' + k + 1 := by omega
    rw [if_neg hfirst, if_neg hsecond, add_zero]

/-! ## The encoding -/

theorem fanOut_pair : ∀ pair ∈ c.fanOutLayers.flatten, ∃ b < c.blocks, ∃ k, (k = 1 ∨ k = 2) ∧ pair = (3 * b, 3 * b + k) := by
  intro pair hpair
  obtain ⟨layer, hlayer, hmem⟩ := List.mem_flatten.mp hpair
  obtain ⟨k, hk, rfl⟩ := List.mem_map.mp hlayer
  obtain ⟨b, hb, rfl⟩ := c.mem_fanOutLayer.mp hmem
  exact ⟨b, hb, k, by simpa using hk, rfl⟩

theorem fanOut_apart : ∀ pair ∈ c.fanOutLayers.flatten, ∀ pair' ∈ c.fanOutLayers.flatten, pair.1 ≠ pair'.2 := by
  intro pair hpair pair' hpair'
  obtain ⟨b, -, k, hk, rfl⟩ := fanOut_pair pair hpair
  obtain ⟨b', -, k', hk', rfl⟩ := fanOut_pair pair' hpair'
  have hne : 3 * b ≠ 3 * b' + k' := by omega
  exact hne

theorem mem_leaders {q : Nat} : q ∈ c.leaders ↔ ∃ b < c.blocks, 3 * b = q := by simp [leaders]

/-- The first qubit of a block has X before the encoding if the block has Z after it. -/
theorem x_encodedOp_leader {b : Nat} (hb : b < c.blocks) :
    (c.encodedOp p).x (3 * b) = ∑ i ∈ Finset.range 3, p.z (3 * b + i) := by
  have hleader : 3 * b ∈ c.leaders := mem_leaders.mpr ⟨b, hb, rfl⟩
  have hne : ∀ b' ∈ Finset.range c.blocks, b' ≠ b →
      ((if 3 * b = 3 * b' then p.z (3 * b' + 1) else 0) + if 3 * b = 3 * b' then p.z (3 * b' + 2) else 0) = 0 := by
    intro b' _ hne
    have hdiff : 3 * b ≠ 3 * b' := by omega
    rw [if_neg hdiff, if_neg hdiff, add_zero]
  have hz := (interact_apart (fanOut_apart (c := c)) p (3 * b)).2
  rw [sum_fanOutLayers, Finset.sum_eq_single_of_mem b (Finset.mem_range.mpr hb) hne, if_pos rfl, if_pos rfl] at hz
  rw [encodedOp, Pauli.turn]
  simp only [hleader, if_true, hz, Finset.sum_range_succ, Finset.sum_range_zero, zero_add, Nat.add_zero]
  ring

/-- Another qubit of a block has X before the encoding if it differs from the first after it. -/
theorem x_encodedOp_follower {b i : Nat} (hb : b < c.blocks) (hi : i = 1 ∨ i = 2) :
    (c.encodedOp p).x (3 * b + i) = p.x (3 * b + i) + p.x (3 * b) := by
  have hleader : 3 * b + i ∉ c.leaders := by
    intro h
    obtain ⟨b', -, he⟩ := mem_leaders.mp h
    omega
  have hne : ∀ b' ∈ Finset.range c.blocks, b' ≠ b → ((if 3 * b + i = 3 * b' + 1 then p.x (3 * b') else 0) +
      if 3 * b + i = 3 * b' + 2 then p.x (3 * b') else 0) = 0 := by
    intro b' _ hne
    have hdiff : 3 * b + i ≠ 3 * b' + 1 ∧ 3 * b + i ≠ 3 * b' + 2 := by omega
    rw [if_neg hdiff.1, if_neg hdiff.2, add_zero]
  have hx := (interact_apart (fanOut_apart (c := c)) p (3 * b + i)).1
  rw [sum_fanOutLayers, Finset.sum_eq_single_of_mem b (Finset.mem_range.mpr hb) hne] at hx
  rw [encodedOp, Pauli.turn]
  simp only [hleader, if_false, hx]
  rcases hi with rfl | rfl
  · simp
  · simp

theorem x_encodedOp_ancilla {a : Qubit} (ha : a ∈ c.ancillas) : (c.encodedOp p).x a = p.x a := by
  have hdata : ∀ b i : Nat, b < c.blocks → i < 3 → a ≠ 3 * b + i := fun b i hb hi =>
    (c.data_ne_ancilla (c.mem_dataQubits.mpr (by omega)) ha).symm
  have hleader : a ∉ c.leaders := by
    intro h
    obtain ⟨b, hb, he⟩ := mem_leaders.mp h
    exact hdata b 0 hb (by decide) he.symm
  have hnone : ∀ pair ∈ c.fanOutLayers.flatten, ¬a = pair.2 := by
    intro pair hpair
    obtain ⟨b, hb, k, hk, rfl⟩ := fanOut_pair pair hpair
    exact hdata b k hb (by omega)
  rw [encodedOp, Pauli.turn]
  simp only [hleader, if_false]
  rw [(interact_apart fanOut_apart p a).1, sum_none hnone, add_zero]

end ShorCode

end QuantumMemory

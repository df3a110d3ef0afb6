/-
  QuantumMemory.Proofs.Shor.Distance — how many faults a Shor memory takes to fail unseen.

  The final outcomes of a block, read out in the X basis, measure X on its data. Pulled back,
  they stay on the block, its data and its two bit-flip ancillas (`OnBlock`): every interaction
  is inside a block or controlled by a phase ancilla (`Stays`), and that has no X of its own.
  So no fault meets two blocks (`narrow_compiled`).

  When no detector fires, a phase ancilla reads zero in every round, and its closing detector
  makes the blocks on its two sides agree (`blocks_agree`). A flip of the observable is one of
  the first block, hence of all of them, and that takes a fault for each (`blocks_le_faults`).
-/

import QuantumMemory.Proofs.Memory.DataErrors
import QuantumMemory.Proofs.Memory.Rows
import QuantumMemory.Proofs.Shor.Addressing
import QuantumMemory.Proofs.Shor.Round

namespace QuantumMemory

namespace ShorCode

open Layout Memory

variable (c : ShorCode)

/-! ## Blocks -/

/-- The block of a data qubit or of a bit-flip ancilla; phase ancillas stand between the blocks. -/
def blockOf? (q : Qubit) : Option Nat :=
  if q < 3 * c.blocks then some (q / 3)
  else if q < 5 * c.blocks then some ((q - 3 * c.blocks) / 2)
  else none

/-- Away from the qubits of a block there is nothing, and on them no Z. -/
structure OnBlock (b : Nat) (p : Pauli) : Prop where
  z : ∀ q, p.z q = 0
  x : ∀ q, c.blockOf? q ≠ some b → p.x q = 0

/-- An interaction inside a block, or one that a qubit between the blocks controls. -/
def Stays (pair : Qubit × Qubit) : Prop := c.blockOf? pair.1 = none ∨ c.blockOf? pair.1 = c.blockOf? pair.2

theorem blockOf?_data {b i : Nat} (hb : b < c.blocks) (hi : i < 3) : c.blockOf? (3 * b + i) = some b := by
  have hlt : 3 * b + i < 3 * c.blocks := by omega
  have hdiv : (3 * b + i) / 3 = b := by omega
  rw [blockOf?, if_pos hlt, hdiv]

theorem blockOf?_bitFlip {b j : Nat} (hb : b < c.blocks) (hj : j < 2) : c.blockOf? (c.bitFlipAncilla b j) = some b := by
  have hge : ¬3 * c.blocks + 2 * b + j < 3 * c.blocks := by omega
  have hlt : 3 * c.blocks + 2 * b + j < 5 * c.blocks := by omega
  have hdiv : (3 * c.blocks + 2 * b + j - 3 * c.blocks) / 2 = b := by omega
  rw [blockOf?, bitFlipAncilla, if_neg hge, if_pos hlt, hdiv]

theorem blockOf?_phase {a : Nat} (ha : a ∈ c.phaseAncillas) : c.blockOf? a = none := by
  have hge := (c.mem_phaseAncillas.mp ha).1
  have hdata : ¬a < 3 * c.blocks := by omega
  rw [blockOf?, if_neg hdata, if_neg (Nat.not_lt.mpr hge)]

theorem fanOutLayers_stay : ∀ layer ∈ c.fanOutLayers, ∀ pair ∈ layer, c.Stays pair := by
  intro layer hlayer pair hpair
  obtain ⟨k, hk, rfl⟩ := List.mem_map.mp hlayer
  obtain ⟨b, hb, rfl⟩ := c.mem_fanOutLayer.mp hpair
  have hk' : k = 1 ∨ k = 2 := by simpa using hk
  exact .inr ((c.blockOf?_data hb (i := 0) (by decide)).trans (c.blockOf?_data hb (by omega)).symm)

theorem bitFlipLayers_stay : ∀ layer ∈ c.bitFlipLayers, ∀ pair ∈ layer, c.Stays pair := by
  intro layer hlayer pair hpair
  obtain ⟨k, hk, rfl⟩ := List.mem_map.mp hlayer
  have hk := List.mem_range.mp hk
  obtain ⟨b, hb, rfl | rfl⟩ := c.mem_bitFlipLayer.mp hpair
  · exact .inr ((c.blockOf?_data hb (by omega)).trans (c.blockOf?_bitFlip hb (by decide)).symm)
  · exact .inr ((c.blockOf?_data hb (i := k + 1) (by omega)).trans (c.blockOf?_bitFlip hb (by decide)).symm)

theorem phaseLayers_stay : ∀ layer ∈ c.phaseLayers, ∀ pair ∈ layer, c.Stays pair := by
  intro layer hlayer pair hpair
  obtain ⟨k, hk, rfl⟩ := List.mem_map.mp hlayer
  exact .inl (c.blockOf?_phase (c.phaseLayer_sides (List.mem_range.mp hk) hpair).1)

variable {c} {b : Nat}

/-- Off a block the control is where the target is. -/
theorem Stays.control {pair : Qubit × Qubit} (h : c.Stays pair) (hb : c.blockOf? pair.2 ≠ some b) :
    c.blockOf? pair.1 ≠ some b := by
  rcases h with hnone | hsame
  · rw [hnone]
    exact (Option.some_ne_none b).symm
  · rwa [hsame]

/-! ## Operators stay on their block -/

namespace OnBlock

variable {p : Pauli} (h : c.OnBlock b p)

include h

theorem interact {pairs : List (Qubit × Qubit)} (hstay : ∀ pair ∈ pairs, c.Stays pair) :
    c.OnBlock b (interact pairs p) := by
  induction pairs with
  | nil => exact h
  | cons pair rest ih =>
    obtain ⟨hpair, hrest⟩ := List.forall_mem_cons.mp hstay
    have hlater := ih hrest
    refine ⟨fun q => ?_, fun q hq => ?_⟩
    · show (Layout.interact rest p).z q + (if q = pair.1 then (Layout.interact rest p).z pair.2 else 0) = 0
      rw [hlater.z, hlater.z, ite_self, add_zero]
    · show (Layout.interact rest p).x q + (if q = pair.2 then (Layout.interact rest p).x pair.1 else 0) = 0
      rw [hlater.x q hq, zero_add]
      split
      · rename_i he
        exact hlater.x pair.1 (hpair.control (he ▸ hq))
      · rfl

theorem layers {layers : List (List (Qubit × Qubit))} (hstay : ∀ layer ∈ layers, ∀ pair ∈ layer, c.Stays pair) :
    c.OnBlock b (Layout.interact layers.flatten p) := by
  refine h.interact fun pair hpair => ?_
  obtain ⟨layer, hlayer, hmem⟩ := List.mem_flatten.mp hpair
  exact hstay layer hlayer pair hmem

/-- Outside of the block it does not matter which basis a qubit is read in. -/
theorem turn {qubits : List Qubit} (hout : ∀ q ∈ qubits, c.blockOf? q = none) : c.OnBlock b (p.turn qubits) := by
  refine ⟨fun q => ?_, fun q hq => ?_⟩
  · by_cases hq : q ∈ qubits
    · have hx := h.x q (hout q hq ▸ (Option.some_ne_none b).symm)
      simpa [Pauli.turn, hq] using hx
    · simpa [Pauli.turn, hq] using h.z q
  · by_cases hq' : q ∈ qubits
    · simpa [Pauli.turn, hq'] using h.z q
    · simpa [Pauli.turn, hq'] using h.x q hq

theorem measuring (qubits : List Qubit) : c.OnBlock b (p.measuring qubits fun _ => 0) := by
  refine ⟨fun q => ?_, fun q hq => ?_⟩
  · simp [Pauli.measuring, h.z]
  · by_cases hq' : q ∈ qubits <;> simp [Pauli.measuring, hq', h.x q hq]

theorem opened : c.OnBlock b (c.opened (fun _ => 0) p) := (h.measuring _).turn fun _ => c.blockOf?_phase

theorem phased : c.OnBlock b (c.phased (fun _ => 0) p) := h.opened.layers c.phaseLayers_stay

theorem roundOp : c.OnBlock b (c.roundOp (fun _ => 0) p) :=
  (h.phased.turn fun _ => c.blockOf?_phase).layers c.bitFlipLayers_stay

end OnBlock

/-- How the outcomes of a block are weighted: its final outcomes count, and no others. -/
def blockWeight (rounds b : Nat) : Term → ZMod 2 := countOf ((block b).map (·, rounds))

/-- Before the read-out nothing of a block has been measured. -/
theorem blockWeight_early {rounds r : Nat} (hr : r < rounds) (b : Nat) :
    (fun q => blockWeight rounds b (q, r)) = fun _ => 0 :=
  funext fun q => countOf_logical_check _ hr q

theorem blockWeight_away {rounds b q : Nat} (hq : q ∈ c.dataQubits) (hb : c.blockOf? q ≠ some b) :
    blockWeight rounds b (q, rounds) = 0 := by
  rw [blockWeight, countOf, List.count_eq_zero.mpr, Nat.cast_zero]
  intro hmem
  have hcases : q = 3 * b ∨ q = 3 * b + 1 ∨ q = 3 * b + 2 := by simpa [block] using hmem
  have hdiv : q / 3 = b := by omega
  exact hb (by rw [blockOf?, if_pos (c.mem_dataQubits.mp hq), hdiv])

/-- Before every round the final outcomes of a block measure X on it. -/
theorem startOp_onBlock (b : Nat) {rounds r j : Nat} (hj : r + j = rounds) :
    c.OnBlock b (c.startOp (blockWeight rounds b) rounds r j) := by
  induction j generalizing r with
  | zero =>
    refine ⟨fun q => ?_, fun q hq => ?_⟩
    · by_cases hdata : q ∈ c.dataQubits <;> simp [startOp, Pauli.turn, Pauli.measuring, hdata]
    · by_cases hdata : q ∈ c.dataQubits
      · simpa [startOp, Pauli.turn, Pauli.measuring, hdata] using blockWeight_away hdata hq
      · simp [startOp, Pauli.turn, Pauli.measuring, hdata]
  | succ j ih =>
    rw [startOp, blockWeight_early (by omega)]
    exact (ih (by omega)).roundOp

/-! ## No fault meets two blocks -/

section Narrow

variable {n : Nat} {p : Nat → Pauli} (hp : ∀ b, c.OnBlock b (p b))

include hp

theorem one_block (q : Qubit) : ∃ b₀, ∀ b, b ≠ b₀ → (p b).x q = 0 ∧ (p b).z q = 0 := by
  refine ⟨(c.blockOf? q).getD 0, fun b hb => ⟨(hp b).x q fun hq => hb ?_, (hp b).z q⟩⟩
  rw [hq, Option.getD_some]

theorem one_block_pair {pair : Qubit × Qubit} (hpair : c.Stays pair) {f : Pauli} (hf : f.OnlyOn [pair.1, pair.2]) :
    ∃ b₀, ∀ b, b ≠ b₀ → Pauli.pairing n f (p b) = 0 := by
  refine ⟨(c.blockOf? pair.2).getD 0, fun b hb => Pauli.pairing_apart hf ?_⟩
  have hother : c.blockOf? pair.2 ≠ some b := fun hq => hb (by rw [hq, Option.getD_some])
  exact List.forall_mem_cons.mpr ⟨⟨(hp b).x _ (hpair.control hother), (hp b).z _⟩,
    List.forall_mem_singleton.mpr ⟨(hp b).x _ hother, (hp b).z _⟩⟩

theorem narrow_noise (r : Binary64) (qubits : List Qubit) (w : Nat → List (ZMod 2)) :
    Along (Narrow n) (noise1 r qubits) w p := narrow_noise1 r fun q _ => one_block hp q

theorem narrow_layers (p2 : Binary64) {layers : List (List (Qubit × Qubit))}
    (hstay : ∀ layer ∈ layers, ∀ pair ∈ layer, c.Stays pair) (w : Nat → List (ZMod 2)) :
    Along (Narrow n) (layers.flatMap (layerProgram p2)) w p := by
  induction layers generalizing w with
  | nil => exact trivial
  | cons layer rest ih =>
    obtain ⟨hlayer, hrest⟩ := List.forall_mem_cons.mp hstay
    rw [List.flatMap_cons, layerProgram, along_append]
    refine ⟨along_append.mpr ⟨along_append.mpr ⟨narrow_kept rfl, narrow_noise2 p2 fun pair hpair f hf => ?_⟩,
      ⟨narrow_of_quiet rfl _, trivial⟩⟩, ih hrest _⟩
    simp only [pull_layers]
    exact one_block_pair (fun b => (hp b).layers hrest) (hlayer pair hpair) hf

/-- In a round no fault meets two blocks. -/
theorem narrow_extraction (p1 p2 : Binary64) (round : Nat) (more : Nat → List (ZMod 2)) :
    Along (Narrow n) (c.extraction p1 p2 round) (fun b => (c.ancillas.map fun _ => 0) ++ more b) p := by
  have hm : ∀ b, pull (Instruction.measureReset c.ancillas).kept ((c.ancillas.map fun _ => 0) ++ more b) (p b) =
      (p b).measuring c.ancillas fun _ => 0 := by
    intro b
    rw [pull_kept]
    exact Pauli.clear_weighted c.ancillas_nodup (p b) _ (more b)
  have hmeasured : ∀ b, c.OnBlock b ((p b).measuring c.ancillas fun _ => 0) := fun b => (hp b).measuring _
  have hclosed : ∀ b, c.OnBlock b (((p b).measuring c.ancillas fun _ => 0).turn c.phaseAncillas) :=
    fun b => (hp b).opened
  have hphased : ∀ b, c.OnBlock b (Layout.interact c.phaseLayers.flatten
      (((p b).measuring c.ancillas fun _ => 0).turn c.phaseAncillas)) := fun b => (hp b).phased
  simp only [extraction, along_append, pull_append, Circuit.measurementsOf_append, measurementsOf_first, measurementsOf_gate,
    measurementsOf_noise1, measurementsOf_layers, pull_hadamard c.phaseAncillas_nodup, pull_noise1, pull_layers,
    Nat.add_zero, List.drop_zero, hm]
  refine ⟨⟨⟨⟨⟨⟨?_, narrow_layers (fun b => (hphased b).turn fun _ => c.blockOf?_phase) p2 c.bitFlipLayers_stay _⟩,
    narrow_kept rfl, narrow_noise hphased p1 _ _⟩, narrow_layers hclosed p2 c.phaseLayers_stay _⟩,
    narrow_kept rfl, narrow_noise hmeasured p1 _ _⟩, narrow_noise hmeasured p1 _ _⟩, narrow_kept rfl⟩
  split
  · exact trivial
  · exact narrow_noise (fun b => (hp b).roundOp) p1 _ _

/-- In the encoding, too. -/
theorem narrow_encoding (p1 p2 : Binary64) (w : Nat → List (ZMod 2)) :
    Along (Narrow n) (c.encoding p1 p2) w p := by
  have hspread : ∀ b, c.OnBlock b (Layout.interact c.fanOutLayers.flatten (p b)) :=
    fun b => (hp b).layers c.fanOutLayers_stay
  simp only [encoding, along_append, pull_append, pull_noise1, pull_hadamard c.leaders_nodup, pull_layers]
  refine ⟨⟨⟨narrow_kept rfl, narrow_noise1 p1 fun q _ => ?_⟩, narrow_kept rfl, narrow_noise hspread p1 _ _⟩,
    narrow_layers hp p2 c.fanOutLayers_stay _⟩
  -- Before the leaders are turned the operator is X or Z, on a leader of the block.
  obtain ⟨b₀, hb₀⟩ := one_block hspread q
  refine ⟨b₀, fun b hb => ?_⟩
  obtain ⟨hx, hz⟩ := hb₀ b hb
  simp only [Layout.interact] at hx hz
  by_cases hq : q ∈ c.leaders <;> simp [Pauli.turn, hq, hx, hz]

end Narrow

variable (c) in
theorem narrow_rest (n : Nat) (p1 p2 : Binary64) {rounds r j : Nat} (hj : r + j = rounds) :
    Along (Narrow n) (c.rest p1 p2 rounds r j) (fun b => c.register.weights (blockWeight rounds b) rounds r j) fun _ => 0 := by
  induction j generalizing r with
  | zero =>
    have hn : c.dataQubits.Nodup := List.nodup_range
    have hhead : c.readout p1 rounds = noise1 p1 c.dataQubits ++ ((Instruction.gate .h c.dataQubits).kept ++
        ((Instruction.measure c.dataQubits).kept ++ (detectorsFor (c.register.finalLedger rounds) (c.readoutTerms rounds) ++
          (Instruction.observable 0 ((c.register.finalLedger rounds).offsets (logical.map (·, rounds)))).kept))) := by
      simp only [readout, List.append_assoc]
    have hstart : ∀ b, pull ((Instruction.gate .h c.dataQubits).kept ++
        ((Instruction.measure c.dataQubits).kept ++ (detectorsFor (c.register.finalLedger rounds) (c.readoutTerms rounds) ++
          (Instruction.observable 0 ((c.register.finalLedger rounds).offsets (logical.map (·, rounds)))).kept)))
        (c.register.weights (blockWeight rounds b) rounds r 0) 0 = c.startOp (blockWeight rounds b) rounds r 0 := by
      intro b
      have hall := c.pull_rest p1 p2 rounds (blockWeight rounds b) r 0
      rwa [rest, hhead, pull_append, measurementsOf_noise1, List.drop_zero, pull_noise1] at hall
    rw [rest, hhead]
    refine along_append.mpr ⟨narrow_noise1 p1 fun q _ => ?_, along_append.mpr ⟨narrow_kept rfl, along_append.mpr
      ⟨narrow_kept rfl, along_append.mpr ⟨narrow_detectorsFor _ _, narrow_kept rfl⟩⟩⟩⟩
    simp only [measurementsOf_noise1, List.drop_zero, hstart]
    exact one_block (fun b => startOp_onBlock b hj) q
  | succ j ih =>
    have hdrop : ∀ ω, (c.register.weights ω rounds r (j + 1)).drop c.ancillas.length =
        c.register.weights ω rounds (r + 1) j := by
      intro ω
      rw [← register_allChecks, weights_drop]
    have hweights : ∀ b, c.register.weights (blockWeight rounds b) rounds r (j + 1) =
        (c.ancillas.map fun _ => 0) ++ c.register.weights (blockWeight rounds b) rounds (r + 1) j := by
      intro b
      rw [weights, register_allChecks, blockWeight_early (by omega)]
    rw [rest, roundProgram, along_append, along_append, Circuit.measurementsOf_append, measurementsOf_extraction,
      measurementsOf_detectorsFor]
    simp only [Nat.add_zero, hdrop, c.pull_rest, pull_detectorsFor]
    refine ⟨⟨?_, narrow_detectorsFor _ _⟩, ih (by omega)⟩
    simp only [hweights]
    exact narrow_extraction (fun b => startOp_onBlock b (by omega)) p1 p2 r _

variable (c) in
/-- In a memory no fault meets two blocks. -/
theorem narrow_compiled (n : Nat) (p1 p2 : Binary64) (rounds : Nat) :
    Along (Narrow n) (c.program p1 p2 rounds ++ c.readout p1 rounds)
      (fun b => (c.register.finalLedger rounds).terms.map (blockWeight rounds b)) fun _ => 0 := by
  have hj : 0 + rounds = rounds := Nat.zero_add _
  have hw : ∀ b, (c.register.finalLedger rounds).terms.map (blockWeight rounds b) =
      c.register.weights (blockWeight rounds b) rounds 0 rounds := by
    intro b
    rw [← weights_rest (blockWeight rounds b) rounds hj]
    rfl
  have hm : Circuit.measurementsOf (c.encoding p1 p2) = 0 := by
    rw [← length_measuredBy, measuredBy_encoding]
    rfl
  rw [c.program_rest p1 p2 rounds hj, program]
  simp only [hw, along_append, hm, List.drop_zero, c.pull_rest]
  exact ⟨narrow_encoding (fun b => startOp_onBlock b hj) p1 p2 _, c.narrow_rest n p1 p2 hj⟩

/-! ## What silent detectors leave -/

/-- Where all detectors are silent, the blocks have the same parity in the end. -/
theorem blocks_agree {reading : Term → ZMod 2} {rounds : Nat} (hpos : 1 ≤ rounds)
    (h : ∀ ts ∈ c.detectorTerms rounds, (ts.map reading).sum = 0) {b : Nat} (hb : b < c.blocks) :
    ((block b).map fun q => reading (q, rounds)).sum = ((block 0).map fun q => reading (q, rounds)).sum := by
  have hround : ∀ r < rounds, ∀ ts ∈ c.roundTerms r, (ts.map reading).sum = 0 := fun r hr ts hts =>
    h ts (List.mem_append_left _ (List.mem_flatMap.mpr ⟨r, List.mem_range.mpr hr, hts⟩))
  have hancilla : ∀ a ∈ c.ancillas, ∀ r < rounds, reading (a, r) = 0 := by
    intro a ha r
    induction r with
    | zero =>
      intro hr
      simpa using hround 0 hr _ (List.mem_map.mpr ⟨a, ha, rfl⟩)
    | succ r ih =>
      intro hr
      simpa [ih (by omega)] using hround (r + 1) hr _ (List.mem_map.mpr ⟨a, ha, rfl⟩)
  induction b with
  | zero => rfl
  | succ b ih =>
    rw [← ih (by omega)]
    have hlt : b < c.blocks - 1 := by omega
    have hphase := hancilla _ (List.mem_append_right _ (phaseAncilla_mem hlt)) (rounds - 1) (by omega)
    have hclosing := h _ (List.mem_append_right _ (List.mem_map.mpr ⟨b, List.mem_range.mpr hlt, rfl⟩))
    rw [closingTerms, List.map_append, List.sum_append, List.map_map, List.map_append, List.sum_append, List.map_singleton,
      List.sum_singleton, hphase, add_zero] at hclosing
    exact (CharTwo.add_eq_zero.mp hclosing).symm

/-- A memory whose observable flips while its detectors are silent has a fault for every block. -/
theorem blocks_le_faults (hr : c.register.InReach) (hblocks : 1 ≤ c.blocks) {rounds : Nat} (hpos : 1 ≤ rounds)
    {faults : List Fault} (hfaults : ∀ fault ∈ faults, (c.compiled rounds).circuit.CanFail fault)
    (hsilent : ∀ a ∈ (c.compiled rounds).circuit.detectorFlips (errorsOf faults), a = 0)
    (hflip : (c.compiled rounds).circuit.observableFlips (errorsOf faults) ≠ [(0, 0)]) : c.blocks ≤ faults.length := by
  set flipped := (c.compiled rounds).circuit.flips (errorsOf faults) with hflipped
  have hlen : flipped.length = (c.register.finalLedger rounds).length := by
    rw [hflipped, Circuit.flips, length_flips, instructions_compiled, length_finalLedger]
  have hdetectors : ∀ ts ∈ c.detectorTerms rounds, (ts.map ((c.register.finalLedger rounds).reading flipped)).sum = 0 := by
    intro ts hts
    refine hsilent _ ?_
    rw [Circuit.detectorFlips, ← hflipped, detector_parities hr hpos hlen]
    exact List.mem_map.mpr ⟨ts, hts, rfl⟩
  have hodd : ((block 0).map fun q => (c.register.finalLedger rounds).reading flipped (q, rounds)).sum ≠ 0 := by
    intro hzero
    refine hflip ?_
    rw [Circuit.observableFlips, ← hflipped, observable_parities hr hpos hlen hblocks, List.map_map]
    exact congrArg (fun a => [(0, a)]) hzero
  refine le_length_of_narrow (compiled_within _ _ rounds)
    (c.narrow_compiled c.numQubits c.params.depolarize1Rate c.params.depolarize2Rate rounds)
    (fun fault hmem => ?_) fun b hb => ?_
  · obtain ⟨i, hi, hfail⟩ := hfaults fault hmem
    rw [instructions_compiled] at hi
    exact ⟨i, hi, hfail⟩
  · have hsum := Ledger.sum_readings (c.register.finalLedger rounds) flipped ((block b).map (·, rounds))
    rw [List.map_map] at hsum
    rw [hflipped, Circuit.flips, instructions_compiled] at hsum
    rw [blockWeight, ← hsum, ← instructions_compiled, ← Circuit.flips, ← hflipped]
    exact (blocks_agree hpos hdetectors hb).trans_ne hodd

/-! ## The memory -/

/-- The memory can be built at every positive multiple of three, and fewer faults than it has
    blocks, anywhere in its noise, either fire a detector or leave the observable as it is. -/
theorem shor_fault_distance {params : CodeParams} (hp : params.validate = .ok ()) (hthree : params.distance % 3 = 0)
    (hsize : 6 * params.distance < 2 ^ 31) {rounds : Nat} (hpos : 1 ≤ rounds) :
    ∃ c e, make params = .ok c ∧ c.buildMemory rounds = .ok e ∧
      ∀ faults : List Fault, faults.length < params.distance → (∀ fault ∈ faults, e.circuit.CanFail fault) →
        (∀ a ∈ e.circuit.detectorFlips (errorsOf faults), a = 0) →
        e.circuit.observableFlips (errorsOf faults) = [(0, 0)] := by
  obtain ⟨hblocks, hmake⟩ := make_eq hp hthree
  obtain ⟨h1, h2⟩ := usable_of_validate hp
  set c : ShorCode := ⟨params⟩ with hc
  refine ⟨c, c.compiled rounds, hmake, c.buildMemory_eq hsize hblocks h1 h2 hpos, ?_⟩
  intro faults hfew hfaults hsilent
  by_contra hflip
  have hmany : params.distance ≤ faults.length :=
    blocks_le_faults (c.register_inReach hsize) hblocks hpos hfaults hsilent hflip
  omega

/-- At distance 3, Z on two qubits of a block before the read-out: two faults that no detector sees. -/
theorem shor_fault_distance_three :
    ∃ c e, make ⟨3, .one, .one⟩ = .ok c ∧ c.buildMemory 1 = .ok e ∧
      (∀ fault ∈ [(⟨48, .zOn {0}⟩ : Fault), ⟨48, .zOn {1}⟩], e.circuit.CanFail fault) ∧
      (∀ a ∈ e.circuit.detectorFlips (errorsOf [⟨48, .zOn {0}⟩, ⟨48, .zOn {1}⟩]), a = 0) ∧
      e.circuit.observableFlips (errorsOf [⟨48, .zOn {0}⟩, ⟨48, .zOn {1}⟩]) = [(0, 0)] := by
  obtain ⟨c, e, hmake, hbuild, hunseen⟩ := shor_fault_distance (by rfl : CodeParams.validate ⟨3, .one, .one⟩ = .ok ())
    (by decide) (by decide) (by decide : 1 ≤ 1)
  have hrun : ((make ⟨3, .one, .one⟩).toOption.bind fun c => (c.buildMemory 1).toOption).any (fun e =>
      e.circuit.instructions[48]? = some (.noise (.depolarize1 .one) (List.range 9)) ∧
        ∀ a ∈ e.circuit.detectorFlips (errorsOf [⟨48, .zOn {0}⟩, ⟨48, .zOn {1}⟩]), a = 0) = true := by decide +kernel
  simp only [hmake, hbuild, Except.toOption, Option.bind_some, Option.any_some, decide_eq_true_eq] at hrun
  obtain ⟨hnoise, hsilent⟩ := hrun
  have hfault : ∀ q, q < 9 → e.circuit.CanFail ⟨48, .zOn {q}⟩ := by
    intro q hq
    refine ⟨_, hnoise, fun h0 => ?_, q, List.mem_range.mpr hq, fun q' hq' => ?_⟩
    · have hz := congrArg (fun p : Pauli => p.z q) h0
      simp [Pauli.zOn] at hz
    · have hne : q' ∉ ({q} : Finset Qubit) := by simpa using hq'
      exact ⟨rfl, if_neg hne⟩
  have hfaults : ∀ fault ∈ [(⟨48, .zOn {0}⟩ : Fault), ⟨48, .zOn {1}⟩], e.circuit.CanFail fault :=
    List.forall_mem_cons.mpr ⟨hfault 0 (by decide), List.forall_mem_singleton.mpr (hfault 1 (by decide))⟩
  exact ⟨c, e, hmake, hbuild, hfaults, hsilent, hunseen _ (by decide) hfaults hsilent⟩

end ShorCode

end QuantumMemory

/-
  QuantumMemory.Proofs.Shor.Program — the instructions and the measurements of a Shor memory.

  The code numbers its data first, then the pairs of bit-flip ancillas block by block, then
  the phase ancillas, so every group of qubits is a range (`bitFlipAncillas_eq`,
  `phaseAncillas_eq`) and no layer names a qubit twice. What is measured and entered in
  the ledger is that of a layout with these groups (`register`); what differs from the
  memories of graphs is written down here: the encoding, the order of the layers, the
  comparison of all ancillas with nothing in the first round, and the read-out in the X
  basis. `buildMemory_eq` says that the actions do just that.
-/

import QuantumMemory.Code.Basic
import QuantumMemory.Proofs.Build.Program

namespace QuantumMemory

/-- Pairs that name no qubit twice, their first qubits being apart from their second ones. -/
theorem flattenPairs_nodup {pairs : List (Qubit × Qubit)} (h1 : (pairs.map Prod.fst).Nodup)
    (h2 : (pairs.map Prod.snd).Nodup) (hapart : ∀ p ∈ pairs, ∀ p' ∈ pairs, p.1 ≠ p'.2) :
    (flattenPairs pairs).Nodup := by
  have hperm : (flattenPairs pairs).Perm (pairs.map Prod.fst ++ pairs.map Prod.snd) := by
    clear h1 h2 hapart
    induction pairs with
    | nil => exact .nil
    | cons p rest ih => exact .cons _ ((ih.cons p.2).trans List.perm_middle.symm)
  refine hperm.nodup_iff.mpr (List.nodup_append.mpr ⟨h1, h2, ?_⟩)
  intro q hq q' hq' he
  obtain ⟨p, hp, rfl⟩ := List.mem_map.mp hq
  obtain ⟨p', hp', rfl⟩ := List.mem_map.mp hq'
  exact hapart p hp p' hp' he

namespace ShorCode

open Layout Memory

variable (c : ShorCode)

/-! ## Numbering -/

/-- Pairs of numbers block by block are a range. -/
theorem pairs_eq_range (start n : Nat) :
    ((List.range n).flatMap fun b => [start + 2 * b, start + 2 * b + 1]) = List.range' start (2 * n) := by
  induction n with
  | zero => rfl
  | succ n ih =>
    rw [List.range_succ, List.flatMap_append, ih, Nat.mul_succ, ← List.range'_append_1]
    simp [List.range'_succ]

theorem bitFlipAncillas_eq : c.bitFlipAncillas = List.range' (3 * c.blocks) (2 * c.blocks) :=
  pairs_eq_range _ _

theorem phaseAncillas_eq : c.phaseAncillas = List.range' (5 * c.blocks) (c.blocks - 1) :=
  (List.range'_eq_map_range).symm

theorem ancillas_eq : c.ancillas = List.range' (3 * c.blocks) (3 * c.blocks - 1) := by
  rw [ancillas, bitFlipAncillas_eq, phaseAncillas_eq]
  rcases Nat.eq_zero_or_pos c.blocks with h | h
  · rw [h]
    rfl
  · rw [show 5 * c.blocks = 3 * c.blocks + 2 * c.blocks by omega, List.range'_append_1,
      show 2 * c.blocks + (c.blocks - 1) = 3 * c.blocks - 1 by omega]

theorem mem_dataQubits {q : Nat} : q ∈ c.dataQubits ↔ q < 3 * c.blocks := List.mem_range

theorem mem_ancillas {q : Nat} : q ∈ c.ancillas ↔ 3 * c.blocks ≤ q ∧ q < 6 * c.blocks - 1 := by
  rw [ancillas_eq, List.mem_range'_1]
  omega

theorem mem_bitFlipAncillas {q : Nat} : q ∈ c.bitFlipAncillas ↔ 3 * c.blocks ≤ q ∧ q < 5 * c.blocks := by
  rw [bitFlipAncillas_eq, List.mem_range'_1]
  omega

theorem mem_phaseAncillas {q : Nat} : q ∈ c.phaseAncillas ↔ 5 * c.blocks ≤ q ∧ q < 6 * c.blocks - 1 := by
  rw [phaseAncillas_eq, List.mem_range'_1]
  omega

theorem data_ne_ancilla {q a : Qubit} (hq : q ∈ c.dataQubits) (ha : a ∈ c.ancillas) : q ≠ a := by
  rintro rfl
  have hlt := c.mem_dataQubits.mp hq
  have hle := (c.mem_ancillas.mp ha).1
  omega

theorem length_ancillas : c.ancillas.length = 3 * c.blocks - 1 := by rw [ancillas_eq, List.length_range']

/-! ## Layers -/

def fanOutLayers : List (List (Qubit × Qubit)) := [1, 2].map c.fanOutLayer

def bitFlipLayers : List (List (Qubit × Qubit)) := (List.range 2).map c.bitFlipLayer

def phaseLayers : List (List (Qubit × Qubit)) := (List.range 6).map c.phaseLayer

theorem mem_fanOutLayer {k : Nat} {pair : Qubit × Qubit} :
    pair ∈ c.fanOutLayer k ↔ ∃ b < c.blocks, pair = (3 * b, 3 * b + k) := by
  simp [fanOutLayer, eq_comm]

theorem mem_bitFlipLayer {k : Nat} {pair : Qubit × Qubit} : pair ∈ c.bitFlipLayer k ↔
    ∃ b < c.blocks, pair = (3 * b + k, c.bitFlipAncilla b 0) ∨ pair = (3 * b + k + 1, c.bitFlipAncilla b 1) := by
  simp [bitFlipLayer]

theorem mem_phaseLayer {k : Nat} {pair : Qubit × Qubit} :
    pair ∈ c.phaseLayer k ↔ ∃ b < c.blocks - 1, pair = (c.phaseAncilla b, 3 * b + k) := by
  simp [phaseLayer, eq_comm]

theorem block_inj (k b b' : Nat) (h : 3 * b + k = 3 * b' + k) : b = b' := by omega

/-- Data qubits control the layers of the bit-flip ancillas. -/
theorem bitFlipLayer_sides {k : Nat} (hk : k < 2) {pair : Qubit × Qubit} (h : pair ∈ c.bitFlipLayer k) :
    pair.1 ∈ c.dataQubits ∧ pair.2 ∈ c.bitFlipAncillas := by
  obtain ⟨b, hb, rfl | rfl⟩ := c.mem_bitFlipLayer.mp h
  · have hdata : 3 * b + k < 3 * c.blocks := by omega
    have hancilla : 3 * c.blocks ≤ 3 * c.blocks + 2 * b + 0 ∧ 3 * c.blocks + 2 * b + 0 < 5 * c.blocks := by omega
    exact ⟨c.mem_dataQubits.mpr hdata, c.mem_bitFlipAncillas.mpr hancilla⟩
  · have hdata : 3 * b + k + 1 < 3 * c.blocks := by omega
    have hancilla : 3 * c.blocks ≤ 3 * c.blocks + 2 * b + 1 ∧ 3 * c.blocks + 2 * b + 1 < 5 * c.blocks := by omega
    exact ⟨c.mem_dataQubits.mpr hdata, c.mem_bitFlipAncillas.mpr hancilla⟩

/-- The phase ancillas control their own layers. -/
theorem phaseLayer_sides {k : Nat} (hk : k < 6) {pair : Qubit × Qubit} (h : pair ∈ c.phaseLayer k) :
    pair.1 ∈ c.phaseAncillas ∧ pair.2 ∈ c.dataQubits := by
  obtain ⟨b, hb, rfl⟩ := c.mem_phaseLayer.mp h
  have hancilla : 5 * c.blocks ≤ 5 * c.blocks + b ∧ 5 * c.blocks + b < 6 * c.blocks - 1 := by omega
  have hdata : 3 * b + k < 3 * c.blocks := by omega
  exact ⟨c.mem_phaseAncillas.mpr hancilla, c.mem_dataQubits.mpr hdata⟩

theorem fanOutLayers_nodup : ∀ layer ∈ c.fanOutLayers, (flattenPairs layer).Nodup := by
  intro layer hlayer
  obtain ⟨k, hk, rfl⟩ := List.mem_map.mp hlayer
  have hk' : k = 1 ∨ k = 2 := by simpa using hk
  have hapart : ∀ b b' : Nat, 3 * b ≠ 3 * b' + k := by omega
  refine flattenPairs_nodup ?_ ?_ ?_
  · rw [fanOutLayer, List.map_map]
    exact List.nodup_range.map (block_inj 0)
  · rw [fanOutLayer, List.map_map]
    exact List.nodup_range.map (block_inj k)
  · rintro p hp p' hp'
    obtain ⟨b, -, rfl⟩ := c.mem_fanOutLayer.mp hp
    obtain ⟨b', -, rfl⟩ := c.mem_fanOutLayer.mp hp'
    exact hapart b b'

theorem bitFlipLayers_nodup : ∀ layer ∈ c.bitFlipLayers, (flattenPairs layer).Nodup := by
  intro layer hlayer
  obtain ⟨k, hk, rfl⟩ := List.mem_map.mp hlayer
  have hk' : k < 2 := List.mem_range.mp hk
  have hfst : (c.bitFlipLayer k).map Prod.fst = (List.range c.blocks).flatMap fun b => [3 * b + k, 3 * b + k + 1] := by
    simp [bitFlipLayer, List.map_flatMap]
  have hsnd : (c.bitFlipLayer k).map Prod.snd = c.bitFlipAncillas := by
    simp [bitFlipLayer, bitFlipAncillas, List.map_flatMap]
  refine flattenPairs_nodup ?_ ?_ fun p hp p' hp' => ?_
  · rw [hfst]
    refine List.nodup_flatMap.mpr ⟨fun b _ => by simp, List.nodup_range.imp fun {b b'} hne => ?_⟩
    have hapart : ∀ i j : Nat, i < 2 → j < 2 → 3 * b + k + i ≠ 3 * b' + k + j := by omega
    simp only [Function.onFun, List.disjoint_left, List.mem_cons, List.not_mem_nil, or_false]
    rintro q (rfl | rfl) (h | h)
    · exact hapart 0 0 (by decide) (by decide) h
    · exact hapart 0 1 (by decide) (by decide) h
    · exact hapart 1 0 (by decide) (by decide) h
    · exact hapart 1 1 (by decide) (by decide) h
  · rw [hsnd, bitFlipAncillas_eq]
    exact List.nodup_range'
  · exact c.data_ne_ancilla (c.bitFlipLayer_sides hk' hp).1
      (List.mem_append_left _ (c.bitFlipLayer_sides hk' hp').2)

theorem phaseLayers_nodup : ∀ layer ∈ c.phaseLayers, (flattenPairs layer).Nodup := by
  intro layer hlayer
  obtain ⟨k, hk, rfl⟩ := List.mem_map.mp hlayer
  have hk' : k < 6 := List.mem_range.mp hk
  refine flattenPairs_nodup ?_ ?_ fun p hp p' hp' => ?_
  · rw [phaseLayer, List.map_map]
    exact List.nodup_range.map fun b b' => Nat.add_left_cancel
  · rw [phaseLayer, List.map_map]
    exact List.nodup_range.map (block_inj k)
  · exact (c.data_ne_ancilla (c.phaseLayer_sides hk' hp').2
      (List.mem_append_right _ (c.phaseLayer_sides hk' hp).1)).symm

/-! ## What is emitted and entered -/

/-- The qubits that are measured, as a layout: the ancillas of both kinds and the data. -/
def register : Layout where
  allQubits := List.range c.numQubits
  data := c.dataQubits
  groups := [⟨.z, c.bitFlipAncillas⟩, ⟨.x, c.phaseAncillas⟩]
  layers := []
  idleData := []
  supports := []
  skipped := []

@[simp] theorem register_data : c.register.data = c.dataQubits := rfl

@[simp] theorem register_allChecks : c.register.allChecks = c.ancillas := by
  simp [allChecks, register, ancillas]

/-- The preparation of the blocks. -/
def encoding (p1 p2 : Binary64) : List Instruction :=
  (Instruction.reset (List.range c.numQubits)).kept ++ noise1 p1 (List.range c.numQubits) ++
    ((Instruction.gate .h c.leaders).kept ++ noise1 p1 c.leaders) ++ c.fanOutLayers.flatMap (layerProgram p2)

/-- A round without its detectors. -/
def extraction (p1 p2 : Binary64) (round : Nat) : List Instruction :=
  (if round = 0 then [] else noise1 p1 c.ancillas) ++ c.bitFlipLayers.flatMap (layerProgram p2) ++
    ((Instruction.gate .h c.phaseAncillas).kept ++ noise1 p1 c.phaseAncillas) ++
    c.phaseLayers.flatMap (layerProgram p2) ++
    ((Instruction.gate .h c.phaseAncillas).kept ++ noise1 p1 c.phaseAncillas) ++ noise1 p1 c.ancillas ++
    (Instruction.measureReset c.ancillas).kept

/-- The terms of a round's detectors. -/
def roundTerms : Nat → List (List Term)
  | 0 => c.ancillas.map fun a => [(a, 0)]
  | round + 1 => c.ancillas.map fun a => [(a, round), (a, round + 1)]

/-- The terms of the detectors that close the phase checks. -/
def readoutTerms (rounds : Nat) : List (List Term) := (List.range (c.blocks - 1)).map (c.closingTerms rounds)

/-- The round with its detectors. -/
def roundProgram (p1 p2 : Binary64) (round : Nat) : List Instruction :=
  c.extraction p1 p2 round ++ detectorsFor (c.register.ledgerAfter (round + 1)) (c.roundTerms round)

/-- The encoding and a number of rounds. -/
def program (p1 p2 : Binary64) : Nat → List Instruction
  | 0 => c.encoding p1 p2
  | round + 1 => program p1 p2 round ++ c.roundProgram p1 p2 round

/-- What comes after the rounds. -/
def readout (p1 : Binary64) (rounds : Nat) : List Instruction :=
  noise1 p1 c.dataQubits ++ (Instruction.gate .h c.dataQubits).kept ++ (Instruction.measure c.dataQubits).kept ++
    detectorsFor (c.register.finalLedger rounds) (c.readoutTerms rounds) ++
    (Instruction.observable 0 ((c.register.finalLedger rounds).offsets (logical.map (·, rounds)))).kept

/-! ## What is measured -/

theorem measuredBy_encoding (p1 p2 : Binary64) : measuredBy (c.encoding p1 p2) = [] := by
  simp only [encoding, measuredBy_append, measuredBy_noise1, measuredBy_kept, measuredBy_layers]
  rfl

/-- A round measures all ancillas. -/
theorem measuredBy_extraction (p1 p2 : Binary64) (round : Nat) : measuredBy (c.extraction p1 p2 round) = c.ancillas := by
  have h0 : measuredBy (if round = 0 then [] else noise1 p1 c.ancillas) = [] := by
    split
    · rfl
    · exact measuredBy_noise1 _ _
  simp only [extraction, measuredBy_append, h0, measuredBy_noise1, measuredBy_kept, measuredBy_layers]
  rfl

theorem measuredBy_program (p1 p2 : Binary64) (rounds : Nat) :
    measuredBy (c.program p1 p2 rounds) = (List.replicate rounds c.ancillas).flatten := by
  induction rounds with
  | zero => exact c.measuredBy_encoding p1 p2
  | succ n ih =>
    rw [program, roundProgram, measuredBy_append, measuredBy_append, ih, measuredBy_extraction, measuredBy_detectorsFor,
      List.replicate_succ', List.flatten_append]
    simp

/-- The read-out measures the data. -/
theorem measuredBy_readout (p1 : Binary64) (rounds : Nat) : measuredBy (c.readout p1 rounds) = c.dataQubits := by
  simp only [readout, measuredBy_append, measuredBy_noise1, measuredBy_kept, measuredBy_detectorsFor]
  exact (List.append_nil _).trans (List.append_nil _)

theorem measurementsOf_extraction (p1 p2 : Binary64) (round : Nat) :
    Circuit.measurementsOf (c.extraction p1 p2 round) = c.ancillas.length := by
  rw [← length_measuredBy, measuredBy_extraction]

theorem measurementsOf_program (p1 p2 : Binary64) (rounds : Nat) :
    Circuit.measurementsOf (c.program p1 p2 rounds) = (c.register.ledgerAfter rounds).length := by
  rw [← length_measuredBy, measuredBy_program, length_ledgerAfter, register_allChecks]
  simp

/-- The terms of detectors and observable are within reach. -/
theorem register_inReach (hsize : 6 * c.blocks < 2 ^ 31) : c.register.InReach where
  rounds := by
    rw [register_allChecks, length_ancillas, RecordOffset.reach]
    omega
  readout := by
    rw [register_allChecks, register_data, length_ancillas, dataQubits, List.length_range, RecordOffset.reach]
    omega

/-- Valid parameters whose distance is a multiple of three make a code with that many blocks. -/
theorem make_eq {params : CodeParams} (hp : params.validate = .ok ()) (hthree : params.distance % 3 = 0) :
    1 ≤ blocks ⟨params⟩ ∧ make params = .ok ⟨params⟩ := by
  refine ⟨Nat.one_le_iff_ne_zero.mpr fun hzero => ?_, ?_⟩
  · have hd : params.distance = 0 := hzero
    rw [CodeParams.validate, if_pos hd] at hp
    cases hp
  · rw [make, hp]
    exact if_pos hthree

/-! ## The actions do just that -/

theorem perform_appendHadamard {m : Memory} (h1 : Usable m.p1) {qubits : List Qubit} (hn : qubits.Nodup) :
    m.perform (appendHadamard qubits) =
      (.ok (), m.emit ((Instruction.gate .h qubits).kept ++ noise1 m.p1 qubits)) := by
  rw [appendHadamard, perform_bind (perform_h m hn), perform_depolarize1 (by exact h1), emit_append]
  rfl

/-- Layers that are numbered. -/
theorem perform_numbered {m : Memory} (h2 : Usable m.p2) {numbers : List Nat} {layer : Nat → List (Qubit × Qubit)}
    (hn : ∀ pairs ∈ numbers.map layer, (flattenPairs pairs).Nodup) :
    m.perform (numbers.forM fun k => appendLayer (layer k)) =
      (.ok (), m.emit ((numbers.map layer).flatMap (layerProgram m.p2))) := by
  refine perform_forM (fun done => m.emit ((done.map layer).flatMap (layerProgram m.p2))) fun done k rest hd => ?_
  have hk : layer k ∈ numbers.map layer := by simp [hd]
  rw [perform_appendLayer (by exact h2) (hn _ hk), List.map_append, List.flatMap_append, emit_append]
  simp

/-- Detectors of which each is declared if it compares anything. -/
theorem perform_declared {γ : Type} {m : Memory} (hph : m.phase ∈ [Phase.rounds, .finalizing]) (hl : m.Lockstep)
    (xs : List γ) (terms : γ → List Term) :
    m.perform (xs.forM fun x => discard (Build.detector (terms x))) =
      (.ok (), m.emit (detectorsFor m.ledger (xs.map terms))) := by
  refine perform_forM (fun done => m.emit (detectorsFor m.ledger (done.map terms))) fun done x rest _ => ?_
  have hl' := hl.emit (measurementsOf_detectorsFor m.ledger (done.map terms))
  rw [perform_discard (perform_detector (by exact hph) hl' (terms x)), ← emit_append, emit_ledger, List.map_append,
    detectorsFor, detectorsFor, List.flatMap_append]
  simp

theorem perform_appendDetectors {m : Memory} {round : Nat} (hph : m.phase = .rounds) (hl : m.Lockstep)
    (hledger : m.ledger = c.register.ledgerAfter (round + 1)) :
    m.perform (c.appendDetectors round) =
      (.ok (), m.emit (detectorsFor (c.register.ledgerAfter (round + 1)) (c.roundTerms round))) := by
  cases round with
  | zero => rw [appendDetectors, perform_declared (by simp [hph]) hl, hledger]; rfl
  | succ r => rw [appendDetectors, perform_declared (by simp [hph]) hl, hledger]; rfl

theorem leaders_nodup : c.leaders.Nodup := List.nodup_range.map (block_inj 0)

theorem phaseAncillas_nodup : c.phaseAncillas.Nodup := by
  rw [phaseAncillas_eq]
  exact List.nodup_range'

theorem ancillas_nodup : c.ancillas.Nodup := by
  rw [ancillas_eq]
  exact List.nodup_range'

theorem perform_appendEncoding {m : Memory} (hph : m.phase = .init) (h1 : Usable m.p1) (h2 : Usable m.p2) :
    m.perform c.appendEncoding = (.ok (), m.emit (c.encoding m.p1 m.p2)) := by
  rw [appendEncoding, perform_bind (perform_prepare hph h1 List.nodup_range),
    perform_bind (perform_appendHadamard (by exact h1) c.leaders_nodup),
    perform_numbered (by exact h2) c.fanOutLayers_nodup]
  simp only [emit_p1, emit_p2, ← emit_append]
  rfl

/-- A round after its first noise. -/
def roundBody (round : Nat) : Build Unit := do
  (List.range 2).forM fun k => appendLayer (c.bitFlipLayer k)
  appendHadamard c.phaseAncillas
  (List.range 6).forM fun k => appendLayer (c.phaseLayer k)
  appendHadamard c.phaseAncillas
  Build.depolarize1 c.ancillas
  Build.measureReset c.ancillas round .check
  c.appendDetectors round

theorem appendRound_eq (round : Nat) : c.appendRound round = Build.beginRound round >>= fun _ =>
    (if round = 0 then pure () else Build.depolarize1 c.ancillas) >>= fun _ => c.roundBody round := by
  unfold appendRound
  split
  · rfl
  · rfl

theorem perform_appendRound {m : Memory} (h1 : Usable m.p1) (h2 : Usable m.p2) (round : Nat)
    (hph : m.phase ∈ [Phase.init, .rounds]) (hr : m.roundsStarted = round)
    (hledger : m.ledger = c.register.ledgerAfter round) (hl : m.Lockstep) :
    m.perform (c.appendRound round) = (.ok (), { (m.emit (c.roundProgram m.p1 m.p2 round)) with
      ledger := c.register.ledgerAfter (round + 1), phase := .rounds, roundsStarted := round + 1 }) := by
  have hbegin := perform_beginRound hph hr
  set m0 : Memory := { m with phase := .rounds, roundsStarted := round + 1 } with hm0
  have hfirst : m0.perform (if round = 0 then pure () else Build.depolarize1 c.ancillas) =
      (.ok (), m0.emit (if round = 0 then [] else noise1 m0.p1 c.ancillas)) := by
    split
    · rfl
    · exact perform_depolarize1 (m := m0) h1 _
  have hfresh : ∀ q ∈ c.ancillas, (q, round) ∉ m.ledger.terms := by
    intro q _ hq
    rw [hledger] at hq
    exact absurd ((mem_terms_ledgerAfter c.register).mp hq).1 (Nat.lt_irrefl _)
  have hentered : c.register.checkMeasurements round = c.ancillas.map (⟨·, round, .check⟩) := by
    rw [checkMeasurements, register_allChecks]
  have hl' : ((m0.emit (c.extraction m0.p1 m0.p2 round)).enter (c.register.checkMeasurements round)).Lockstep := by
    refine Lockstep.emit_enter (m := m0) (by exact hl) ?_
    rw [measurementsOf_extraction, hentered, List.length_map]
  have hshape : ((m0.emit (c.extraction m0.p1 m0.p2 round)).enter (c.register.checkMeasurements round)).ledger =
      c.register.ledgerAfter (round + 1) := by
    show m.ledger.enter _ = _
    rw [hledger, ledgerAfter]
  rw [appendRound_eq, perform_bind hbegin, perform_bind hfirst, roundBody,
    perform_bind (perform_numbered (by exact h2) c.bitFlipLayers_nodup),
    perform_bind (perform_appendHadamard (by exact h1) c.phaseAncillas_nodup),
    perform_bind (perform_numbered (by exact h2) c.phaseLayers_nodup),
    perform_bind (perform_appendHadamard (by exact h1) c.phaseAncillas_nodup),
    perform_bind (perform_depolarize1 (by exact h1) _), Build.measureReset,
    perform_bind (perform_measuring (by rfl) _ (by rfl) .check c.ancillas_nodup (by exact hfresh)), ← hentered]
  simp only [emit_p1, emit_p2, ← emit_append]
  refine Eq.trans (c.perform_appendDetectors rfl hl' hshape) ?_
  rw [roundProgram, emit_append]
  simp only [Prod.mk.injEq, true_and]
  simp only [emit, Memory.enter, hm0, hledger, ledgerAfter, ← Circuit.extendAll_append]
  rfl

/-- The memory after the encoding and a number of rounds. -/
def memoryAfter (rounds : Nat) : Memory where
  circuit := (Circuit.empty "shor").extendAll (c.program c.params.depolarize1Rate c.params.depolarize2Rate rounds)
  ledger := c.register.ledgerAfter rounds
  phase := if rounds = 0 then .init else .rounds
  roundsStarted := rounds
  p1 := c.params.depolarize1Rate
  p2 := c.params.depolarize2Rate

theorem memoryAfter_lockstep (rounds : Nat) : (c.memoryAfter rounds).Lockstep := by
  show (c.register.ledgerAfter rounds).length = ((Circuit.empty "shor").extendAll _).numMeasurements
  rw [Circuit.numMeasurements_extendAll, measurementsOf_program]
  simp [Circuit.empty]

/-- Rounds come one after the other. -/
theorem perform_rounds (h1 : Usable c.params.depolarize1Rate) (h2 : Usable c.params.depolarize2Rate) (rounds : Nat) :
    (c.memoryAfter 0).perform ((List.range rounds).forM c.appendRound) = (.ok (), c.memoryAfter rounds) := by
  refine perform_range c.memoryAfter (fun k => ?_) rounds
  have hph : (c.memoryAfter k).phase ∈ [Phase.init, .rounds] := by
    simp only [memoryAfter]
    split <;> simp
  refine (c.perform_appendRound (by exact h1) (by exact h2) k hph rfl rfl (c.memoryAfter_lockstep _)).trans ?_
  simp only [memoryAfter, emit, program, Circuit.extendAll_append]
  simp

theorem logical_subset (hblocks : 1 ≤ c.blocks) : logical ⊆ c.dataQubits := by
  have hthree : 3 ≤ 3 * c.blocks := by omega
  exact fun q hq => List.mem_range.mpr (Nat.lt_of_lt_of_le (List.mem_range.mp (show q ∈ List.range 3 from hq)) hthree)

theorem perform_appendReadout (hsize : 6 * c.blocks < 2 ^ 31) (hblocks : 1 ≤ c.blocks) {m : Memory} {rounds : Nat}
    (hpos : 1 ≤ rounds) (h1 : Usable m.p1) (hph : m.phase = .rounds) (hledger : m.ledger = c.register.ledgerAfter rounds)
    (hl : m.Lockstep) :
    m.perform (c.appendReadout rounds) = (.ok (), { (m.emit (c.readout m.p1 rounds)) with
      ledger := c.register.finalLedger rounds, phase := .finalizing }) := by
  set m0 : Memory := { m with phase := .finalizing } with hm0
  have hfresh : ∀ q ∈ c.dataQubits, (q, rounds) ∉ m.ledger.terms := by
    intro q _ hq
    rw [hledger] at hq
    exact absurd ((mem_terms_ledgerAfter c.register).mp hq).1 (Nat.lt_irrefl _)
  have hdata : c.dataQubits.Nodup := List.nodup_range
  set m1 : Memory := (m0.emit (noise1 m0.p1 c.dataQubits ++ (Instruction.gate .h c.dataQubits).kept ++
    (Instruction.measure c.dataQubits).kept)).enter (c.register.dataMeasurements rounds) with hm1
  have hl1 : m1.Lockstep := by
    refine Lockstep.emit_enter (m := m0) (by exact hl) ?_
    simp only [← length_measuredBy, measuredBy_append, measuredBy_noise1, measuredBy_kept, dataMeasurements,
      List.length_map]
    rfl
  have hledger1 : m1.ledger = c.register.finalLedger rounds := by
    show m.ledger.enter _ = _
    rw [hledger, finalLedger]
  have hmeasure : ((m0.emit (noise1 m0.p1 c.dataQubits)).emit (Instruction.gate .h c.dataQubits).kept).perform
      (Build.measure c.dataQubits rounds .data) = (.ok (), m1) := by
    rw [Build.measure, perform_measuring (by rfl) _ (by rfl) .data hdata (by exact hfresh), ← emit_append,
      ← emit_append, ← List.append_assoc]
    rfl
  have hclose := perform_declared (m := m1) (by simp [hm1, hm0]) hl1 (List.range (c.blocks - 1)) (c.closingTerms rounds)
  have hlog : ∀ t ∈ logical.map (·, rounds), (c.register.finalLedger rounds).Reaches t := by
    intro t hmem
    obtain ⟨q, hq, rfl⟩ := List.mem_map.mp hmem
    exact (final_reach (c.register_inReach hsize) hpos).1 (c.logical_subset hblocks hq)
  rw [appendReadout, perform_bind (perform_beginFinalize hph), perform_bind (perform_depolarize1 (m := m0) h1 _),
    perform_bind (perform_h _ hdata), perform_bind hmeasure, perform_bind hclose, hledger1]
  have hl2 := hl1.emit (measurementsOf_detectorsFor (c.register.finalLedger rounds) (c.readoutTerms rounds))
  refine Eq.trans (perform_observable (by rfl) hl2 0 (by rw [emit_ledger, hledger1]; exact hlog)) ?_
  rw [emit_ledger, hledger1, ← emit_append]
  simp only [Prod.mk.injEq, true_and]
  simp only [emit, Memory.enter, hm1, hm0, hledger, finalLedger, ← Circuit.extendAll_append, readout, readoutTerms,
    List.append_assoc]

/-- The experiment that a Shor memory compiles to. -/
def compiled (rounds : Nat) : Experiment where
  circuit := (Circuit.empty "shor").extendAll (c.program c.params.depolarize1Rate c.params.depolarize2Rate rounds ++
    c.readout c.params.depolarize1Rate rounds)
  ledger := c.register.finalLedger rounds
  rounds := rounds

theorem buildMemory_eq (hsize : 6 * c.blocks < 2 ^ 31) (hblocks : 1 ≤ c.blocks) (h1 : Usable c.params.depolarize1Rate)
    (h2 : Usable c.params.depolarize2Rate) {rounds : Nat} (hpos : 1 ≤ rounds) :
    c.buildMemory rounds = .ok (c.compiled rounds) := by
  have hencode : (Memory.start "shor" c.params).perform c.appendEncoding = (.ok (), c.memoryAfter 0) :=
    c.perform_appendEncoding rfl h1 h2
  have hph : (c.memoryAfter rounds).phase = .rounds := if_neg (by omega)
  have hreadout := c.perform_appendReadout hsize hblocks (m := c.memoryAfter rounds) hpos h1 hph rfl
    (c.memoryAfter_lockstep rounds)
  rw [buildMemory, validateRounds, if_neg (by omega)]
  show ((Memory.start "shor" c.params).perform (c.memory rounds)).1 = _
  rw [memory, perform_bind hencode, perform_bind (c.perform_rounds h1 h2 rounds), perform_bind hreadout,
    perform_finish rfl]
  simp only [memoryAfter, emit, Circuit.extendAll_append, compiled]

theorem instructions_compiled (rounds : Nat) : (c.compiled rounds).circuit.instructions =
    c.program c.params.depolarize1Rate c.params.depolarize2Rate rounds ++ c.readout c.params.depolarize1Rate rounds :=
  Circuit.instructions_extendAll _ _

end ShorCode

end QuantumMemory

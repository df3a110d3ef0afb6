/-
  QuantumMemory.Proofs.Shor.Addressing — the outcomes that a Shor memory compares.

  Every detector of the memory, read at its place in the stream and looked up in the
  finished ledger, compares the terms that `detectorTerms` lists: each ancilla with nothing
  in the first round and with the round before in the later ones, and the final outcomes of
  two neighbouring blocks with the last outcome of their phase ancilla. The observable holds
  the final outcomes of the first block. In a run the parities are then sums of readings
  (`detector_parities`, `observable_parities`). `shor_addressing` says all of it of the memory that
  is built, with the numbers of the qubits.
-/

import QuantumMemory.Proofs.Memory.Readings
import QuantumMemory.Proofs.Shor.Program

namespace QuantumMemory

namespace ShorCode

open Layout Memory

variable (c : ShorCode)

/-- The terms of all detectors. -/
def detectorTerms (rounds : Nat) : List (List Term) :=
  (List.range rounds).flatMap c.roundTerms ++ c.readoutTerms rounds

/-- No operation on the measured qubits names one twice. -/
theorem register_tidy : c.register.Tidy where
  allQubits := List.nodup_range
  xChecks := c.phaseAncillas_nodup
  layers := fun _ h => absurd h List.not_mem_nil
  allChecks := c.register_allChecks ▸ c.ancillas_nodup
  data := List.nodup_range
  zChecks := by
    rw [register_allChecks]
    exact List.subset_append_left _ _
  support := fun _ _ => List.nil_subset _

/-! ## Instructions that declare nothing -/

theorem quiet_encoding (p1 p2 : Binary64) : Quiet (c.encoding p1 p2) := by
  have hreset : Quiet (Instruction.reset (List.range c.numQubits)).kept :=
    quiet_kept (by simp [Instruction.reset, Instruction.Kind.isObservable])
  exact ((hreset.append (quiet_noise1 _ _)).append ((quiet_gate _ _).append (quiet_noise1 _ _))).append
    (quiet_layers _ _)

theorem quiet_extraction (p1 p2 : Binary64) (round : Nat) : Quiet (c.extraction p1 p2 round) := by
  have h0 : Quiet (if round = 0 then [] else noise1 p1 c.ancillas) := by
    split
    · exact quiet_nil
    · exact quiet_noise1 _ _
  have hturn : Quiet ((Instruction.gate .h c.phaseAncillas).kept ++ noise1 p1 c.phaseAncillas) :=
    (quiet_gate _ _).append (quiet_noise1 _ _)
  have hm : Quiet (Instruction.measureReset c.ancillas).kept :=
    quiet_kept (by simp [Instruction.measureReset, Instruction.Kind.isObservable])
  exact (((((h0.append (quiet_layers _ _)).append hturn).append (quiet_layers _ _)).append hturn).append
    (quiet_noise1 _ _)).append hm

theorem quiet_measureData (p1 : Binary64) : Quiet (noise1 p1 c.dataQubits ++
    (Instruction.gate .h c.dataQubits).kept ++ (Instruction.measure c.dataQubits).kept) :=
  ((quiet_noise1 _ _).append (quiet_gate _ _)).append
    (quiet_kept (by simp [Instruction.measure, Instruction.Kind.isObservable]))

/-! ## Terms within reach -/

variable {c}

theorem roundTerms_reach (hr : c.register.InReach) (round : Nat) :
    ∀ ts ∈ c.roundTerms round, ∀ t ∈ ts, (c.register.ledgerAfter (round + 1)).Reaches t := by
  intro ts hts t hmem
  cases round with
  | zero =>
    obtain ⟨a, ha, rfl⟩ := List.mem_map.mp hts
    rw [List.mem_singleton] at hmem
    exact hmem ▸ check_reaches hr (c.register_allChecks ▸ ha) (.inl rfl)
  | succ r =>
    obtain ⟨a, ha, rfl⟩ := List.mem_map.mp hts
    rw [← register_allChecks] at ha
    simp only [List.mem_cons, List.not_mem_nil, or_false] at hmem
    rcases hmem with rfl | rfl
    · exact check_reaches hr ha (.inr rfl)
    · exact check_reaches hr ha (.inl rfl)

theorem phaseAncilla_mem {b : Nat} (hb : b < c.blocks - 1) : c.phaseAncilla b ∈ c.phaseAncillas :=
  List.mem_map_of_mem (List.mem_range.mpr hb)

theorem block_subset {b : Nat} (hb : b < c.blocks) : block b ⊆ c.dataQubits := by
  have hlt : ∀ i < 3, 3 * b + i < 3 * c.blocks := by omega
  intro q hq
  simp only [block, List.mem_cons, List.not_mem_nil, or_false] at hq
  rcases hq with rfl | rfl | rfl
  · exact c.mem_dataQubits.mpr (hlt 0 (by decide))
  · exact c.mem_dataQubits.mpr (hlt 1 (by decide))
  · exact c.mem_dataQubits.mpr (hlt 2 (by decide))

theorem readoutTerms_reach (hr : c.register.InReach) {rounds : Nat} (hpos : 1 ≤ rounds) :
    ∀ ts ∈ c.readoutTerms rounds, ∀ t ∈ ts, (c.register.finalLedger rounds).Reaches t := by
  intro ts hts t hmem
  obtain ⟨b, hb, rfl⟩ := List.mem_map.mp hts
  have hb : b < c.blocks - 1 := List.mem_range.mp hb
  rcases List.mem_append.mp hmem with hmem | hmem
  · obtain ⟨q, hq, rfl⟩ := List.mem_map.mp hmem
    have hdata : q ∈ c.dataQubits := by
      rcases List.mem_append.mp hq with hq | hq
      · exact block_subset (by omega) hq
      · exact block_subset (by omega) hq
    exact (final_reach hr hpos).1 hdata
  · rw [List.mem_singleton] at hmem
    subst hmem
    refine (final_reach hr hpos).2 ?_
    rw [register_allChecks]
    exact List.mem_append_right _ (phaseAncilla_mem hb)

theorem logical_reach (hr : c.register.InReach) (hblocks : 1 ≤ c.blocks) {rounds : Nat} (hpos : 1 ≤ rounds) :
    ∀ t ∈ logical.map (·, rounds), (c.register.finalLedger rounds).Reaches t := by
  intro t ht
  obtain ⟨q, hq, rfl⟩ := List.mem_map.mp ht
  exact (final_reach hr hpos).1 (c.logical_subset hblocks hq)

/-! ## Detectors are read as their terms -/

theorem roundTerms_ne_nil (round : Nat) : ∀ ts ∈ c.roundTerms round, ts ≠ [] := by
  intro ts hts
  cases round with
  | zero => obtain ⟨a, -, rfl⟩ := List.mem_map.mp hts; simp
  | succ r => obtain ⟨a, -, rfl⟩ := List.mem_map.mp hts; simp

theorem readoutTerms_ne_nil (rounds : Nat) : ∀ ts ∈ c.readoutTerms rounds, ts ≠ [] := by
  intro ts hts
  obtain ⟨b, -, rfl⟩ := List.mem_map.mp hts
  simp [closingTerms]

theorem program_rounds (hr : c.register.InReach) (p1 p2 : Binary64) :
    c.register.Rounds (c.program p1 p2) (c.extraction p1 p2) c.roundTerms where
  start := c.quiet_encoding p1 p2
  quiet := c.quiet_extraction p1 p2
  step _ := rfl
  counted := c.measurementsOf_program p1 p2
  named := roundTerms_ne_nil
  reach := roundTerms_reach hr

/-! ## The whole memory -/

variable (c) in
theorem readout_eq (p1 : Binary64) (rounds : Nat) : c.readout p1 rounds =
    c.register.ending (noise1 p1 c.dataQubits ++ (Instruction.gate .h c.dataQubits).kept ++
      (Instruction.measure c.dataQubits).kept) rounds (c.readoutTerms rounds) logical := by
  rw [readout, ending, List.append_assoc]

variable (c) in
theorem measurementsOf_measureData (p1 : Binary64) : Circuit.measurementsOf (noise1 p1 c.dataQubits ++
    (Instruction.gate .h c.dataQubits).kept ++ (Instruction.measure c.dataQubits).kept) = c.dataQubits.length := by
  rw [← length_measuredBy, measuredBy_append, measuredBy_append, measuredBy_noise1, measuredBy_kept, measuredBy_kept]
  rfl

theorem detectors_compiled (hr : c.register.InReach) {rounds : Nat} (hpos : 1 ≤ rounds) :
    (c.compiled rounds).circuit.detectors.map (c.compiled rounds).ledger.read =
      (c.detectorTerms rounds).map (List.map some) := by
  rw [Circuit.detectors, instructions_compiled, readout_eq]
  exact (program_rounds hr _ _).read_detectors (c.quiet_measureData _) (c.measurementsOf_measureData _)
    (readoutTerms_ne_nil rounds) (readoutTerms_reach hr hpos) logical

theorem observables_compiled (hr : c.register.InReach) (hblocks : 1 ≤ c.blocks) {rounds : Nat} (hpos : 1 ≤ rounds) :
    (c.compiled rounds).circuit.observables.map
        (fun (index, refs) => (index, (c.compiled rounds).ledger.read refs)) =
      [(0, logical.map fun q => some (q, rounds))] := by
  rw [Circuit.observables, instructions_compiled, readout_eq]
  exact (program_rounds hr _ _).read_observables (c.quiet_measureData _) (c.measurementsOf_measureData _) _
    (logical_reach hr hblocks hpos)

/-! ## A memory acts on its own qubits -/

theorem mem_flattenPairs {pairs : List (Qubit × Qubit)} {q : Qubit} (h : q ∈ flattenPairs pairs) :
    ∃ pair ∈ pairs, q = pair.1 ∨ q = pair.2 := by
  induction pairs with
  | nil => cases h
  | cons pair rest ih =>
    simp only [flattenPairs, List.mem_cons] at h
    rcases h with rfl | rfl | h
    · exact ⟨pair, List.mem_cons_self, .inl rfl⟩
    · exact ⟨pair, List.mem_cons_self, .inr rfl⟩
    · obtain ⟨pair', hmem, hq⟩ := ih h
      exact ⟨pair', List.mem_cons_of_mem _ hmem, hq⟩

theorem layers_within {n : Nat} (p2 : Binary64) {layers : List (List (Qubit × Qubit))}
    (h : ∀ layer ∈ layers, ∀ pair ∈ layer, pair.1 < n ∧ pair.2 < n) :
    ∀ i ∈ layers.flatMap (layerProgram p2), ∀ q ∈ i.qubits, q < n := by
  intro i hi
  obtain ⟨layer, hlayer, hi⟩ := List.mem_flatMap.mp hi
  refine layerProgram_within p2 (fun q hq => ?_) i hi
  obtain ⟨pair, hpair, rfl | rfl⟩ := mem_flattenPairs hq
  · exact (h layer hlayer pair hpair).1
  · exact (h layer hlayer pair hpair).2

theorem data_lt {q : Qubit} (hq : q ∈ c.dataQubits) : q < c.numQubits := by
  have hlt := c.mem_dataQubits.mp hq
  have hnum : 3 * c.blocks ≤ 6 * c.blocks - 1 := by omega
  exact Nat.lt_of_lt_of_le hlt hnum

theorem ancilla_lt {a : Qubit} (ha : a ∈ c.ancillas) : a < c.numQubits := (c.mem_ancillas.mp ha).2

theorem encoding_within (p1 p2 : Binary64) : ∀ i ∈ c.encoding p1 p2, ∀ q ∈ i.qubits, q < c.numQubits := by
  have hall : ∀ q ∈ List.range c.numQubits, q < c.numQubits := fun q hq => List.mem_range.mp hq
  have hblock : ∀ b k : Nat, b < c.blocks → k < 3 → 3 * b + k < c.numQubits := fun b k hb hk =>
    data_lt (c.mem_dataQubits.mpr (by omega))
  have hleaders : ∀ q ∈ c.leaders, q < c.numQubits := by
    intro q hq
    obtain ⟨b, hb, rfl⟩ := List.mem_map.mp hq
    exact hblock b 0 (List.mem_range.mp hb) (by decide)
  have hlayers : ∀ layer ∈ c.fanOutLayers, ∀ pair ∈ layer, pair.1 < c.numQubits ∧ pair.2 < c.numQubits := by
    intro layer hlayer pair hpair
    obtain ⟨k, hk, rfl⟩ := List.mem_map.mp hlayer
    obtain ⟨b, hb, rfl⟩ := c.mem_fanOutLayer.mp hpair
    have hk' : k = 1 ∨ k = 2 := by simpa using hk
    exact ⟨hblock b 0 hb (by decide), hblock b k hb (by omega)⟩
  simp only [encoding, List.forall_mem_append]
  exact ⟨⟨⟨kept_within hall, noise1_within _ hall⟩, kept_within hleaders, noise1_within _ hleaders⟩,
    layers_within p2 hlayers⟩

theorem extraction_within (p1 p2 : Binary64) (round : Nat) :
    ∀ i ∈ c.extraction p1 p2 round, ∀ q ∈ i.qubits, q < c.numQubits := by
  have hancillas : ∀ a ∈ c.ancillas, a < c.numQubits := fun a => ancilla_lt
  have hphase : ∀ a ∈ c.phaseAncillas, a < c.numQubits := fun a ha => ancilla_lt (List.mem_append_right _ ha)
  have h0 : ∀ i ∈ (if round = 0 then [] else noise1 p1 c.ancillas), ∀ q ∈ i.qubits, q < c.numQubits := by
    split
    · exact fun _ hi => absurd hi List.not_mem_nil
    · exact noise1_within _ hancillas
  have hbitFlip : ∀ layer ∈ c.bitFlipLayers, ∀ pair ∈ layer, pair.1 < c.numQubits ∧ pair.2 < c.numQubits := by
    intro layer hlayer pair hpair
    obtain ⟨k, hk, rfl⟩ := List.mem_map.mp hlayer
    obtain ⟨hdata, hancilla⟩ := c.bitFlipLayer_sides (List.mem_range.mp hk) hpair
    exact ⟨data_lt hdata, ancilla_lt (List.mem_append_left _ hancilla)⟩
  have hphaseLayers : ∀ layer ∈ c.phaseLayers, ∀ pair ∈ layer, pair.1 < c.numQubits ∧ pair.2 < c.numQubits := by
    intro layer hlayer pair hpair
    obtain ⟨k, hk, rfl⟩ := List.mem_map.mp hlayer
    obtain ⟨hancilla, hdata⟩ := c.phaseLayer_sides (List.mem_range.mp hk) hpair
    exact ⟨hphase _ hancilla, data_lt hdata⟩
  simp only [extraction, List.forall_mem_append]
  exact ⟨⟨⟨⟨⟨⟨h0, layers_within p2 hbitFlip⟩, kept_within hphase, noise1_within _ hphase⟩,
    layers_within p2 hphaseLayers⟩, kept_within hphase, noise1_within _ hphase⟩, noise1_within _ hancillas⟩,
    kept_within hancillas⟩

/-- No instruction of a memory leaves the qubits of the code. -/
theorem compiled_within (p1 p2 : Binary64) (rounds : Nat) :
    ∀ i ∈ c.program p1 p2 rounds ++ c.readout p1 rounds, ∀ q ∈ i.qubits, q < c.numQubits := by
  have hdata : ∀ q ∈ c.dataQubits, q < c.numQubits := fun q => data_lt
  have hprogram : ∀ i ∈ c.program p1 p2 rounds, ∀ q ∈ i.qubits, q < c.numQubits := by
    induction rounds with
    | zero => exact encoding_within p1 p2
    | succ n ih =>
      rw [program, roundProgram]
      simp only [List.forall_mem_append]
      exact ⟨ih, extraction_within p1 p2 n, detectorsFor_within _ _ _⟩
  rw [readout]
  simp only [List.forall_mem_append]
  exact ⟨hprogram, ⟨⟨⟨noise1_within _ hdata, kept_within hdata⟩, kept_within hdata⟩, detectorsFor_within _ _ _⟩,
    kept_within fun q hq => absurd hq List.not_mem_nil⟩

/-! ## Parities -/

theorem length_finalLedger (rounds : Nat) (p1 p2 : Binary64) :
    Circuit.measurementsOf (c.program p1 p2 rounds ++ c.readout p1 rounds) = (c.register.finalLedger rounds).length := by
  rw [Circuit.measurementsOf_append, measurementsOf_program, ← length_measuredBy, measuredBy_readout, finalLedger,
    Ledger.length_enter, dataMeasurements, List.length_map, register_data]

section Parities

variable (hr : c.register.InReach) {rounds : Nat} (hpos : 1 ≤ rounds) {outcomes : List (ZMod 2)}
  (hlen : outcomes.length = (c.register.finalLedger rounds).length)

include hr hpos hlen

/-- The parities of the detectors, by the terms that they compare. -/
theorem detector_parities : (c.compiled rounds).circuit.detectors.map (parity outcomes) =
    (c.detectorTerms rounds).map fun ts => (ts.map ((c.register.finalLedger rounds).reading outcomes)).sum :=
  Ledger.parities_of_reads (terms_nodup c.register_tidy rounds) hlen (detectors_compiled hr hpos)

/-- The parity of the observable, by the final outcomes of the first block. -/
theorem observable_parities (hblocks : 1 ≤ c.blocks) :
    (c.compiled rounds).circuit.observables.map (fun (index, refs) => (index, parity outcomes refs)) =
      [(0, ((logical.map (·, rounds)).map ((c.register.finalLedger rounds).reading outcomes)).sum)] := by
  obtain ⟨⟨index, refs⟩, hone, hpair⟩ := List.map_eq_singleton_iff.mp (observables_compiled hr hblocks hpos)
  obtain ⟨rfl, hread⟩ := Prod.mk.inj hpair
  have hterms : (c.register.finalLedger rounds).read refs = (logical.map (·, rounds)).map some := by
    rw [List.map_map]
    exact hread
  rw [hone]
  exact congrArg (fun a => [(0, a)]) (Ledger.parity_of_read (terms_nodup c.register_tidy rounds) hlen hterms)

end Parities

/-! ## The addressing of a memory -/

variable (c) in
/-- The numbers of the code's qubits, each of them once. -/
theorem qubits_eq (hblocks : 1 ≤ c.blocks) :
    c.dataQubits ++ c.bitFlipAncillas ++ c.phaseAncillas = List.range (6 * c.blocks - 1) := by
  have hancillas : c.bitFlipAncillas ++ c.phaseAncillas = c.ancillas := rfl
  have hsum : 3 * c.blocks + (3 * c.blocks - 1) = 6 * c.blocks - 1 := by omega
  have hjoin : List.range' 0 (3 * c.blocks) ++ List.range' (3 * c.blocks) (3 * c.blocks - 1) =
      List.range' 0 (6 * c.blocks - 1) := by
    simpa [hsum] using List.range'_append_1 (s := 0) (m := 3 * c.blocks) (n := 3 * c.blocks - 1)
  rw [List.append_assoc, hancillas, ancillas_eq, dataQubits, List.range_eq_range', List.range_eq_range', hjoin]

variable (c) in
/-- The terms of the detectors, written out. -/
theorem detectorTerms_eq {rounds : Nat} (hpos : 1 ≤ rounds) : c.detectorTerms rounds =
    (c.ancillas.map fun a => [(a, 0)]) ++
      ((List.range' 1 (rounds - 1)).flatMap fun r => c.ancillas.map fun a => [(a, r - 1), (a, r)]) ++
      (List.range (c.blocks - 1)).map fun b =>
        ((List.range 6).map fun k => (3 * b + k, rounds)) ++ [(c.phaseAncilla b, rounds - 1)] := by
  obtain ⟨n, rfl⟩ : ∃ n, rounds = n + 1 := ⟨rounds - 1, by omega⟩
  have hlater : (List.range' 1 (n + 1 - 1)).flatMap (fun r => c.ancillas.map fun a => [(a, r - 1), (a, r)]) =
      (List.range n).flatMap fun r => c.roundTerms (r + 1) := by
    rw [List.range'_eq_map_range, List.flatMap_map]
    refine List.flatMap_congr fun r _ => List.map_congr_left fun a _ => ?_
    rw [Nat.add_comm 1 r]
    rfl
  rw [detectorTerms, List.range_succ_eq_map, List.flatMap_cons, List.flatMap_map, hlater]
  rfl

/-- At every positive multiple of three the qubits of the code are numbered without a gap, and its
    memory is built. It measures the ancillas once a round and the data at the end; its detectors
    hold each ancilla's first outcome, each two outcomes of an ancilla in a row, and the final
    outcomes of each two neighbouring blocks with the last one of the ancilla between them; its
    observable holds the final outcomes of the first block. -/
theorem shor_addressing {params : CodeParams} (hp : params.validate = .ok ()) (hthree : params.distance % 3 = 0)
    (hsize : 6 * params.distance < 2 ^ 31) {rounds : Nat} (hpos : 1 ≤ rounds) :
    ∃ c e, make params = .ok c ∧
      [c.dataQubits, c.bitFlipAncillas, c.phaseAncillas].Pairwise List.Disjoint ∧
      c.dataQubits ++ c.bitFlipAncillas ++ c.phaseAncillas = List.range (6 * params.distance - 1) ∧
      c.buildMemory rounds = .ok e ∧
      e.circuit.measured =
        (List.replicate rounds (c.bitFlipAncillas ++ c.phaseAncillas)).flatten ++ List.range (3 * params.distance) ∧
      e.circuit.detectors.map e.ledger.read =
        ((c.ancillas.map fun a => [(a, 0)]) ++
          ((List.range' 1 (rounds - 1)).flatMap fun r => c.ancillas.map fun a => [(a, r - 1), (a, r)]) ++
          (List.range (params.distance - 1)).map fun b =>
            ((List.range 6).map fun k => (3 * b + k, rounds)) ++ [(c.phaseAncilla b, rounds - 1)]).map (List.map some) ∧
      e.circuit.observables.map (fun (index, refs) => (index, e.ledger.read refs)) =
        [(0, [some (0, rounds), some (1, rounds), some (2, rounds)])] := by
  obtain ⟨hblocks, hmake⟩ := make_eq hp hthree
  obtain ⟨h1, h2⟩ := usable_of_validate hp
  set c : ShorCode := ⟨params⟩ with hc
  have hreach := c.register_inReach hsize
  have hqubits := c.qubits_eq hblocks
  have hnodup : (c.dataQubits ++ c.bitFlipAncillas ++ c.phaseAncillas).Nodup := hqubits ▸ List.nodup_range
  have hapart : [c.dataQubits, c.bitFlipAncillas, c.phaseAncillas].Pairwise List.Disjoint := by
    rw [List.append_assoc, List.nodup_append'] at hnodup
    obtain ⟨-, hancillas, hdata⟩ := hnodup
    rw [List.disjoint_append_right] at hdata
    have hphase := (List.nodup_append'.mp hancillas).2.2
    simp [hdata.1, hdata.2, hphase]
  have hmeasured : (c.compiled rounds).circuit.measured =
      (List.replicate rounds (c.bitFlipAncillas ++ c.phaseAncillas)).flatten ++ List.range (3 * params.distance) := by
    rw [Circuit.measured, instructions_compiled, measuredBy_append, measuredBy_program, measuredBy_readout]
    rfl
  have hdetectors := c.detectorTerms_eq hpos ▸ detectors_compiled hreach hpos
  exact ⟨c, c.compiled rounds, hmake, hapart, hqubits, c.buildMemory_eq hsize hblocks h1 h2 hpos, hmeasured, hdetectors,
    observables_compiled hreach hblocks hpos⟩

/-- Three blocks over two rounds. -/
theorem shor_addressing_three : ∃ c e, make ⟨3, .one, .one⟩ = .ok c ∧
    c.dataQubits ++ c.bitFlipAncillas ++ c.phaseAncillas = List.range 17 ∧ c.buildMemory 2 = .ok e ∧
    e.circuit.measured =
      [9, 10, 11, 12, 13, 14, 15, 16, 9, 10, 11, 12, 13, 14, 15, 16, 0, 1, 2, 3, 4, 5, 6, 7, 8] ∧
    e.circuit.detectors.map e.ledger.read =
      ([[(9, 0)], [(10, 0)], [(11, 0)], [(12, 0)], [(13, 0)], [(14, 0)], [(15, 0)], [(16, 0)],
        [(9, 0), (9, 1)], [(10, 0), (10, 1)], [(11, 0), (11, 1)], [(12, 0), (12, 1)],
        [(13, 0), (13, 1)], [(14, 0), (14, 1)], [(15, 0), (15, 1)], [(16, 0), (16, 1)],
        [(0, 2), (1, 2), (2, 2), (3, 2), (4, 2), (5, 2), (15, 1)],
        [(3, 2), (4, 2), (5, 2), (6, 2), (7, 2), (8, 2), (16, 1)]] : List (List Term)).map (List.map some) ∧
    e.circuit.observables.map (fun (index, refs) => (index, e.ledger.read refs)) =
      [(0, [some (0, 2), some (1, 2), some (2, 2)])] := by
  obtain ⟨c, e, hmake, -, hqubits, hbuild, hmeasured, hdetectors, hobservables⟩ :=
    shor_addressing (by rfl : CodeParams.validate ⟨3, .one, .one⟩ = .ok ()) (by decide) (by decide) (by decide : 1 ≤ 2)
  obtain rfl : ⟨⟨3, .one, .one⟩⟩ = c := Except.ok.inj hmake
  exact ⟨_, e, hmake, hqubits, hbuild, hmeasured, hdetectors, hobservables⟩

end ShorCode

end QuantumMemory

/-
  QuantumMemory.Proofs.Build.Program — the instructions and the measurements of a memory.

  A layout whose operations name no qubit twice (`Tidy`) compiles without fail, and what it
  compiles to is written down here: `program` is the circuit after a number of rounds,
  `ledgerAfter` its ledger, `readout` what ends it. Detectors are kept as the terms they
  compare (`roundTerms`, `closingTerms`). `perform_rounds` and `buildMemory_eq` say that
  the actions do just that.
-/

import QuantumMemory.Code.Layout
import QuantumMemory.Proofs.Build.Perform

namespace QuantumMemory

namespace Layout

open Memory

variable (l : Layout)

/-- The operations of the layout name no qubit twice, and its Z checks are all measured. -/
structure Tidy : Prop where
  allQubits : l.allQubits.Nodup
  xChecks : (l.checks .x).Nodup
  layers : ∀ layer ∈ l.layers, (flattenPairs layer).Nodup
  allChecks : l.allChecks.Nodup
  data : l.data.Nodup
  zChecks : l.checks .z ⊆ l.allChecks
  support : ∀ check ∈ l.checks .z, l.support check ⊆ l.data

/-- References reach back over two rounds, and over the data and a round. -/
structure InReach : Prop where
  rounds : 2 * l.allChecks.length ≤ RecordOffset.reach
  readout : l.data.length + l.allChecks.length ≤ RecordOffset.reach

/-! ## What is emitted and entered -/

def layerProgram (p2 : Binary64) (pairs : List (Qubit × Qubit)) : List Instruction :=
  (Instruction.gate .cx (flattenPairs pairs)).kept ++ noise2 p2 pairs ++ [.tick]

/-- A round without its detectors. -/
def extraction (p1 p2 : Binary64) (round : Nat) : List Instruction :=
  (if round = 0 then [] else noise1 p1 l.allChecks) ++ (Instruction.gate .h (l.checks .x)).kept ++
    noise1 p1 (l.checks .x) ++ l.layers.flatMap (layerProgram p2) ++ noise1 p1 l.idleData ++
    (Instruction.gate .h (l.checks .x)).kept ++ noise1 p1 (l.checks .x) ++ noise1 p1 l.allChecks ++
    (Instruction.measureReset l.allChecks).kept

/-- Detectors that compare terms of a ledger. -/
def detectorsFor (ledger : Ledger) (terms : List (List Term)) : List Instruction :=
  terms.flatMap fun ts => (Instruction.detector (ledger.offsets ts)).kept

/-- Those of the checks whose detectors are declared. -/
def declared (checks : List Qubit) : List Qubit := checks.filter fun check => !l.isSkipped check

/-- The terms of a round's detectors. -/
def roundTerms : Nat → List (List Term)
  | 0 => (l.declared (l.checks .z)).map fun check => [(check, 0)]
  | round + 1 => (l.declared l.allChecks).map fun check => [(check, round), (check, round + 1)]

/-- The terms of the detectors that close the Z checks. -/
def closingTerms (rounds : Nat) : List (List Term) :=
  (l.declared (l.checks .z)).map fun check => (l.support check).map (·, rounds) ++ [(check, rounds - 1)]

def checkMeasurements (round : Nat) : List Measurement := l.allChecks.map (⟨·, round, .check⟩)

def dataMeasurements (rounds : Nat) : List Measurement := l.data.map (⟨·, rounds, .data⟩)

/-- The ledger after a number of rounds. -/
def ledgerAfter : Nat → Ledger
  | 0 => .empty
  | round + 1 => (ledgerAfter round).enter (l.checkMeasurements round)

def finalLedger (rounds : Nat) : Ledger := (l.ledgerAfter rounds).enter (l.dataMeasurements rounds)

/-- The round with its detectors. -/
def roundProgram (p1 p2 : Binary64) (round : Nat) : List Instruction :=
  l.extraction p1 p2 round ++ detectorsFor (l.ledgerAfter (round + 1)) (l.roundTerms round)

/-- The preparation and a number of rounds. -/
def program (p1 p2 : Binary64) : Nat → List Instruction
  | 0 => (Instruction.reset l.allQubits).kept ++ noise1 p1 l.allQubits
  | round + 1 => program p1 p2 round ++ l.roundProgram p1 p2 round

/-- What comes after the rounds. -/
def readout (p1 : Binary64) (rounds : Nat) (logical : List Qubit) : List Instruction :=
  noise1 p1 l.data ++ (Instruction.measure l.data).kept ++ detectorsFor (l.finalLedger rounds) (l.closingTerms rounds) ++
    (Instruction.observable 0 ((l.finalLedger rounds).offsets (logical.map (·, rounds)))).kept

/-! ## What is measured -/

theorem measuredBy_kept (i : Instruction) : measuredBy i.kept = if i.kind.measures then i.qubits else [] := by
  unfold Instruction.kept
  split
  · rename_i h
    simp only [Bool.and_eq_true, List.isEmpty_iff] at h
    simp [measuredBy, h.1]
  · simp [measuredBy]

theorem measuredBy_noise1 (p : Binary64) (qubits : List Qubit) : measuredBy (noise1 p qubits) = [] := by
  unfold noise1
  split
  · exact measuredBy_kept _
  · rfl

theorem measuredBy_layers (p2 : Binary64) (layers : List (List (Qubit × Qubit))) :
    measuredBy (layers.flatMap (layerProgram p2)) = [] := by
  induction layers with
  | nil => rfl
  | cons pairs rest ih =>
    have hn : measuredBy (noise2 p2 pairs) = [] := by
      unfold noise2
      split
      · exact measuredBy_kept _
      · rfl
    rw [List.flatMap_cons, measuredBy_append, ih, layerProgram, measuredBy_append, measuredBy_append, measuredBy_kept, hn]
    rfl

theorem measuredBy_detectorsFor (ledger : Ledger) (terms : List (List Term)) :
    measuredBy (detectorsFor ledger terms) = [] := by
  induction terms with
  | nil => rfl
  | cons ts rest ih =>
    rw [detectorsFor, List.flatMap_cons, measuredBy_append, ← detectorsFor, ih, measuredBy_kept]
    rfl

/-- A round measures all checks. -/
theorem measuredBy_extraction (p1 p2 : Binary64) (round : Nat) :
    measuredBy (l.extraction p1 p2 round) = l.allChecks := by
  have h0 : measuredBy (if round = 0 then [] else noise1 p1 l.allChecks) = [] := by
    split
    · rfl
    · exact measuredBy_noise1 _ _
  simp only [extraction, measuredBy_append, h0, measuredBy_noise1, measuredBy_kept, measuredBy_layers]
  rfl

theorem measuredBy_program (p1 p2 : Binary64) (rounds : Nat) :
    measuredBy (l.program p1 p2 rounds) = (List.replicate rounds l.allChecks).flatten := by
  induction rounds with
  | zero =>
    rw [program, measuredBy_append, measuredBy_kept, measuredBy_noise1]
    rfl
  | succ n ih =>
    rw [program, roundProgram, measuredBy_append, measuredBy_append, ih, measuredBy_extraction, measuredBy_detectorsFor,
      List.replicate_succ', List.flatten_append]
    simp

/-- The read-out measures the data. -/
theorem measuredBy_readout (p1 : Binary64) (rounds : Nat) (logical : List Qubit) :
    measuredBy (l.readout p1 rounds logical) = l.data := by
  simp only [readout, measuredBy_append, measuredBy_noise1, measuredBy_kept, measuredBy_detectorsFor]
  exact (List.append_nil _).trans (List.append_nil _)

theorem length_ledgerAfter (rounds : Nat) : (l.ledgerAfter rounds).length = rounds * l.allChecks.length := by
  induction rounds with
  | zero => simp [ledgerAfter, Ledger.length, Ledger.empty]
  | succ n ih => rw [ledgerAfter, Ledger.length_enter, ih, checkMeasurements, List.length_map, Nat.succ_mul]

theorem measurementsOf_extraction (p1 p2 : Binary64) (round : Nat) :
    Circuit.measurementsOf (l.extraction p1 p2 round) = l.allChecks.length := by
  rw [← length_measuredBy, measuredBy_extraction]

theorem measurementsOf_detectorsFor (ledger : Ledger) (terms : List (List Term)) :
    Circuit.measurementsOf (detectorsFor ledger terms) = 0 := by
  rw [← length_measuredBy, measuredBy_detectorsFor]
  rfl

theorem measurementsOf_program (p1 p2 : Binary64) (rounds : Nat) :
    Circuit.measurementsOf (l.program p1 p2 rounds) = (l.ledgerAfter rounds).length := by
  rw [← length_measuredBy, measuredBy_program, length_ledgerAfter]
  simp

/-! ## Which terms are measured -/

theorem terms_ledgerAfter (rounds : Nat) :
    (l.ledgerAfter rounds).terms = (List.range rounds).flatMap fun r => l.allChecks.map (·, r) := by
  induction rounds with
  | zero => rfl
  | succ n ih =>
    rw [ledgerAfter, Ledger.terms_enter, ih, List.range_succ, List.flatMap_append, checkMeasurements, List.map_map]
    simp [Function.comp_def, Measurement.term]

theorem mem_terms_ledgerAfter {rounds : Nat} {t : Term} :
    t ∈ (l.ledgerAfter rounds).terms ↔ t.2 < rounds ∧ t.1 ∈ l.allChecks := by
  obtain ⟨q, r⟩ := t
  simp only [terms_ledgerAfter, List.mem_flatMap, List.mem_range, List.mem_map, Prod.mk.injEq]
  constructor
  · rintro ⟨r', hr, q', hq, rfl, rfl⟩; exact ⟨hr, hq⟩
  · rintro ⟨hr, hq⟩; exact ⟨r, hr, q, hq, rfl, rfl⟩

theorem terms_finalLedger (rounds : Nat) :
    (l.finalLedger rounds).terms =
      ((List.range rounds).flatMap fun r => l.allChecks.map (·, r)) ++ l.data.map (·, rounds) := by
  rw [finalLedger, Ledger.terms_enter, terms_ledgerAfter, dataMeasurements, List.map_map]
  rfl

theorem reaches_enter {ledger : Ledger} {ms : List Measurement} (h : ms.length ≤ RecordOffset.reach) {t : Term}
    (ht : t ∈ ms.map (·.term)) : (ledger.enter ms).Reaches t := by
  obtain ⟨m, hm, rfl⟩ := List.mem_map.mp ht
  refine ⟨m, ?_, rfl⟩
  rw [Ledger.enter, List.take_append, List.take_of_length_le (by simpa using h)]
  exact List.mem_append_left _ (List.mem_reverse.mpr hm)

theorem enter_enter (ledger : Ledger) (ms ns : List Measurement) :
    (ledger.enter ms).enter ns = ledger.enter (ms ++ ns) := by
  simp [Ledger.enter]

variable {l}

/-- The latest two rounds are within reach. -/
theorem check_reaches (hr : l.InReach) {q : Qubit} (hq : q ∈ l.allChecks) {r round : Nat}
    (h : r = round ∨ r + 1 = round) : (l.ledgerAfter (round + 1)).Reaches (q, r) := by
  have hn := hr.rounds
  have hterm : (q, r) ∈ (l.checkMeasurements r).map (·.term) :=
    List.mem_map.mpr ⟨⟨q, r, .check⟩, List.mem_map.mpr ⟨q, hq, rfl⟩, rfl⟩
  rcases h with rfl | rfl
  · exact reaches_enter (by simp only [checkMeasurements, List.length_map]; omega) hterm
  · rw [ledgerAfter, ledgerAfter, enter_enter]
    refine reaches_enter (by simp only [checkMeasurements, List.length_append, List.length_map]; omega) ?_
    rw [List.map_append]
    exact List.mem_append_left _ hterm

/-- The detectors of a round compare outcomes within reach. -/
theorem roundTerms_reach (ht : l.Tidy) (hr : l.InReach) (round : Nat) :
    ∀ ts ∈ l.roundTerms round, ∀ t ∈ ts, (l.ledgerAfter (round + 1)).Reaches t := by
  intro ts hts t hmem
  cases round with
  | zero =>
    obtain ⟨c, hc, rfl⟩ := List.mem_map.mp hts
    rw [List.mem_singleton] at hmem
    exact hmem ▸ check_reaches hr (ht.zChecks (List.mem_filter.mp hc).1) (.inl rfl)
  | succ r =>
    obtain ⟨c, hc, rfl⟩ := List.mem_map.mp hts
    have hc := (List.mem_filter.mp hc).1
    simp only [List.mem_cons, List.not_mem_nil, or_false] at hmem
    rcases hmem with rfl | rfl
    · exact check_reaches hr hc (.inr rfl)
    · exact check_reaches hr hc (.inl rfl)

/-- After at least one round the read-out and the latest round are within reach. -/
theorem final_reach (hr : l.InReach) {rounds : Nat} (h : 1 ≤ rounds) {q : Qubit} :
    (q ∈ l.data → (l.finalLedger rounds).Reaches (q, rounds)) ∧
      (q ∈ l.allChecks → (l.finalLedger rounds).Reaches (q, rounds - 1)) := by
  have hn := hr.readout
  obtain ⟨r, rfl⟩ : ∃ r, rounds = r + 1 := ⟨rounds - 1, by omega⟩
  rw [finalLedger, ledgerAfter, enter_enter]
  have hlen : (l.checkMeasurements r ++ l.dataMeasurements (r + 1)).length ≤ RecordOffset.reach := by
    simp only [checkMeasurements, dataMeasurements, List.length_append, List.length_map]; omega
  refine ⟨fun hq => reaches_enter hlen ?_, fun hq => reaches_enter hlen ?_⟩
  · rw [List.map_append, List.mem_append]
    exact .inr (List.mem_map.mpr ⟨⟨q, r + 1, .data⟩, List.mem_map.mpr ⟨q, hq, rfl⟩, rfl⟩)
  · rw [List.map_append, List.mem_append]
    exact .inl (List.mem_map.mpr ⟨⟨q, r, .check⟩, List.mem_map.mpr ⟨q, hq, rfl⟩, rfl⟩)

theorem closingTerms_reach (ht : l.Tidy) (hr : l.InReach) {rounds : Nat} (h : 1 ≤ rounds) :
    ∀ ts ∈ l.closingTerms rounds, ∀ t ∈ ts, (l.finalLedger rounds).Reaches t := by
  intro ts hts t hmem
  obtain ⟨c, hc, rfl⟩ := List.mem_map.mp hts
  have hc := (List.mem_filter.mp hc).1
  rcases List.mem_append.mp hmem with hmem | hmem
  · obtain ⟨q, hq, rfl⟩ := List.mem_map.mp hmem
    exact (final_reach hr h).1 (ht.support c hc hq)
  · rw [List.mem_singleton] at hmem
    subst hmem
    exact (final_reach hr h).2 (ht.zChecks hc)

/-! ## The actions do just that -/

theorem perform_appendLayer {m : Memory} (h2 : Usable m.p2) {pairs : List (Qubit × Qubit)}
    (hn : (flattenPairs pairs).Nodup) : m.perform (appendLayer pairs) = (.ok (), m.emit (layerProgram m.p2 pairs)) := by
  rw [appendLayer, perform_bind (perform_cx m hn), perform_bind (perform_depolarize2 (by exact h2) (pairs_apart hn)),
    perform_tick, layerProgram, emit_append, emit_append]
  rfl

theorem perform_layers {m : Memory} (h2 : Usable m.p2) {layers : List (List (Qubit × Qubit))}
    (hn : ∀ pairs ∈ layers, (flattenPairs pairs).Nodup) :
    m.perform (layers.forM appendLayer) = (.ok (), m.emit (layers.flatMap (layerProgram m.p2))) := by
  refine perform_forM (fun done => m.emit (done.flatMap (layerProgram m.p2))) fun done pairs rest hd => ?_
  rw [perform_appendLayer (by exact h2) (hn pairs (by simp [hd])), List.flatMap_append, emit_append]
  simp

theorem perform_appendDetector {m : Memory} (hph : m.phase ∈ [Phase.rounds, .finalizing]) (hl : m.Lockstep)
    (check : Qubit) (terms : List Term) :
    m.perform (l.appendDetector check terms) =
      (.ok (), m.emit (detectorsFor m.ledger ((l.declared [check]).map fun _ => terms))) := by
  unfold appendDetector
  cases hs : l.isSkipped check with
  | true => simp [declared, hs, detectorsFor]; rfl
  | false =>
    simp only [Bool.false_eq_true, if_false, declared, List.filter_cons, hs, Bool.not_false, if_true, List.filter_nil,
      List.map_cons, List.map_nil, detectorsFor, List.flatMap_cons, List.flatMap_nil, List.append_nil]
    exact perform_discard (perform_detector hph hl terms)

/-- A loop of detectors declares them in turn. -/
theorem perform_detectors {m : Memory} (hph : m.phase ∈ [Phase.rounds, .finalizing]) (hl : m.Lockstep)
    (checks : List Qubit) (terms : Qubit → List Term) :
    m.perform (checks.forM fun check => l.appendDetector check (terms check)) =
      (.ok (), m.emit (detectorsFor m.ledger ((l.declared checks).map terms))) := by
  refine perform_forM (fun done => m.emit (detectorsFor m.ledger ((l.declared done).map terms))) fun done check rest _ => ?_
  have hl' := hl.emit (measurementsOf_detectorsFor m.ledger ((l.declared done).map terms))
  rw [perform_appendDetector (by exact hph) hl', ← emit_append, emit_ledger]
  congr 2
  rw [declared, declared, declared, List.filter_append, List.map_append, detectorsFor, detectorsFor, detectorsFor,
    List.flatMap_append]
  congr 2
  cases hs : l.isSkipped check <;> simp [hs]

/-- A round after its first noise. -/
def roundBody (l : Layout) (round : Nat) : Build Unit := do
  Build.h (l.checks .x)
  Build.depolarize1 (l.checks .x)
  l.layers.forM appendLayer
  Build.depolarize1 l.idleData
  Build.h (l.checks .x)
  Build.depolarize1 (l.checks .x)
  Build.depolarize1 l.allChecks
  Build.measureReset l.allChecks round .check
  l.appendDetectors round

theorem appendRound_eq (round : Nat) : l.appendRound round = Build.beginRound round >>= fun _ =>
    (if round = 0 then pure () else Build.depolarize1 l.allChecks) >>= fun _ => l.roundBody round := by
  unfold appendRound
  split
  · rfl
  · rfl

theorem perform_appendDetectors {m : Memory} {round : Nat} (hph : m.phase = .rounds) (hl : m.Lockstep)
    (hledger : m.ledger = l.ledgerAfter (round + 1)) :
    m.perform (l.appendDetectors round) =
      (.ok (), m.emit (detectorsFor (l.ledgerAfter (round + 1)) (l.roundTerms round))) := by
  cases round with
  | zero => rw [appendDetectors, perform_detectors (by simp [hph]) hl, hledger]; rfl
  | succ r => rw [appendDetectors, perform_detectors (by simp [hph]) hl, hledger]; rfl

theorem perform_appendRound {m : Memory} (ht : l.Tidy) (h1 : Usable m.p1) (h2 : Usable m.p2) (round : Nat)
    (hph : m.phase ∈ [Phase.init, .rounds]) (hr : m.roundsStarted = round) (hledger : m.ledger = l.ledgerAfter round)
    (hl : m.Lockstep) :
    m.perform (l.appendRound round) = (.ok (), { (m.emit (l.roundProgram m.p1 m.p2 round)) with
      ledger := l.ledgerAfter (round + 1), phase := .rounds, roundsStarted := round + 1 }) := by
  have hbegin := perform_beginRound hph hr
  set m0 : Memory := { m with phase := .rounds, roundsStarted := round + 1 } with hm0
  have hfirst : m0.perform (if round = 0 then pure () else Build.depolarize1 l.allChecks) =
      (.ok (), m0.emit (if round = 0 then [] else noise1 m0.p1 l.allChecks)) := by
    split
    · rfl
    · exact perform_depolarize1 (m := m0) h1 _
  have hfresh : ∀ q ∈ l.allChecks, (q, round) ∉ m.ledger.terms := by
    intro q _ hq
    rw [hledger] at hq
    exact absurd ((mem_terms_ledgerAfter l).mp hq).1 (Nat.lt_irrefl _)
  have hl' : ((m0.emit (l.extraction m0.p1 m0.p2 round)).enter (l.checkMeasurements round)).Lockstep := by
    refine Lockstep.emit_enter (m := m0) (by exact hl) ?_
    rw [measurementsOf_extraction, checkMeasurements, List.length_map]
  have hshape : ((m0.emit (l.extraction m0.p1 m0.p2 round)).enter (l.checkMeasurements round)).ledger =
      l.ledgerAfter (round + 1) := by
    show m.ledger.enter _ = _
    rw [hledger, ledgerAfter]
  rw [appendRound_eq, perform_bind hbegin, perform_bind hfirst, roundBody, perform_bind (perform_h _ ht.xChecks),
    perform_bind (perform_depolarize1 (by exact h1) _), perform_bind (perform_layers (by exact h2) ht.layers),
    perform_bind (perform_depolarize1 (by exact h1) _), perform_bind (perform_h _ ht.xChecks),
    perform_bind (perform_depolarize1 (by exact h1) _), perform_bind (perform_depolarize1 (by exact h1) _),
    Build.measureReset, perform_bind (perform_measuring (by rfl) _ (by rfl) .check ht.allChecks (by exact hfresh))]
  simp only [emit_p1, emit_p2, ← emit_append]
  refine Eq.trans (perform_appendDetectors rfl hl' hshape) ?_
  rw [roundProgram, emit_append]
  simp only [Prod.mk.injEq, true_and]
  simp only [emit, Memory.enter, hm0, hledger, ledgerAfter, ← Circuit.extendAll_append]
  rfl

/-- The memory after the preparation and a number of rounds. -/
def memoryAfter (l : Layout) (name : String) (params : CodeParams) (rounds : Nat) : Memory where
  circuit := (Circuit.empty name).extendAll (l.program params.depolarize1Rate params.depolarize2Rate rounds)
  ledger := l.ledgerAfter rounds
  phase := if rounds = 0 then .init else .rounds
  roundsStarted := rounds
  p1 := params.depolarize1Rate
  p2 := params.depolarize2Rate

theorem memoryAfter_lockstep (name : String) (params : CodeParams) (rounds : Nat) :
    (l.memoryAfter name params rounds).Lockstep := by
  show (l.ledgerAfter rounds).length = ((Circuit.empty name).extendAll _).numMeasurements
  rw [Circuit.numMeasurements_extendAll, measurementsOf_program]
  simp [Circuit.empty]

/-- Preparing and starting a number of rounds. -/
def upToRound (l : Layout) (rounds : Nat) : Build Unit := do
  Build.prepare l.allQubits
  (List.range rounds).forM l.appendRound

theorem perform_rounds (ht : l.Tidy) (name : String) {params : CodeParams} (h1 : Usable params.depolarize1Rate)
    (h2 : Usable params.depolarize2Rate) (rounds : Nat) :
    (Memory.start name params).perform (l.upToRound rounds) = (.ok (), l.memoryAfter name params rounds) := by
  rw [upToRound, perform_bind (perform_prepare (m := Memory.start name params) rfl h1 ht.allQubits)]
  refine perform_range (fun k => l.memoryAfter name params k) (fun k => ?_) rounds
  have hph : (l.memoryAfter name params k).phase ∈ [Phase.init, .rounds] := by
    simp only [memoryAfter]; split <;> simp
  refine (perform_appendRound ht (by exact h1) (by exact h2) k hph rfl rfl
    (memoryAfter_lockstep name params _)).trans ?_
  simp only [memoryAfter, emit, program, Circuit.extendAll_append]
  simp

theorem perform_appendReadout (ht : l.Tidy) (hr : l.InReach) {m : Memory} {rounds : Nat} (hpos : 1 ≤ rounds)
    (h1 : Usable m.p1) (hph : m.phase = .rounds) (hledger : m.ledger = l.ledgerAfter rounds) (hl : m.Lockstep)
    {logical : List Qubit} (hlog : ∀ q ∈ logical, q ∈ l.data) :
    m.perform (l.appendReadout rounds logical) = (.ok (), { (m.emit (l.readout m.p1 rounds logical)) with
      ledger := l.finalLedger rounds, phase := .finalizing }) := by
  set m0 : Memory := { m with phase := .finalizing } with hm0
  have hfresh : ∀ q ∈ l.data, (q, rounds) ∉ m.ledger.terms := by
    intro q _ hq
    rw [hledger] at hq
    exact absurd ((mem_terms_ledgerAfter l).mp hq).1 (Nat.lt_irrefl _)
  set m1 : Memory := (m0.emit (noise1 m0.p1 l.data ++ (Instruction.measure l.data).kept)).enter (l.dataMeasurements rounds)
    with hm1
  have hl1 : m1.Lockstep := by
    refine Lockstep.emit_enter (m := m0) (by exact hl) ?_
    rw [← length_measuredBy, measuredBy_append, measuredBy_noise1, measuredBy_kept, dataMeasurements, List.length_map]
    rfl
  have hledger1 : m1.ledger = l.finalLedger rounds := by
    show m.ledger.enter _ = _
    rw [hledger, finalLedger]
  have hmeasure : (m0.emit (noise1 m0.p1 l.data)).perform (Build.measure l.data rounds .data) = (.ok (), m1) := by
    rw [Build.measure, perform_measuring (by rfl) _ (by rfl) .data ht.data (by exact hfresh), ← emit_append]
    rfl
  have hclose := perform_detectors (l := l) (m := m1) (by simp [hm1, hm0]) hl1 (l.checks .z)
    fun check => (l.support check).map (·, rounds) ++ [(check, rounds - 1)]
  have hlog' : ∀ t ∈ logical.map (·, rounds), (l.finalLedger rounds).Reaches t := by
    intro t hmem
    obtain ⟨q, hq, rfl⟩ := List.mem_map.mp hmem
    exact (final_reach hr hpos).1 (hlog q hq)
  rw [appendReadout, perform_bind (perform_beginFinalize hph), perform_bind (perform_depolarize1 (m := m0) h1 _),
    perform_bind hmeasure, perform_bind hclose, hledger1]
  have hl2 := hl1.emit (measurementsOf_detectorsFor (l.finalLedger rounds) (l.closingTerms rounds))
  refine Eq.trans (perform_observable (by rfl) hl2 0 (by rw [emit_ledger, hledger1]; exact hlog')) ?_
  rw [emit_ledger, hledger1, ← emit_append]
  simp only [Prod.mk.injEq, true_and]
  simp only [emit, Memory.enter, hm1, hm0, hledger, finalLedger, ← Circuit.extendAll_append, readout, closingTerms,
    List.append_assoc]

/-- The experiment that a memory compiles to. -/
def compiled (l : Layout) (name : String) (params : CodeParams) (rounds : Nat) (logical : List Qubit) : Experiment where
  circuit := (Circuit.empty name).extendAll (l.program params.depolarize1Rate params.depolarize2Rate rounds ++
    l.readout params.depolarize1Rate rounds logical)
  ledger := l.finalLedger rounds
  rounds := rounds

theorem buildMemory_eq (ht : l.Tidy) (hr : l.InReach) (name : String) {params : CodeParams}
    (h1 : Usable params.depolarize1Rate) (h2 : Usable params.depolarize2Rate) {rounds : Nat} (hpos : 1 ≤ rounds)
    {logical : List Qubit} (hlog : ∀ q ∈ logical, q ∈ l.data) :
    l.buildMemory name params rounds logical = .ok (l.compiled name params rounds logical) := by
  have hmem : l.memory rounds logical = l.upToRound rounds >>= fun _ => l.appendReadout rounds logical >>= fun _ =>
      Build.finish := by
    rw [memory, upToRound, bind_assoc]
  have hph : (l.memoryAfter name params rounds).phase = .rounds := if_neg (by omega)
  have hreadout := perform_appendReadout ht hr (m := l.memoryAfter name params rounds) hpos h1 hph rfl
    (memoryAfter_lockstep name params rounds) hlog
  rw [buildMemory, validateRounds, if_neg (by omega)]
  show ((Memory.start name params).perform (l.memory rounds logical)).1 = _
  rw [hmem, perform_bind (perform_rounds ht name h1 h2 rounds), perform_bind hreadout, perform_finish rfl]
  simp only [memoryAfter, emit, Circuit.extendAll_append, compiled]

theorem instructions_compiled (name : String) (params : CodeParams) (rounds : Nat) (logical : List Qubit) :
    (l.compiled name params rounds logical).circuit.instructions =
      l.program params.depolarize1Rate params.depolarize2Rate rounds ++ l.readout params.depolarize1Rate rounds logical :=
  Circuit.instructions_extendAll _ _

/-- Valid rates can be built with. -/
theorem usable_of_validate {params : CodeParams} (h : params.validate = .ok ()) :
    Usable params.depolarize1Rate ∧ Usable params.depolarize2Rate := by
  unfold CodeParams.validate CodeParams.checkRate at h
  by_cases hd : params.distance = 0
  · simp [hd, throw, throwThe, MonadExceptOf.throw, bind, Except.bind] at h
  · by_cases h1 : params.depolarize1Rate.isProbability = true
    · by_cases h2 : params.depolarize2Rate.isProbability = true
      · exact ⟨fun _ => h1, fun _ => h2⟩
      · simp [hd, h1, h2, bind, Except.bind] at h
    · simp [hd, h1, bind, Except.bind] at h

end Layout

end QuantumMemory

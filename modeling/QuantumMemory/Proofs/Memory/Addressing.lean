/-
  QuantumMemory.Proofs.Memory.Addressing — the outcomes that a compiled memory compares.

  Every reference in a memory is read at its place in the stream and looked up in the
  finished ledger. The detectors then compare what `detectorTerms` lists, one after the
  other and nothing else, and the observable holds the logical qubits' final outcomes
  (`memory_addressing`). References move with every measurement; what carries the proof is
  that a look-up refers to its term and that ledgers only grow. What a stream has to do for
  this is `Rounds`, which says nothing about the gates between the measurements.
-/

import QuantumMemory.Proofs.Graph.Layout

namespace QuantumMemory

/-! ## Instructions that declare nothing -/

/-- Neither detectors nor observables. -/
def Quiet (is : List Instruction) : Prop := ∀ i ∈ is, i.kind ≠ .detector ∧ i.kind.isObservable = false

theorem Quiet.append {is js : List Instruction} (h : Quiet is) (h' : Quiet js) : Quiet (is ++ js) :=
  List.forall_mem_append.mpr ⟨h, h'⟩

theorem quiet_nil : Quiet [] := fun _ h => absurd h List.not_mem_nil

theorem quiet_kept {i : Instruction} (h : i.kind ≠ .detector ∧ i.kind.isObservable = false) : Quiet i.kept := by
  unfold Instruction.kept
  split
  · exact quiet_nil
  · exact List.forall_mem_singleton.mpr h

theorem detectorsOf_append (a b : List (Instruction.Kind × List (Option Nat))) :
    detectorsOf (a ++ b) = detectorsOf a ++ detectorsOf b := List.filterMap_append

theorem observablesOf_append (a b : List (Instruction.Kind × List (Option Nat))) :
    observablesOf (a ++ b) = observablesOf a ++ observablesOf b := List.filterMap_append

theorem Quiet.detectors {is : List Instruction} (h : Quiet is) (n : Nat) : detectorsOf (referencesFrom n is) = [] := by
  induction is generalizing n with
  | nil => rfl
  | cons i rest ih =>
    obtain ⟨hi, hrest⟩ := List.forall_mem_cons.mp h
    have hskip : detectorsOf [(i.kind, i.records.map (·.resolve? n))] = [] := by simp [detectorsOf, hi.1]
    rw [referencesFrom, ← List.singleton_append, detectorsOf_append, hskip, ih hrest]
    rfl

/-- Without an instruction that declares one there is no observable. -/
theorem observables_unobserved {is : List Instruction} (h : ∀ i ∈ is, i.kind.isObservable = false) (n : Nat) :
    observablesOf (referencesFrom n is) = [] := by
  induction is generalizing n with
  | nil => rfl
  | cons i rest ih =>
    obtain ⟨hi, hrest⟩ := List.forall_mem_cons.mp h
    have hskip : observablesOf [(i.kind, i.records.map (·.resolve? n))] = [] := by
      cases hk : i.kind <;> simp_all [observablesOf, Instruction.Kind.isObservable]
    rw [referencesFrom, ← List.singleton_append, observablesOf_append, hskip, ih hrest]
    rfl

theorem Quiet.observables {is : List Instruction} (h : Quiet is) (n : Nat) :
    observablesOf (referencesFrom n is) = [] := observables_unobserved (fun i hi => (h i hi).2) n

namespace Ledger

/-- The terms that outcomes stand for. -/
def read (l : Ledger) (refs : List (Option Nat)) : List (Option Term) := refs.map fun ref => ref.bind l.term?

/-- Outcomes keep their terms when the ledger grows. -/
theorem read_offsets {l : Ledger} {ts : List Term} (h : ∀ t ∈ ts, l.Reaches t) (ms : List Measurement) :
    (l.enter ms).read ((l.offsets ts).map (·.resolve? l.length)) = ts.map some := by
  obtain ⟨-, -, hread⟩ := offsets_spec h
  rw [read, List.map_map, ← hread]
  refine List.map_congr_left fun o ho => ?_
  obtain ⟨⟨q, r⟩, -, hl⟩ := List.mem_filterMap.mp ho
  obtain ⟨i, hi, ht⟩ := lookup?_spec hl
  simp only [Function.comp_apply, hi, Option.bind_some]
  rw [ht, term?_enter l ms ht]

end Ledger

namespace Layout

open Memory

variable {l : Layout}

/-- The terms of all detectors. -/
def detectorTerms (l : Layout) (rounds : Nat) : List (List Term) :=
  (List.range rounds).flatMap l.roundTerms ++ l.closingTerms rounds

theorem quiet_noise1 (p : Binary64) (qubits : List Qubit) : Quiet (noise1 p qubits) := by
  unfold noise1
  split
  · exact quiet_kept (by simp [Instruction.noise, Instruction.Kind.isObservable])
  · exact quiet_nil

theorem quiet_layerProgram (p2 : Binary64) (pairs : List (Qubit × Qubit)) : Quiet (layerProgram p2 pairs) := by
  have hn : Quiet (noise2 p2 pairs) := by
    unfold noise2
    split
    · exact quiet_kept (by simp [Instruction.noise, Instruction.Kind.isObservable])
    · exact quiet_nil
  refine ((quiet_kept ?_).append hn).append (List.forall_mem_singleton.mpr ?_)
  · simp [Instruction.gate, Instruction.Kind.isObservable]
  · simp [Instruction.tick, Instruction.Kind.isObservable]

theorem quiet_layers (p2 : Binary64) (layers : List (List (Qubit × Qubit))) :
    Quiet (layers.flatMap (layerProgram p2)) := by
  intro i hi
  obtain ⟨pairs, -, hi⟩ := List.mem_flatMap.mp hi
  exact quiet_layerProgram p2 pairs i hi

theorem quiet_gate (g : Gate) (qubits : List Qubit) : Quiet (Instruction.gate g qubits).kept :=
  quiet_kept (by simp [Instruction.gate, Instruction.Kind.isObservable])

theorem quiet_extraction (l : Layout) (p1 p2 : Binary64) (round : Nat) : Quiet (l.extraction p1 p2 round) := by
  have h0 : Quiet (if round = 0 then [] else noise1 p1 l.allChecks) := by
    split
    · exact quiet_nil
    · exact quiet_noise1 _ _
  have hm : Quiet (Instruction.measureReset l.allChecks).kept :=
    quiet_kept (by simp [Instruction.measureReset, Instruction.Kind.isObservable])
  exact (((((((h0.append (quiet_gate _ _)).append (quiet_noise1 _ _)).append (quiet_layers _ _)).append
    (quiet_noise1 _ _)).append (quiet_gate _ _)).append (quiet_noise1 _ _)).append (quiet_noise1 _ _)).append hm

theorem quiet_preparation (l : Layout) (p1 : Binary64) :
    Quiet ((Instruction.reset l.allQubits).kept ++ noise1 p1 l.allQubits) :=
  (quiet_kept (by simp [Instruction.reset, Instruction.Kind.isObservable])).append (quiet_noise1 _ _)

/-! ## Detectors are read as their terms -/

theorem offsets_ne_nil {ledger : Ledger} {ts : List Term} (hne : ts ≠ []) (h : ∀ t ∈ ts, ledger.Reaches t) :
    ledger.offsets ts ≠ [] := by
  intro he
  have hlen := (Ledger.offsets_spec h).1
  rw [he] at hlen
  exact hne (List.length_eq_zero_iff.mp hlen.symm)

theorem kept_detector {records : List RecordOffset} (h : records ≠ []) :
    (Instruction.detector records).kept = [Instruction.detector records] := by
  simp [Instruction.kept, Instruction.detector, h]

theorem kept_observable (index : Nat) {records : List RecordOffset} (h : records ≠ []) :
    (Instruction.observable index records).kept = [Instruction.observable index records] := by
  simp [Instruction.kept, Instruction.observable, h]

theorem read_detectorsFor {ledger : Ledger} {terms : List (List Term)} (hne : ∀ ts ∈ terms, ts ≠ [])
    (h : ∀ ts ∈ terms, ∀ t ∈ ts, ledger.Reaches t) (ms : List Measurement) :
    (detectorsOf (referencesFrom ledger.length (detectorsFor ledger terms))).map (ledger.enter ms).read =
      terms.map (List.map some) := by
  induction terms with
  | nil => rfl
  | cons ts rest ih =>
    obtain ⟨hts, hrest⟩ := List.forall_mem_cons.mp h
    obtain ⟨hne', hnes⟩ := List.forall_mem_cons.mp hne
    rw [detectorsFor, List.flatMap_cons, kept_detector (offsets_ne_nil hne' hts), List.singleton_append, referencesFrom,
      detectorsOf, List.filterMap_cons]
    simp only [Instruction.detector, if_true, Instruction.measurements, Instruction.Kind.measures, Bool.false_eq_true,
      if_false, Nat.add_zero]
    rw [List.map_cons, Ledger.read_offsets hts ms, List.map_cons]
    exact congrArg _ (ih hnes hrest)

theorem observables_detectorsFor (ledger : Ledger) (terms : List (List Term)) (n : Nat) :
    observablesOf (referencesFrom n (detectorsFor ledger terms)) = [] := by
  induction terms generalizing n with
  | nil => rfl
  | cons ts rest ih =>
    have hone : ∀ m, observablesOf (referencesFrom m (Instruction.detector (ledger.offsets ts)).kept) = [] := by
      intro m
      unfold Instruction.kept
      split <;> rfl
    rw [detectorsFor, List.flatMap_cons, referencesFrom_append, observablesOf_append, hone]
    exact ih _

/-! ## Rounds and their read-out -/

/-- A stream that measures the checks of a layout round by round, each time with detectors over
    outcomes that are within reach. -/
structure Rounds (l : Layout) (program extraction : Nat → List Instruction) (terms : Nat → List (List Term)) : Prop where
  start : Quiet (program 0)
  quiet : ∀ r, Quiet (extraction r)
  step : ∀ r, program (r + 1) = program r ++ (extraction r ++ detectorsFor (l.ledgerAfter (r + 1)) (terms r))
  counted : ∀ r, Circuit.measurementsOf (program r) = (l.ledgerAfter r).length
  named : ∀ r, ∀ ts ∈ terms r, ts ≠ []
  reach : ∀ r, ∀ ts ∈ terms r, ∀ t ∈ ts, (l.ledgerAfter (r + 1)).Reaches t

/-- What follows the rounds: the data is measured, the last detectors compare `terms`, and the
    observable holds the logical qubits. -/
def ending (l : Layout) (measureData : List Instruction) (rounds : Nat) (terms : List (List Term)) (logical : List Qubit) :
    List Instruction :=
  measureData ++ (detectorsFor (l.finalLedger rounds) terms ++
    (Instruction.observable 0 ((l.finalLedger rounds).offsets (logical.map (·, rounds)))).kept)

theorem referencesFrom_ending {measureData : List Instruction}
    (hcount : Circuit.measurementsOf measureData = l.data.length) (rounds : Nat) (terms : List (List Term))
    (logical : List Qubit) :
    referencesFrom (l.ledgerAfter rounds).length (l.ending measureData rounds terms logical) =
      referencesFrom (l.ledgerAfter rounds).length measureData ++
      (referencesFrom (l.finalLedger rounds).length (detectorsFor (l.finalLedger rounds) terms) ++
      referencesFrom (l.finalLedger rounds).length
        (Instruction.observable 0 ((l.finalLedger rounds).offsets (logical.map (·, rounds)))).kept) := by
  have hlen : (l.ledgerAfter rounds).length + Circuit.measurementsOf measureData = (l.finalLedger rounds).length := by
    rw [hcount, finalLedger, Ledger.length_enter, dataMeasurements, List.length_map]
  have htail := referencesFrom_append (l.finalLedger rounds).length (detectorsFor (l.finalLedger rounds) terms)
    (Instruction.observable 0 ((l.finalLedger rounds).offsets (logical.map (·, rounds)))).kept
  rw [measurementsOf_detectorsFor, Nat.add_zero] at htail
  rw [ending, referencesFrom_append, hlen, htail]

namespace Rounds

variable {program extraction : Nat → List Instruction} {terms : Nat → List (List Term)}
  (h : l.Rounds program extraction terms)

include h

theorem read_round (r : Nat) (ms : List Measurement) :
    (detectorsOf (referencesFrom (l.ledgerAfter r).length
      (extraction r ++ detectorsFor (l.ledgerAfter (r + 1)) (terms r)))).map ((l.ledgerAfter (r + 1)).enter ms).read =
      (terms r).map (List.map some) := by
  have hlen : (l.ledgerAfter r).length + Circuit.measurementsOf (extraction r) = (l.ledgerAfter (r + 1)).length := by
    rw [← h.counted, ← h.counted, h.step, Circuit.measurementsOf_append, Circuit.measurementsOf_append,
      measurementsOf_detectorsFor, Nat.add_zero]
  rw [referencesFrom_append, detectorsOf_append, (h.quiet r).detectors, hlen, List.nil_append]
  exact read_detectorsFor (h.named r) (h.reach r) ms

/-- Read in any later ledger, the detectors of the rounds compare the terms of the rounds. -/
theorem read_program (rounds : Nat) (ms : List Measurement) :
    (detectorsOf (referencesFrom 0 (program rounds))).map ((l.ledgerAfter rounds).enter ms).read =
      ((List.range rounds).flatMap terms).map (List.map some) := by
  induction rounds generalizing ms with
  | zero =>
    rw [h.start.detectors]
    rfl
  | succ n ih =>
    rw [h.step, referencesFrom_append, detectorsOf_append, List.map_append, Nat.zero_add, h.counted, h.read_round,
      ledgerAfter, enter_enter, ih, List.range_succ, List.flatMap_append, List.map_append]
    simp

theorem observables_program (rounds n : Nat) : observablesOf (referencesFrom n (program rounds)) = [] := by
  induction rounds with
  | zero => exact h.start.observables n
  | succ k ih =>
    rw [h.step, referencesFrom_append, observablesOf_append, ih, referencesFrom_append, observablesOf_append,
      (h.quiet k).observables, observables_detectorsFor]
    rfl

variable {measureData : List Instruction} (hquiet : Quiet measureData)
  (hcount : Circuit.measurementsOf measureData = l.data.length) {rounds : Nat}

include hquiet hcount

theorem read_detectors {closing : List (List Term)} (hne : ∀ ts ∈ closing, ts ≠ [])
    (hreach : ∀ ts ∈ closing, ∀ t ∈ ts, (l.finalLedger rounds).Reaches t) (logical : List Qubit) :
    (detectorsOf (referencesFrom 0 (program rounds ++ l.ending measureData rounds closing logical))).map
      (l.finalLedger rounds).read = ((List.range rounds).flatMap terms ++ closing).map (List.map some) := by
  have hobs : ∀ n records, detectorsOf (referencesFrom n (Instruction.observable 0 records).kept) = [] := by
    intro n records
    unfold Instruction.kept
    split <;> rfl
  rw [referencesFrom_append, detectorsOf_append, Nat.zero_add, h.counted, referencesFrom_ending hcount,
    detectorsOf_append, detectorsOf_append, hquiet.detectors, hobs, List.append_nil, List.nil_append, List.map_append,
    List.map_append]
  exact congrArg₂ (· ++ ·) (h.read_program rounds (l.dataMeasurements rounds)) (read_detectorsFor hne hreach [])

theorem read_observables (closing : List (List Term)) {logical : List Qubit}
    (hreach : ∀ t ∈ logical.map (·, rounds), (l.finalLedger rounds).Reaches t) :
    (observablesOf (referencesFrom 0 (program rounds ++ l.ending measureData rounds closing logical))).map
        (fun (index, refs) => (index, (l.finalLedger rounds).read refs)) =
      if logical = [] then [] else [(0, logical.map fun q => some (q, rounds))] := by
  rw [referencesFrom_append, observablesOf_append, Nat.zero_add, h.counted, referencesFrom_ending hcount,
    observablesOf_append, observablesOf_append, h.observables_program, hquiet.observables, observables_detectorsFor,
    List.nil_append, List.nil_append, List.nil_append]
  by_cases he : logical = []
  · subst he
    rfl
  · have hne : (l.finalLedger rounds).offsets (logical.map (·, rounds)) ≠ [] :=
      offsets_ne_nil (by simpa using he) hreach
    rw [if_neg he, kept_observable 0 hne]
    have hread := Ledger.read_offsets hreach []
    rw [List.map_map] at hread
    exact congrArg (fun refs => [(0, refs)]) hread

end Rounds

/-! ## The whole memory -/

theorem measured_compiled (name : String) (params : CodeParams) (rounds : Nat) (logical : List Qubit) :
    (l.compiled name params rounds logical).circuit.measured =
      (List.replicate rounds l.allChecks).flatten ++ l.data := by
  rw [Circuit.measured, instructions_compiled, measuredBy_append, measuredBy_program, measuredBy_readout]

theorem roundTerms_ne_nil (round : Nat) : ∀ ts ∈ l.roundTerms round, ts ≠ [] := by
  intro ts hts
  cases round with
  | zero => obtain ⟨c, -, rfl⟩ := List.mem_map.mp hts; simp
  | succ r => obtain ⟨c, -, rfl⟩ := List.mem_map.mp hts; simp

theorem closingTerms_ne_nil (rounds : Nat) : ∀ ts ∈ l.closingTerms rounds, ts ≠ [] := by
  intro ts hts
  obtain ⟨c, -, rfl⟩ := List.mem_map.mp hts
  simp

theorem program_rounds (ht : l.Tidy) (hr : l.InReach) (p1 p2 : Binary64) :
    l.Rounds (l.program p1 p2) (l.extraction p1 p2) l.roundTerms where
  start := quiet_preparation l p1
  quiet := quiet_extraction l p1 p2
  step _ := rfl
  counted := measurementsOf_program l p1 p2
  named := roundTerms_ne_nil
  reach := roundTerms_reach ht hr

theorem readout_eq (p1 : Binary64) (rounds : Nat) (logical : List Qubit) : l.readout p1 rounds logical =
    l.ending (noise1 p1 l.data ++ (Instruction.measure l.data).kept) rounds (l.closingTerms rounds) logical := by
  rw [readout, ending, List.append_assoc]

theorem quiet_measureData (l : Layout) (p1 : Binary64) :
    Quiet (noise1 p1 l.data ++ (Instruction.measure l.data).kept) :=
  (quiet_noise1 _ _).append (quiet_kept (by simp [Instruction.measure, Instruction.Kind.isObservable]))

theorem measurementsOf_measureData (l : Layout) (p1 : Binary64) :
    Circuit.measurementsOf (noise1 p1 l.data ++ (Instruction.measure l.data).kept) = l.data.length := by
  rw [← length_measuredBy, measuredBy_append, measuredBy_noise1, measuredBy_kept]
  rfl

theorem detectors_compiled (ht : l.Tidy) (hr : l.InReach) (name : String) (params : CodeParams) {rounds : Nat}
    (hpos : 1 ≤ rounds) (logical : List Qubit) :
    (l.compiled name params rounds logical).circuit.detectors.map (l.compiled name params rounds logical).ledger.read =
      (l.detectorTerms rounds).map (List.map some) := by
  rw [Circuit.detectors, instructions_compiled, readout_eq]
  exact (program_rounds ht hr _ _).read_detectors (quiet_measureData l _) (measurementsOf_measureData l _)
    (closingTerms_ne_nil rounds) (closingTerms_reach ht hr hpos) logical

theorem observables_compiled (ht : l.Tidy) (hr : l.InReach) (name : String) (params : CodeParams) {rounds : Nat}
    (hpos : 1 ≤ rounds) {logical : List Qubit} (hlog : ∀ q ∈ logical, q ∈ l.data) :
    (l.compiled name params rounds logical).circuit.observables.map
        (fun (index, refs) => (index, (l.compiled name params rounds logical).ledger.read refs)) =
      if logical = [] then [] else [(0, logical.map fun q => some (q, rounds))] := by
  have hreach : ∀ t ∈ logical.map (·, rounds), (l.finalLedger rounds).Reaches t := by
    intro t ht
    obtain ⟨q, hq, rfl⟩ := List.mem_map.mp ht
    exact (final_reach hr hpos).1 (hlog q hq)
  rw [Circuit.observables, instructions_compiled, readout_eq]
  exact (program_rounds ht hr _ _).read_observables (quiet_measureData l _) (measurementsOf_measureData l _) _ hreach

/-- A memory of any graph that has a layout is built without fail. It measures the checks
    once a round and the data at the end; its detectors compare each declared Z check with
    the prepared state, each declared check with the round before, and the final data of
    each declared Z check with its last outcome; its observable holds the logical qubits. -/
theorem memory_addressing {g : Graph} (hg : g.Built) (hsize : g.size < 2 ^ 30) {bases : List CheckBasis}
    (hb : bases.Nodup) {policy : BoundaryPolicy} (hl : Layout.ofGraph g bases policy = .ok l) (name : String)
    {params : CodeParams} (hp : params.validate = .ok ()) {rounds : Nat} (hpos : 1 ≤ rounds) {logical : List Qubit}
    (hlog : ∀ q ∈ logical, q ∈ g.dataQubits) :
    ∃ e, l.buildMemory name params rounds logical = .ok e ∧
      e.circuit.measured = (List.replicate rounds l.allChecks).flatten ++ l.data ∧
      e.circuit.detectors.map e.ledger.read = (l.detectorTerms rounds).map (List.map some) ∧
      e.circuit.observables.map (fun (index, refs) => (index, e.ledger.read refs)) =
        if logical = [] then [] else [(0, logical.map fun q => some (q, rounds))] := by
  have hf := ofGraph_ok hl
  have ht := hf.tidy hg.sound hb
  have hr := hf.inReach hb hsize
  obtain ⟨h1, h2⟩ := usable_of_validate hp
  have hlog' : ∀ q ∈ logical, q ∈ l.data := by rw [hf.data]; exact hlog
  exact ⟨_, buildMemory_eq ht hr name h1 h2 hpos hlog', measured_compiled _ _ _ _, detectors_compiled ht hr _ _ hpos _,
    observables_compiled ht hr _ _ hpos hlog'⟩

theorem memory_addressing_bellPair :
    ∃ e, bellLayout.buildMemory "bell" ⟨1, .one, .zero⟩ 2 [1, 0] = .ok e ∧
      e.circuit.measured = [2, 3, 2, 3, 0, 1] ∧
      e.circuit.detectors.map e.ledger.read =
        [[some (2, 0)], [some (2, 0), some (2, 1)], [some (3, 0), some (3, 1)],
          [some (0, 2), some (1, 2), some (2, 1)]] ∧
      e.circuit.observables.map (fun (index, refs) => (index, e.ledger.read refs)) =
        [(0, [some (1, 2), some (0, 2)])] :=
  memory_addressing bellPair_built (by decide) (by decide) bellLayout_ok "bell" (by rfl) (by decide) (by decide)

end Layout

end QuantumMemory

/-
  QuantumMemory.Proofs.Build.Perform — what each action makes of a memory.

  An action that meets its conditions succeeds and appends: instructions to the circuit
  (`emit`), measurements to the ledger (`enter`), or both. `Lockstep` says that circuit and
  ledger count the same outcomes; then every reference that a look-up gives is one that the
  circuit admits.
-/

import QuantumMemory.Proofs.Circuit.Reference
import QuantumMemory.Proofs.Success

namespace QuantumMemory

namespace Memory

variable {α β : Type}

/-! ## Sequencing -/

theorem perform_get (m : Memory) : m.perform (get : Build Memory) = (.ok m, m) := rfl

theorem perform_bind_eq (m : Memory) (x : Build α) (f : α → Build β) : m.perform (x >>= f) =
    match m.perform x with
    | (.ok a, m') => m'.perform (f a)
    | (.error e, m') => (.error e, m') := by
  simp only [perform, run_bind_eq]
  rcases (ExceptT.run x).run m with ⟨e | a, m'⟩ <;> rfl

theorem perform_bind {m m' : Memory} {x : Build α} {a : α} (h : m.perform x = (.ok a, m')) (f : α → Build β) :
    m.perform (x >>= f) = m'.perform (f a) := by
  rw [perform_bind_eq, h]

theorem perform_discard {m m' : Memory} {x : Build α} {a : α} (h : m.perform x = (.ok a, m')) :
    m.perform (discard x) = (.ok (), m') := by
  rw [discard_eq, perform_bind h]
  rfl

/-- A loop whose body appends to what came before. -/
theorem perform_forM {γ : Type} {xs : List γ} {f : γ → Build PUnit} (after : List γ → Memory)
    (h : ∀ done x rest, xs = done ++ x :: rest → (after done).perform (f x) = (.ok (), after (done ++ [x]))) :
    (after []).perform (xs.forM f) = (.ok (), after xs) := by
  have main : ∀ rest done, xs = done ++ rest → (after done).perform (rest.forM f) = (.ok (), after xs) := by
    intro rest
    induction rest with
    | nil => rintro done rfl; rw [List.append_nil]; rfl
    | cons x rest ih =>
      intro done hd
      show (after done).perform (f x >>= fun _ => rest.forM f) = _
      rw [perform_bind (h done x rest hd)]
      exact ih (done ++ [x]) (by rw [hd, List.append_assoc]; rfl)
  exact main xs [] rfl

/-- A loop over the first numbers, the memory after each of them being known. -/
theorem perform_range {f : Nat → Build PUnit} (after : Nat → Memory)
    (h : ∀ k, (after k).perform (f k) = (.ok (), after (k + 1))) (n : Nat) :
    (after 0).perform ((List.range n).forM f) = (.ok (), after n) := by
  have hend : after n = after (List.range n).length := by rw [List.length_range]
  rw [hend]
  refine perform_forM (fun done => after done.length) fun done k rest hd => ?_
  have hk : k = done.length := by
    have hlen := congrArg List.length hd
    have hget := congrArg (·[done.length]?) hd
    simp only [List.length_range, List.length_append, List.length_cons] at hlen
    rw [List.getElem?_range (by omega)] at hget
    simpa using hget.symm
  rw [hk, List.length_append, List.length_singleton]
  exact h done.length

/-! ## Growing -/

/-- The memory with instructions appended. -/
def emit (m : Memory) (is : List Instruction) : Memory := { m with circuit := m.circuit.extendAll is }

/-- The memory with measurements entered. -/
def enter (m : Memory) (ms : List Measurement) : Memory := { m with ledger := m.ledger.enter ms }

/-- Circuit and ledger count the same outcomes. -/
def Lockstep (m : Memory) : Prop := m.ledger.length = m.circuit.numMeasurements

@[simp] theorem emit_circuit (m : Memory) (is : List Instruction) : (m.emit is).circuit = m.circuit.extendAll is := rfl
@[simp] theorem emit_ledger (m : Memory) (is : List Instruction) : (m.emit is).ledger = m.ledger := rfl
@[simp] theorem emit_phase (m : Memory) (is : List Instruction) : (m.emit is).phase = m.phase := rfl
@[simp] theorem emit_roundsStarted (m : Memory) (is : List Instruction) :
    (m.emit is).roundsStarted = m.roundsStarted := rfl
@[simp] theorem emit_p1 (m : Memory) (is : List Instruction) : (m.emit is).p1 = m.p1 := rfl
@[simp] theorem emit_p2 (m : Memory) (is : List Instruction) : (m.emit is).p2 = m.p2 := rfl
@[simp] theorem enter_circuit (m : Memory) (ms : List Measurement) : (m.enter ms).circuit = m.circuit := rfl
@[simp] theorem enter_ledger (m : Memory) (ms : List Measurement) : (m.enter ms).ledger = m.ledger.enter ms := rfl
@[simp] theorem enter_phase (m : Memory) (ms : List Measurement) : (m.enter ms).phase = m.phase := rfl

theorem emit_append (m : Memory) (is js : List Instruction) : m.emit (is ++ js) = (m.emit is).emit js := by
  simp only [emit, Circuit.extendAll_append]

theorem enter_append (m : Memory) (ms ns : List Measurement) : m.enter (ms ++ ns) = (m.enter ms).enter ns := by
  simp [enter, Ledger.enter]

/-- What is emitted measures as much as is entered. -/
theorem Lockstep.emit_enter {m : Memory} (h : m.Lockstep) {is : List Instruction} {ms : List Measurement}
    (he : Circuit.measurementsOf is = ms.length) : ((m.emit is).enter ms).Lockstep := by
  have hl : m.ledger.length = m.circuit.numMeasurements := h
  show (m.ledger.enter ms).length = (m.circuit.extendAll is).numMeasurements
  rw [Ledger.length_enter, Circuit.numMeasurements_extendAll]
  omega

theorem Lockstep.emit {m : Memory} (h : m.Lockstep) {is : List Instruction} (he : Circuit.measurementsOf is = 0) :
    (m.emit is).Lockstep :=
  show ((m.emit is).enter []).Lockstep from h.emit_enter he

/-! ## The actions -/

theorem perform_require {m : Memory} {phases : List Phase} (h : m.phase ∈ phases) (operation : String) :
    m.perform (Build.require operation phases) = (.ok (), m) := by
  rw [Build.require, perform_bind (perform_get m), if_pos h]
  rfl

theorem perform_grow_ok {m : Memory} {f : Circuit → Except CircuitError Circuit} {c : Circuit}
    (h : f m.circuit = .ok c) : m.perform (Build.grow f) = (.ok (), { m with circuit := c }) := by
  rw [Build.grow, perform_bind (perform_get m), h]
  rfl

theorem perform_grow {m : Memory} {f : Circuit → Except CircuitError Circuit} {is : List Instruction}
    (h : f m.circuit = .ok (m.circuit.extendAll is)) : m.perform (Build.grow f) = (.ok (), m.emit is) :=
  perform_grow_ok h

theorem perform_h (m : Memory) {qubits : List Qubit} (h : qubits.Nodup) :
    m.perform (Build.h qubits) = (.ok (), m.emit (Instruction.gate .h qubits).kept) :=
  perform_grow (Circuit.hadamard_ok _ h)

theorem perform_cx (m : Memory) {pairs : List (Qubit × Qubit)} (h : (flattenPairs pairs).Nodup) :
    m.perform (Build.cx pairs) = (.ok (), m.emit (Instruction.gate .cx (flattenPairs pairs)).kept) :=
  perform_grow (Circuit.cx_ok _ h)

theorem perform_tick (m : Memory) : m.perform Build.tick = (.ok (), m.emit [.tick]) := rfl

/-- Noise on single qubits at a rate, none when the rate is not positive. -/
def noise1 (p : Binary64) (qubits : List Qubit) : List Instruction :=
  if p.isPositive then (Instruction.noise (.depolarize1 p) qubits).kept else []

/-- Noise on pairs at a rate, none when the rate is not positive. -/
def noise2 (p : Binary64) (pairs : List (Qubit × Qubit)) : List Instruction :=
  if p.isPositive then (Instruction.noise (.depolarize2 p) (flattenPairs pairs)).kept else []

theorem noise1_eq_nil {p : Binary64} (h : p.isPositive = false) (qubits : List Qubit) : noise1 p qubits = [] := by
  rw [noise1, h]
  rfl

theorem noise2_eq_nil {p : Binary64} (h : p.isPositive = false) (pairs : List (Qubit × Qubit)) : noise2 p pairs = [] := by
  rw [noise2, h]
  rfl

/-- A rate at which noise can be added, or at which there is none. -/
def Usable (p : Binary64) : Prop := p.isPositive = true → p.isProbability = true

theorem perform_depolarize1 {m : Memory} (h : Usable m.p1) (qubits : List Qubit) :
    m.perform (Build.depolarize1 qubits) = (.ok (), m.emit (noise1 m.p1 qubits)) := by
  rw [Build.depolarize1, perform_bind (perform_get m), noise1]
  split
  · rename_i hp
    exact perform_grow (Circuit.depolarize1_ok _ (h hp) qubits)
  · rfl

theorem perform_depolarize2 {m : Memory} (h : Usable m.p2) {pairs : List (Qubit × Qubit)}
    (ha : ∀ q ∈ pairs, q.1 ≠ q.2) :
    m.perform (Build.depolarize2 pairs) = (.ok (), m.emit (noise2 m.p2 pairs)) := by
  rw [Build.depolarize2, perform_bind (perform_get m), noise2]
  split
  · rename_i hp
    exact perform_grow (Circuit.depolarize2_ok _ (h hp) ha)
  · rfl

theorem perform_prepare {m : Memory} (hph : m.phase = .init) (h : Usable m.p1) {qubits : List Qubit}
    (hq : qubits.Nodup) :
    m.perform (Build.prepare qubits) = (.ok (), m.emit ((Instruction.reset qubits).kept ++ noise1 m.p1 qubits)) := by
  rw [Build.prepare, perform_bind (perform_require (by simp [hph]) _), perform_bind (perform_grow (Circuit.reset_ok _ hq)),
    perform_depolarize1 (by exact h), emit_append]
  rfl

theorem perform_beginRound {m : Memory} {round : Nat} (hph : m.phase ∈ [Phase.init, .rounds])
    (hr : m.roundsStarted = round) :
    m.perform (Build.beginRound round) = (.ok (), { m with phase := .rounds, roundsStarted := round + 1 }) := by
  subst hr
  rw [Build.beginRound, perform_bind (perform_require hph _), perform_bind (perform_get m), if_pos rfl]
  rfl

theorem perform_beginFinalize {m : Memory} (hph : m.phase = .rounds) :
    m.perform Build.beginFinalize = (.ok (), { m with phase := .finalizing }) := by
  rw [Build.beginFinalize, perform_bind (perform_require (by simp [hph]) _)]
  rfl

/-! ## Measuring -/

theorem has_iff {l : Ledger} {q : Qubit} {r : Nat} : l.has q r = true ↔ (q, r) ∈ l.terms := by
  simp only [Ledger.has, List.any_eq_true, Measurement.isOf_iff, Ledger.terms, List.mem_map, List.mem_reverse]

theorem perform_requireUnmeasured {m : Memory} {qubits : List Qubit} {round : Nat}
    (h : ∀ q ∈ qubits, (q, round) ∉ m.ledger.terms) :
    m.perform (Build.requireUnmeasured qubits round) = (.ok (), m) := by
  have hnone : (qubits.find? fun q => m.ledger.has q round) = none :=
    List.find?_eq_none.mpr fun q hq hh => h q hq (has_iff.mp hh)
  rw [Build.requireUnmeasured, perform_bind (perform_get m), hnone]
  rfl

theorem perform_recordAll {m : Memory} {qubits : List Qubit} {round : Nat} (kind : MeasurementKind)
    (hn : qubits.Nodup) (h : ∀ q ∈ qubits, (q, round) ∉ m.ledger.terms) :
    m.perform (Build.recordAll qubits round kind) = (.ok (), m.enter (qubits.map (⟨·, round, kind⟩))) := by
  refine perform_forM (fun done => m.enter (done.map (⟨·, round, kind⟩))) fun done q rest hd => ?_
  have hfresh : (m.enter (done.map (⟨·, round, kind⟩))).ledger.has q round = false := by
    refine Bool.eq_false_iff.mpr fun hh => ?_
    rw [has_iff, enter_ledger, Ledger.terms_enter, List.mem_append, List.map_map] at hh
    rcases hh with hh | hh
    · exact h q (hd ▸ List.mem_append_right _ List.mem_cons_self) hh
    · obtain ⟨p, hp, he⟩ := List.mem_map.mp hh
      cases he
      rw [hd] at hn
      exact (List.nodup_append.mp hn).2.2 _ hp _ List.mem_cons_self rfl
  rw [Build.recordOne, perform_bind (perform_get _), Ledger.record, hfresh, List.map_append, enter_append]
  rfl

theorem perform_measuring {m : Memory} {phase : Phase} (hph : m.phase = phase) (operation : String)
    {instruction : Instruction.Kind} (hm : instruction.measures = true) {qubits : List Qubit} {round : Nat}
    (kind : MeasurementKind) (hn : qubits.Nodup) (h : ∀ q ∈ qubits, (q, round) ∉ m.ledger.terms) :
    m.perform (Build.measuring operation phase instruction qubits round kind) =
      (.ok (), (m.emit (Instruction.mk instruction qubits []).kept).enter (qubits.map (⟨·, round, kind⟩))) := by
  rw [Build.measuring, perform_bind (perform_require (by simp [hph]) _), perform_bind (perform_requireUnmeasured h),
    perform_bind (perform_grow (Circuit.measuring_ok _ hm hn)), perform_recordAll kind hn (by exact h)]

/-! ## Detectors and observables -/

theorem resolve_eq (m : Memory) (terms : List Term) : m.resolve terms = m.ledger.offsets terms := rfl

/-- Every reference that a look-up gives is one the circuit admits. -/
theorem Lockstep.resolves {m : Memory} (h : m.Lockstep) (terms : List Term) :
    ∀ r ∈ m.ledger.offsets terms, (r.resolve? m.circuit.numMeasurements).isSome = true := by
  intro r hr
  obtain ⟨⟨q, round⟩, -, hl⟩ := List.mem_filterMap.mp hr
  obtain ⟨i, hi, -⟩ := Ledger.lookup?_spec hl
  rw [← show m.ledger.length = m.circuit.numMeasurements from h, hi]
  rfl

theorem perform_detector {m : Memory} (hph : m.phase ∈ [Phase.rounds, .finalizing]) (h : m.Lockstep)
    (terms : List Term) :
    m.perform (Build.detector terms) = (.ok (!(m.ledger.offsets terms).isEmpty),
      m.emit (Instruction.detector (m.ledger.offsets terms)).kept) := by
  rw [Build.detector, perform_bind (perform_require hph _), perform_bind (perform_get m), resolve_eq]
  have hres := h.resolves terms
  cases hrec : m.ledger.offsets terms with
  | nil => rfl
  | cons r rest =>
    rw [hrec] at hres
    simp only []
    rw [perform_bind (perform_grow (Circuit.detector_ok hres))]
    rfl

theorem perform_observable {m : Memory} (hph : m.phase = .finalizing) (h : m.Lockstep) (index : Nat)
    {terms : List Term} (ht : ∀ t ∈ terms, m.ledger.Reaches t) :
    m.perform (Build.observable index terms) =
      (.ok (), m.emit (Instruction.observable index (m.ledger.offsets terms)).kept) := by
  rw [Build.observable, perform_bind (perform_require (by simp [hph]) _), perform_bind (perform_get m)]
  show m.perform (if (m.ledger.offsets terms).length = terms.length then _ else _) = _
  rw [if_pos (Ledger.offsets_spec ht).1]
  exact perform_grow (Circuit.observable_ok index (h.resolves terms))

theorem perform_finish {m : Memory} (hph : m.phase = .finalizing) :
    m.perform Build.finish = (.ok ⟨m.circuit, m.ledger, m.roundsStarted⟩, m) := by
  rw [Build.finish, perform_bind (perform_require (by simp [hph]) _)]
  rfl

end Memory

end QuantumMemory

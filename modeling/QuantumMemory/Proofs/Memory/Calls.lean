/-
  QuantumMemory.Proofs.Memory.Calls — memories made by any calls in any order.

  Circuit and ledger grow by separate steps, and a step may fail. Yet whatever is called
  with whatever arguments, the ledger names the qubits that the circuit measures in the
  order of its stream (`Synced`): a call extends both by the same outcomes, and refers only
  to outcomes of terms that it was asked for (`Extends`). An action with that property is
  `Careful`; careful actions can be put one after the other, so it is enough to look at each
  of them once, at its failures too. A run of calls then keeps the two in step
  (`calls_lockstep`).
-/

import QuantumMemory.Proofs.Memory.Addressing

namespace QuantumMemory

namespace Ledger

/-- References that all stand for terms stand for the same ones when the ledger grows. -/
theorem read_enter {l : Ledger} {refs : List (Option Nat)} {ts : List Term}
    (h : (l.read refs).Sublist (ts.map some)) (ms : List Measurement) : (l.enter ms).read refs = l.read refs := by
  refine List.map_congr_left fun ref href => ?_
  have hmem : ref.bind l.term? ∈ l.read refs := List.mem_map_of_mem href
  obtain ⟨t, -, ht⟩ := List.mem_map.mp (h.subset hmem)
  obtain ⟨i, rfl, hi⟩ := Option.bind_eq_some_iff.mp ht.symm
  simp only [Option.bind_some]
  rw [hi, term?_enter l ms hi]

/-- What is looked up is read as those of the terms that are found. -/
theorem read_offsets_sublist (l : Ledger) (ts : List Term) :
    (l.read ((l.offsets ts).map (·.resolve? l.length))).Sublist (ts.map some) := by
  induction ts with
  | nil => exact .slnil
  | cons t rest ih =>
    obtain ⟨q, r⟩ := t
    cases ho : l.lookup? q r with
    | none =>
      have hskip : l.offsets ((q, r) :: rest) = l.offsets rest := by simp [offsets, ho]
      rw [hskip]
      exact .cons _ ih
    | some offset =>
      obtain ⟨i, hi, ht⟩ := lookup?_spec ho
      have htake : l.offsets ((q, r) :: rest) = offset :: l.offsets rest := by simp [offsets, ho]
      rw [htake, read, List.map_cons, List.map_cons, hi, Option.bind_some, ht]
      exact .cons_cons _ ih

end Ledger

namespace Memory

variable {α β : Type} {asked : List (List Term)}

/-! ## In step -/

/-- The ledger names the qubits that the circuit measures, and the circuit has counted them. -/
structure Synced (m : Memory) : Prop where
  counted : m.circuit.numMeasurements = Circuit.measurementsOf m.circuit.instructions
  qubits : m.ledger.terms.map (·.1) = m.circuit.measured

theorem Synced.lockstep {m : Memory} (h : m.Synced) : m.Lockstep := by
  have hlen := congrArg List.length h.qubits
  rw [List.length_map, Ledger.length_terms, Circuit.measured, length_measuredBy, ← h.counted] at hlen
  exact hlen

theorem start_synced (name : String) (params : CodeParams) : (Memory.start name params).Synced := ⟨rfl, rfl⟩

/-- References to some of the terms that one of the lists asks for. -/
def Answers (asked : List (List Term)) (ledger : Ledger) (refs : List (Option Nat)) : Prop :=
  refs = [] ∨ ∃ ts ∈ asked, (ledger.read refs).Sublist (ts.map some)

/-- Instructions appended and measurements entered, of the same qubits, with references to what is
    asked for. -/
def Extends (asked : List (List Term)) (m m' : Memory) : Prop :=
  ∃ is ms, m'.circuit = m.circuit.extendAll is ∧ m'.ledger = m.ledger.enter ms ∧
    ms.map (·.qubit) = measuredBy is ∧
    ∀ ref ∈ referencesFrom m.circuit.numMeasurements is, Answers asked m'.ledger ref.2

theorem Answers.enter {ledger : Ledger} {refs : List (Option Nat)} (h : Answers asked ledger refs)
    (ms : List Measurement) : Answers asked (ledger.enter ms) refs := by
  rcases h with rfl | ⟨ts, hts, hread⟩
  · exact .inl rfl
  · exact .inr ⟨ts, hts, by rwa [Ledger.read_enter hread ms]⟩

/-- The circuit and the ledger are all that has to stay. -/
theorem Extends.of_eq {m m' : Memory} (hc : m'.circuit = m.circuit) (hl : m'.ledger = m.ledger) :
    Extends asked m m' :=
  ⟨[], [], hc, hl, rfl, fun _ h => absurd h List.not_mem_nil⟩

theorem Extends.refl (m : Memory) : Extends asked m m := .of_eq rfl rfl

theorem Extends.trans {m m' m'' : Memory} (h : Extends asked m m') (h' : Extends asked m' m'') :
    Extends asked m m'' := by
  obtain ⟨is, ms, hc, hl, hq, hrefs⟩ := h
  obtain ⟨is', ms', hc', hl', hq', hrefs'⟩ := h'
  refine ⟨is ++ is', ms ++ ms', ?_, ?_, ?_, ?_⟩
  · rw [hc', hc, Circuit.extendAll_append]
  · rw [hl', hl, Layout.enter_enter]
  · rw [List.map_append, hq, hq', measuredBy_append]
  · intro ref href
    rw [referencesFrom_append] at href
    rcases List.mem_append.mp href with href | href
    · rw [hl']
      exact (hrefs ref href).enter ms'
    · rw [← Circuit.numMeasurements_extendAll, ← hc] at href
      exact hrefs' ref href

theorem Synced.extends {m m' : Memory} (hm : m.Synced) (h : Extends asked m m') : m'.Synced := by
  obtain ⟨is, ms, hc, hl, hq, -⟩ := h
  constructor
  · rw [hc, Circuit.numMeasurements_extendAll, Circuit.instructions_extendAll, Circuit.measurementsOf_append, hm.counted]
  · rw [hl, hc, Ledger.terms_enter, List.map_append, hm.qubits, Circuit.measured, Circuit.measured,
      Circuit.instructions_extendAll, measuredBy_append, ← hq, List.map_map]
    rfl

/-- One instruction that neither measures nor refers to anything. -/
theorem extends_quiet (m : Memory) {i : Instruction} (hm : i.kind.measures = false) (hr : i.records = []) :
    Extends asked m (m.emit i.kept) := by
  refine ⟨i.kept, [], rfl, rfl, ?_, ?_⟩
  · rw [Layout.measuredBy_kept, hm]
    rfl
  · intro ref href
    rw [records_of_kept href, hr]
    exact .inl rfl

/-- One instruction that refers to what is asked for. -/
theorem extends_referring {m : Memory} (hl : m.Lockstep) {ts : List Term} (hts : ts ∈ asked) {i : Instruction}
    (hm : i.kind.measures = false) (hr : i.records = m.ledger.offsets ts) : Extends asked m (m.emit i.kept) := by
  refine ⟨i.kept, [], rfl, rfl, ?_, ?_⟩
  · rw [Layout.measuredBy_kept, hm]
    rfl
  · intro ref href
    rw [records_of_kept href, hr, ← show m.ledger.length = m.circuit.numMeasurements from hl]
    exact .inr ⟨ts, hts, m.ledger.read_offsets_sublist ts⟩

/-! ## Careful actions -/

/-- Whether it fails or not, the action keeps a memory in step, and it is never refused for a
    reference. -/
def Careful (asked : List (List Term)) (x : Build α) : Prop := ∀ m : Memory, m.Synced →
  Extends asked m (m.perform x).2 ∧ ∀ offset n, (m.perform x).1 ≠ .error (.circuit (.recordOutOfRange offset n))

theorem careful_of_eq {x : Build α} (h : ∀ m : Memory, m.Synced → ∃ r m', m.perform x = (r, m') ∧
    Extends asked m m' ∧ ∀ offset n, r ≠ .error (.circuit (.recordOutOfRange offset n))) : Careful asked x := by
  intro m hm
  obtain ⟨r, m', he, hext, hr⟩ := h m hm
  rw [he]
  exact ⟨hext, hr⟩

theorem careful_pure (a : α) : Careful asked (pure a : Build α) := fun m _ => ⟨.refl m, fun _ _ h => by cases h⟩

theorem careful_bind {x : Build α} {f : α → Build β} (hx : Careful asked x) (hf : ∀ a, Careful asked (f a)) :
    Careful asked (x >>= f) := by
  intro m hm
  obtain ⟨hext, hr⟩ := hx m hm
  rw [perform_bind_eq]
  cases hp : m.perform x with
  | mk r m' =>
    rw [hp] at hext hr
    cases r with
    | error e => exact ⟨hext, fun offset n he => hr offset n (by cases he; rfl)⟩
    | ok a =>
      obtain ⟨hext', hr'⟩ := hf a m' (hm.extends hext)
      exact ⟨hext.trans hext', hr'⟩

theorem careful_discard {x : Build α} (hx : Careful asked x) : Careful asked (discard x : Build PUnit) := by
  rw [discard_eq]
  exact careful_bind hx fun _ => careful_pure _

theorem careful_forM {γ : Type} {xs : List γ} {f : γ → Build PUnit} (h : ∀ x ∈ xs, Careful asked (f x)) :
    Careful asked (xs.forM f) := by
  induction xs with
  | nil => exact careful_pure _
  | cons x rest ih =>
    obtain ⟨hx, hrest⟩ := List.forall_mem_cons.mp h
    exact careful_bind hx fun _ => ih hrest

theorem perform_require_error {m : Memory} {phases : List Phase} (h : m.phase ∉ phases) (operation : String) :
    m.perform (Build.require operation phases) = (.error (.phaseViolation operation m.phase), m) := by
  rw [Build.require, perform_bind (perform_get m), if_neg h]
  rfl

theorem careful_require (operation : String) (phases : List Phase) : Careful asked (Build.require operation phases) := by
  refine careful_of_eq fun m _ => ?_
  by_cases hph : m.phase ∈ phases
  · exact ⟨_, m, perform_require hph operation, .refl m, fun _ _ h => by cases h⟩
  · exact ⟨_, m, perform_require_error hph operation, .refl m, fun _ _ h => by cases h⟩

theorem perform_grow_error {m : Memory} {f : Circuit → Except CircuitError Circuit} {e : CircuitError}
    (h : f m.circuit = .error e) : m.perform (Build.grow f) = (.error (.circuit e), m) := by
  rw [Build.grow, perform_bind (perform_get m), h]
  rfl

/-- Growing by an instruction that is admitted or else refused for another reason than its references. -/
theorem careful_grow {f : Circuit → Except CircuitError Circuit} {i : Instruction} (hm : i.kind.measures = false)
    (hr : i.records = []) (hf : ∀ c, f c = .ok (c.extendAll i.kept) ∨
      ∃ e, f c = .error e ∧ ∀ offset n, e ≠ .recordOutOfRange offset n) : Careful asked (Build.grow f) := by
  refine careful_of_eq fun m _ => ?_
  rcases hf m.circuit with hok | ⟨e, he, hne⟩
  · exact ⟨_, _, perform_grow hok, extends_quiet m hm hr, fun _ _ h => by cases h⟩
  · refine ⟨_, m, perform_grow_error he, .refl m, fun offset n h => ?_⟩
    cases h
    exact hne offset n rfl

/-- Growing by what `append` makes of a quiet instruction. -/
theorem careful_append {i : Instruction} (hk : i.kind ≠ .tick) (hm : i.kind.measures = false) (hr : i.records = []) :
    Careful asked (Build.grow (·.append i)) :=
  careful_grow hm hr fun c => Circuit.append_cases hk (by simp [hr])

theorem careful_noise (channel : Channel) (qubits : List Qubit) :
    Careful asked (Build.grow (·.noise channel qubits)) := by
  refine careful_grow (i := .noise channel qubits) rfl rfl fun c => ?_
  by_cases hp : channel.probability.isProbability = true
  · have happend := Circuit.append_cases (c := c) (i := .noise channel qubits) (by simp [Instruction.noise])
      (by simp [Instruction.noise])
    rw [Circuit.noise, Circuit.checkProbability_ok hp]
    exact happend
  · refine .inr ⟨.invalidProbability channel.probability channel.name, ?_, fun _ _ h => by cases h⟩
    rw [Circuit.noise, Circuit.checkProbability, if_neg hp]
    rfl

theorem careful_depolarize1 (qubits : List Qubit) : Careful asked (Build.depolarize1 qubits) := by
  intro m hm
  rw [Build.depolarize1, perform_bind (perform_get m)]
  split
  · exact careful_noise (.depolarize1 m.p1) qubits m hm
  · exact careful_pure () m hm

theorem careful_depolarize2 (pairs : List (Qubit × Qubit)) : Careful asked (Build.depolarize2 pairs) := by
  intro m hm
  rw [Build.depolarize2, perform_bind (perform_get m)]
  split
  · exact careful_noise (.depolarize2 m.p2) (flattenPairs pairs) m hm
  · exact careful_pure () m hm

theorem careful_h (qubits : List Qubit) : Careful asked (Build.h qubits) :=
  careful_append (i := .gate .h qubits) (by simp [Instruction.gate]) rfl rfl

theorem careful_cx (pairs : List (Qubit × Qubit)) : Careful asked (Build.cx pairs) :=
  careful_append (i := .gate .cx (flattenPairs pairs)) (by simp [Instruction.gate]) rfl rfl

theorem careful_tick : Careful asked Build.tick := by
  refine careful_of_eq fun m _ => ⟨_, _, perform_tick m, ⟨[.tick], [], rfl, rfl, rfl, ?_⟩, fun _ _ h => by cases h⟩
  intro ref href
  rw [referencesFrom, referencesFrom, List.mem_singleton] at href
  subst href
  exact .inl rfl

theorem careful_prepare (qubits : List Qubit) : Careful asked (Build.prepare qubits) :=
  careful_bind (careful_require _ _) fun _ =>
    careful_bind (careful_append (i := .reset qubits) (by simp [Instruction.reset]) rfl rfl) fun _ =>
      careful_depolarize1 qubits

theorem careful_beginRound (round : Nat) : Careful asked (Build.beginRound round) := by
  refine careful_bind (careful_require _ _) fun _ m _ => ?_
  rw [perform_bind (perform_get m)]
  split
  · exact ⟨.of_eq rfl rfl, fun _ _ h => by cases h⟩
  · exact ⟨.refl m, fun _ _ h => by cases h⟩

theorem careful_beginFinalize : Careful asked Build.beginFinalize :=
  careful_bind (careful_require _ _) fun _ _ _ => ⟨.of_eq rfl rfl, fun _ _ h => by cases h⟩

/-! ## Measuring -/

theorem append_repeated {c : Circuit} {i : Instruction} (hm : i.kind.measures = true) (hn : ¬i.qubits.Nodup) :
    ∃ q, c.append i = .error (.duplicateQubit q i.name) := by
  have hk : i.kind ≠ .tick := by
    intro h
    rw [h] at hm
    cases hm
  have hempty : ¬(i.qubits.isEmpty && i.records.isEmpty) = true := by
    intro h
    simp only [Bool.and_eq_true, List.isEmpty_iff] at h
    rw [h.1] at hn
    exact hn .nil
  obtain ⟨q, hq⟩ : ∃ q, firstRepeat? i.qubits [] = some q := by
    cases hf : firstRepeat? i.qubits [] with
    | none => exact absurd (firstRepeat?_eq_none.mp hf).1 hn
    | some q => exact ⟨q, rfl⟩
  have hcheck : c.check i = .error (.duplicateQubit q i.name) := by
    rw [Circuit.check_measuring hm, Circuit.checkDistinct, hq]
  refine ⟨q, ?_⟩
  rw [Circuit.append, if_neg hk, if_neg hempty, hcheck]
  rfl

/-- A measurement is refused as a whole, and for no reference, or its outcomes go to the circuit and to the ledger. -/
theorem perform_measuring_cases (m : Memory) (operation : String) (phase : Phase) {instruction : Instruction.Kind}
    (hm : instruction.measures = true) (qubits : List Qubit) (round : Nat) (kind : MeasurementKind) :
    (∃ e, (∀ offset n, e ≠ .circuit (.recordOutOfRange offset n)) ∧
      m.perform (Build.measuring operation phase instruction qubits round kind) = (.error e, m)) ∨
    m.perform (Build.measuring operation phase instruction qubits round kind) =
      (.ok (), (m.emit (Instruction.mk instruction qubits []).kept).enter (qubits.map (⟨·, round, kind⟩))) := by
  by_cases hphase : m.phase = phase
  · cases hfind : qubits.find? fun q => m.ledger.has q round with
    | some q =>
      refine .inl ⟨.circuit (.duplicateMeasurement q round), fun _ _ h => (by cases h), ?_⟩
      rw [Build.measuring, perform_bind (perform_require (by simp [hphase]) _), perform_bind_eq, Build.requireUnmeasured,
        perform_bind (perform_get m), hfind]
      rfl
    | none =>
      have hfresh : ∀ q ∈ qubits, (q, round) ∉ m.ledger.terms := by
        intro q hq hmem
        exact List.find?_eq_none.mp hfind q hq (has_iff.mpr hmem)
      by_cases hn : qubits.Nodup
      · exact .inr (perform_measuring hphase operation hm kind hn hfresh)
      · obtain ⟨q, hq⟩ := append_repeated (c := m.circuit) (i := ⟨instruction, qubits, []⟩) hm hn
        refine .inl ⟨.circuit (.duplicateQubit q (Instruction.mk instruction qubits []).name), ?_, ?_⟩
        · exact fun _ _ h => by cases h
        · rw [Build.measuring, perform_bind (perform_require (by simp [hphase]) _),
            perform_bind (perform_requireUnmeasured hfresh), perform_bind_eq, perform_grow_error hq]
  · refine .inl ⟨.phaseViolation operation m.phase, fun _ _ h => (by cases h), ?_⟩
    rw [Build.measuring, perform_bind_eq, perform_require_error (by simpa using hphase)]

theorem careful_measuring (operation : String) (phase : Phase) {instruction : Instruction.Kind}
    (hm : instruction.measures = true) (qubits : List Qubit) (round : Nat) (kind : MeasurementKind) :
    Careful asked (Build.measuring operation phase instruction qubits round kind) := by
  refine careful_of_eq fun m _ => ?_
  rcases perform_measuring_cases m operation phase hm qubits round kind with ⟨e, he, hrefused⟩ | hdone
  · exact ⟨_, m, hrefused, .refl m, fun offset n h => he offset n (by cases h; rfl)⟩
  · refine ⟨_, _, hdone, ⟨_, qubits.map (⟨·, round, kind⟩), rfl, rfl, ?_, ?_⟩, fun _ _ h => by cases h⟩
    · rw [Layout.measuredBy_kept, if_pos hm, List.map_map]
      exact List.map_id _
    · intro ref href
      rw [records_of_kept href]
      exact .inl rfl

/-! ## Referring -/

theorem careful_detector {terms : List Term} (h : terms ∈ asked) : Careful asked (Build.detector terms) := by
  refine careful_bind (careful_require _ _) fun _ => careful_of_eq fun m hm => ?_
  rw [perform_bind (perform_get m), resolve_eq]
  have hres := hm.lockstep.resolves terms
  cases hrec : m.ledger.offsets terms with
  | nil => exact ⟨_, m, rfl, .refl m, fun _ _ h => by cases h⟩
  | cons r rest =>
    rw [hrec] at hres
    simp only []
    rw [perform_bind (perform_grow (Circuit.detector_ok hres))]
    exact ⟨_, _, rfl, extends_referring hm.lockstep h rfl hrec.symm, fun _ _ h => by cases h⟩

theorem careful_observable (index : Nat) {terms : List Term} (h : terms ∈ asked) :
    Careful asked (Build.observable index terms) := by
  refine careful_bind (careful_require _ _) fun _ => careful_of_eq fun m hm => ?_
  rw [perform_bind (perform_get m)]
  dsimp only
  by_cases hlen : (m.resolve terms).length = terms.length
  · rw [if_pos hlen]
    exact ⟨_, _, perform_grow (Circuit.observable_ok index (hm.lockstep.resolves terms)),
      extends_referring hm.lockstep h rfl rfl, fun _ _ h => by cases h⟩
  · rw [if_neg hlen]
    exact ⟨_, m, rfl, .refl m, fun _ _ h => by cases h⟩

/-! ## A round -/

theorem careful_appendLayer (pairs : List (Qubit × Qubit)) : Careful asked (Layout.appendLayer pairs) :=
  careful_bind (careful_cx pairs) fun _ => careful_bind (careful_depolarize2 pairs) fun _ => careful_tick

theorem careful_appendDetector (l : Layout) (check : Qubit) {terms : List Term}
    (h : l.isSkipped check = false → terms ∈ asked) : Careful asked (l.appendDetector check terms) := by
  unfold Layout.appendDetector
  split
  · exact careful_pure ()
  · rename_i hs
    exact careful_discard (careful_detector (h (by simpa using hs)))

theorem careful_appendDetectors (l : Layout) (round : Nat) :
    Careful (l.roundTerms round) (l.appendDetectors round) := by
  cases round with
  | zero =>
    refine careful_forM fun check hcheck => careful_appendDetector l check fun hs => ?_
    exact List.mem_map.mpr ⟨check, List.mem_filter.mpr ⟨hcheck, by simp [hs]⟩, rfl⟩
  | succ r =>
    refine careful_forM fun check hcheck => careful_appendDetector l check fun hs => ?_
    exact List.mem_map.mpr ⟨check, List.mem_filter.mpr ⟨hcheck, by simp [hs]⟩, rfl⟩

theorem careful_appendRound (l : Layout) (round : Nat) : Careful (l.roundTerms round) (l.appendRound round) := by
  have hfirst : Careful (l.roundTerms round) (if round = 0 then pure () else Build.depolarize1 l.allChecks) := by
    split
    · exact careful_pure ()
    · exact careful_depolarize1 _
  rw [Layout.appendRound_eq]
  refine careful_bind (careful_beginRound round) fun _ => careful_bind hfirst fun _ => ?_
  refine careful_bind (careful_h _) fun _ => careful_bind (careful_depolarize1 _) fun _ => ?_
  refine careful_bind (careful_forM fun pairs _ => careful_appendLayer pairs) fun _ => ?_
  refine careful_bind (careful_depolarize1 _) fun _ => careful_bind (careful_h _) fun _ => ?_
  refine careful_bind (careful_depolarize1 _) fun _ => careful_bind (careful_depolarize1 _) fun _ => ?_
  exact careful_bind (careful_measuring _ _ rfl _ _ _) fun _ => careful_appendDetectors l round

/-! ## Any calls -/

/-- What can be called on a memory under construction. -/
inductive Call
  | prepare (qubits : List Qubit)
  | beginRound (round : Nat)
  | beginFinalize
  | h (qubits : List Qubit)
  | cx (pairs : List (Qubit × Qubit))
  | tick
  | depolarize1 (qubits : List Qubit)
  | depolarize2 (pairs : List (Qubit × Qubit))
  | measureReset (qubits : List Qubit) (round : Nat) (kind : MeasurementKind)
  | measure (qubits : List Qubit) (round : Nat) (kind : MeasurementKind)
  | detector (terms : List Term)
  | observable (index : Nat) (terms : List Term)
  | appendRound (layout : Layout) (round : Nat)

namespace Call

def action : Call → Build Unit
  | prepare qubits => Build.prepare qubits
  | beginRound round => Build.beginRound round
  | beginFinalize => Build.beginFinalize
  | h qubits => Build.h qubits
  | cx pairs => Build.cx pairs
  | tick => Build.tick
  | depolarize1 qubits => Build.depolarize1 qubits
  | depolarize2 pairs => Build.depolarize2 pairs
  | measureReset qubits round kind => Build.measureReset qubits round kind
  | measure qubits round kind => Build.measure qubits round kind
  | detector terms => discard (Build.detector terms)
  | observable index terms => Build.observable index terms
  | appendRound layout round => layout.appendRound round

/-- The terms that each detector or observable of the call asks for. -/
def requests : Call → List (List Term)
  | detector terms | observable _ terms => [terms]
  | appendRound layout round => layout.roundTerms round
  | _ => []

theorem careful (call : Call) : Careful call.requests call.action := by
  cases call with
  | prepare qubits => exact careful_prepare qubits
  | beginRound round => exact careful_beginRound round
  | beginFinalize => exact careful_beginFinalize
  | h qubits => exact careful_h qubits
  | cx pairs => exact careful_cx pairs
  | tick => exact careful_tick
  | depolarize1 qubits => exact careful_depolarize1 qubits
  | depolarize2 pairs => exact careful_depolarize2 pairs
  | measureReset qubits round kind => exact careful_measuring _ _ rfl qubits round kind
  | measure qubits round kind => exact careful_measuring _ _ rfl qubits round kind
  | detector terms => exact careful_discard (careful_detector (List.mem_singleton.mpr rfl))
  | observable index terms => exact careful_observable index (List.mem_singleton.mpr rfl)
  | appendRound layout round => exact careful_appendRound layout round

end Call

/-- The memory after calls, those that fail among them. -/
def after (m : Memory) (calls : List Call) : Memory := calls.foldl (fun m call => (m.perform call.action).2) m

theorem Synced.after {m : Memory} (h : m.Synced) (calls : List Call) : (m.after calls).Synced := by
  induction calls generalizing m with
  | nil => exact h
  | cons call rest ih => exact ih (h.extends (call.careful m h).1)

/-- After any calls, circuit and ledger count the same outcomes, of the same qubits in the same
    order, and so they do when the memory is finished. No call is refused for a reference out
    of range, and each detector or observable that a call adds refers to the recorded outcomes
    of terms that it was asked for. -/
theorem calls_lockstep (name : String) (params : CodeParams) (calls : List Call) :
    let m := (Memory.start name params).after calls
    m.ledger.length = m.circuit.numMeasurements ∧
      m.ledger.records.map (·.1.qubit) = m.circuit.measured ∧
      (∀ e, (m.perform Build.finish).1 = .ok e → e.ledger.length = e.circuit.numMeasurements) ∧
      ∀ call : Call,
        (∀ offset n, (m.perform call.action).1 ≠ .error (.circuit (.recordOutOfRange offset n))) ∧
        ∃ is, (m.perform call.action).2.circuit.instructions = m.circuit.instructions ++ is ∧
          ∀ ref ∈ referencesFrom m.circuit.numMeasurements is, ref.2 ≠ [] →
            ∃ ts ∈ call.requests, ((m.perform call.action).2.ledger.read ref.2).Sublist (ts.map some) := by
  intro m
  have hs : m.Synced := (start_synced name params).after calls
  refine ⟨hs.lockstep, ?_, ?_, ?_⟩
  · have hrecords : m.ledger.records.map (·.1) = m.ledger.latestFirst.reverse := List.zipIdx_map_fst 0 _
    rw [← hs.qubits, Ledger.terms, ← hrecords, List.map_map, List.map_map]
    rfl
  · intro e he
    rw [Build.finish, perform_bind_eq] at he
    have hrequire : Careful [] (Build.require "finish" [.finalizing]) := careful_require _ _
    obtain ⟨hext, -⟩ := hrequire m hs
    cases hp : m.perform (Build.require "finish" [.finalizing]) with
    | mk r m' =>
      rw [hp] at he hext
      cases r with
      | error e' => cases he
      | ok u =>
        cases he
        exact (hs.extends hext).lockstep
  · intro call
    obtain ⟨⟨is, ms, hc, hl, -, hrefs⟩, hr⟩ := call.careful m hs
    refine ⟨hr, is, ?_, ?_⟩
    · rw [hc, Circuit.instructions_extendAll]
    · intro ref href hne
      exact (hrefs ref href).resolve_left hne

end Memory

end QuantumMemory

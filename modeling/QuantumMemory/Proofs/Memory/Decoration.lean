/-
  QuantumMemory.Proofs.Memory.Decoration — noise decorates a memory and decides nothing.

  Two memories, the second at rates where there is no noise, that have the same circuit but
  for the noise of the first (`Decorates`) answer an action alike, a refusal included, and
  are as alike afterwards (`Alike`): all that an action asks of a memory is its phase, its
  ledger and how much is measured. That holds of the actions that a memory is put together
  from, one by one, hence of whole memories (`Layout.buildMemory_matching`), however large.
-/

import QuantumMemory.Proofs.Circuit.Decoration
import QuantumMemory.Proofs.Circuit.WellFormed
import QuantumMemory.Proofs.Memory.Calls

namespace QuantumMemory

namespace Memory

variable {p1 p2 : Binary64} {is : List Instruction}

theorem mem_noise1 {qubits : List Qubit} {i : Instruction} (h : i ∈ noise1 p1 qubits) :
    i = .noise (.depolarize1 p1) qubits ∧ p1.isPositive = true := by
  unfold noise1 at h
  split at h
  · rename_i hp
    exact ⟨Instruction.eq_of_mem_kept h, hp⟩
  · cases h

theorem mem_noise2 {pairs : List (Qubit × Qubit)} {i : Instruction} (h : i ∈ noise2 p2 pairs) :
    i = .noise (.depolarize2 p2) (flattenPairs pairs) ∧ p2.isPositive = true := by
  unfold noise2 at h
  split at h
  · rename_i hp
    exact ⟨Instruction.eq_of_mem_kept h, hp⟩
  · cases h

theorem decorated_noise1 (qubits : List Qubit) : Decorated p1 p2 (noise1 p1 qubits) where
  channel i hi channel hk := by
    obtain ⟨rfl, hp⟩ := mem_noise1 hi
    cases hk
    exact .inl ⟨rfl, hp⟩
  interaction _ := followedBy_of_none fun i hi hk => by
    obtain ⟨rfl, -⟩ := mem_noise1 hi
    cases hk
  onPairs := precededBy_of_none fun i hi hk => by
    obtain ⟨rfl, -⟩ := mem_noise1 hi
    cases hk
  reset _ := followedBy_of_none fun i hi hk => by
    obtain ⟨rfl, -⟩ := mem_noise1 hi
    cases hk

/-- A reset with its noise. -/
theorem decorated_reset (qubits : List Qubit) :
    Decorated p1 p2 ((Instruction.reset qubits).kept ++ noise1 p1 qubits) where
  channel i hi channel hk := by
    rcases List.mem_append.mp hi with hi | hi
    · cases Instruction.eq_of_mem_kept hi ▸ hk
    · have hnoise : Decorated p1 p2 (noise1 p1 qubits) := decorated_noise1 qubits
      exact hnoise.channel i hi channel hk
  interaction hp := by
    refine .append (followedBy_of_none fun i hi hk => ?_) ((decorated_noise1 qubits).interaction hp)
    cases Instruction.eq_of_mem_kept hi ▸ hk
  onPairs := by
    refine .append (precededBy_of_none fun i hi hk => ?_) (decorated_noise1 qubits).onPairs
    cases Instruction.eq_of_mem_kept hi ▸ hk
  reset hp := by
    rw [noise1, if_pos hp]
    exact followedBy_kept rfl rfl rfl (by simp [Instruction.noise])

/-- Interactions with their noise and a tick. -/
theorem decorated_layer (pairs : List (Qubit × Qubit)) : Decorated p1 p2 (Layout.layerProgram p2 pairs) := by
  refine Decorated.append ?_ (decorated_plain fun i hi => List.mem_singleton.mp hi ▸ rfl)
  refine ⟨fun i hi channel hk => ?_, fun hp => ?_, ?_, fun _ => followedBy_of_none fun i hi hk => ?_⟩
  · rcases List.mem_append.mp hi with hi | hi
    · cases Instruction.eq_of_mem_kept hi ▸ hk
    · obtain ⟨rfl, hp⟩ := mem_noise2 hi
      cases hk
      exact .inr ⟨rfl, hp⟩
  · rw [noise2, if_pos hp]
    exact followedBy_kept rfl rfl rfl (by simp [Instruction.noise])
  · by_cases hp : p2.isPositive = true
    · rw [noise2, if_pos hp]
      exact precededBy_kept rfl rfl rfl (by simp [Instruction.gate])
    · rw [noise2, if_neg hp, List.append_nil]
      refine precededBy_of_none fun i hi hk => ?_
      cases Instruction.eq_of_mem_kept hi ▸ hk
  · rcases List.mem_append.mp hi with hi | hi
    · cases Instruction.eq_of_mem_kept hi ▸ hk
    · obtain ⟨rfl, -⟩ := mem_noise2 hi
      cases hk

/-! ## Two memories -/

/-- The first memory is the second one but for the noise that it has at its rates. -/
structure Decorates (p1 p2 : Binary64) (m bare : Memory) : Prop where
  rate1 : m.p1 = p1
  rate2 : m.p2 = p2
  usable1 : Usable p1
  usable2 : Usable p2
  noNoise1 : bare.p1.isPositive = false
  noNoise2 : bare.p2.isPositive = false
  instructions : bare.circuit.instructions = withoutNoise m.circuit.instructions
  measurements : bare.circuit.numMeasurements = m.circuit.numMeasurements
  ledger : bare.ledger = m.ledger
  phase : bare.phase = m.phase
  roundsStarted : bare.roundsStarted = m.roundsStarted
  decorated : Decorated p1 p2 m.circuit.instructions

section Related

variable {m bare : Memory} (h : Decorates p1 p2 m bare)

include h

theorem Decorates.emit (hd : Decorated p1 p2 is) : Decorates p1 p2 (m.emit is) (bare.emit (withoutNoise is)) where
  rate1 := h.rate1
  rate2 := h.rate2
  usable1 := h.usable1
  usable2 := h.usable2
  noNoise1 := h.noNoise1
  noNoise2 := h.noNoise2
  instructions := by
    simp only [emit_circuit, Circuit.instructions_extendAll, withoutNoise_append, h.instructions]
  measurements := by
    simp only [emit_circuit, Circuit.numMeasurements_extendAll, measurementsOf_withoutNoise, h.measurements]
  ledger := h.ledger
  phase := h.phase
  roundsStarted := h.roundsStarted
  decorated := by
    rw [emit_circuit, Circuit.instructions_extendAll]
    exact h.decorated.append hd

theorem Decorates.usable1_bare : Usable bare.p1 := fun hp => by cases h.noNoise1.symm.trans hp

theorem Decorates.usable2_bare : Usable bare.p2 := fun hp => by cases h.noNoise2.symm.trans hp

theorem Decorates.noise1_bare (qubits : List Qubit) : noise1 bare.p1 qubits = withoutNoise (noise1 m.p1 qubits) := by
  rw [noise1_eq_nil h.noNoise1, withoutNoise_of_noise fun i hi => (mem_noise1 hi).1 ▸ rfl]

theorem Decorates.noise2_bare (pairs : List (Qubit × Qubit)) :
    noise2 bare.p2 pairs = withoutNoise (noise2 m.p2 pairs) := by
  rw [noise2_eq_nil h.noNoise2, withoutNoise_of_noise fun i hi => (mem_noise2 hi).1 ▸ rfl]

theorem Decorates.layer_bare (pairs : List (Qubit × Qubit)) :
    Layout.layerProgram bare.p2 pairs = withoutNoise (Layout.layerProgram m.p2 pairs) := by
  have hcx : withoutNoise (Instruction.gate .cx (flattenPairs pairs)).kept =
      (Instruction.gate .cx (flattenPairs pairs)).kept :=
    withoutNoise_of_plain fun i hi => Instruction.eq_of_mem_kept hi ▸ rfl
  have htick : withoutNoise [.tick] = [.tick] := rfl
  rw [Layout.layerProgram, Layout.layerProgram, withoutNoise_append, withoutNoise_append, hcx, htick, h.noise2_bare]

end Related

/-! ## Alike actions -/

variable {α β : Type}

/-- The memories answer the action alike, and are as alike afterwards. -/
def Alike (p1 p2 : Binary64) (x : Build α) : Prop := ∀ m bare : Memory, Decorates p1 p2 m bare →
  (bare.perform x).1 = (m.perform x).1 ∧ Decorates p1 p2 (m.perform x).2 (bare.perform x).2

theorem alike_of_eq {x : Build α} (h : ∀ m bare : Memory, Decorates p1 p2 m bare → ∃ r m' bare',
    m.perform x = (r, m') ∧ bare.perform x = (r, bare') ∧ Decorates p1 p2 m' bare') : Alike p1 p2 x := by
  intro m bare hrel
  obtain ⟨r, m', bare', hm, hbare, hrel'⟩ := h m bare hrel
  rw [hm, hbare]
  exact ⟨rfl, hrel'⟩

theorem alike_pure (a : α) : Alike p1 p2 (pure a : Build α) := fun _ _ h => ⟨rfl, h⟩

theorem alike_throw (e : CodeError) : Alike p1 p2 (throw e : Build α) := fun _ _ h => ⟨rfl, h⟩

theorem alike_bind {x : Build α} {f : α → Build β} (hx : Alike p1 p2 x) (hf : ∀ a, Alike p1 p2 (f a)) :
    Alike p1 p2 (x >>= f) := by
  intro m bare h
  obtain ⟨hr, hrel⟩ := hx m bare h
  rw [perform_bind_eq, perform_bind_eq]
  cases hm : m.perform x with
  | mk r m' =>
    cases hbare : bare.perform x with
    | mk r' bare' =>
      rw [hm, hbare] at hr hrel
      obtain rfl : r' = r := hr
      cases r' with
      | error e => exact ⟨rfl, hrel⟩
      | ok a => exact hf a m' bare' hrel

theorem alike_discard {x : Build α} (hx : Alike p1 p2 x) : Alike p1 p2 (discard x : Build PUnit) := by
  rw [discard_eq]
  exact alike_bind hx fun _ => alike_pure _

theorem alike_forM {γ : Type} {f : γ → Build PUnit} (h : ∀ x, Alike p1 p2 (f x)) (xs : List γ) :
    Alike p1 p2 (xs.forM f) := by
  induction xs with
  | nil => exact alike_pure _
  | cons x rest ih => exact alike_bind (h x) fun _ => ih

/-- An action that goes by what is the same in both memories. -/
theorem alike_get {f : Memory → Build α} (hsame : ∀ m bare, Decorates p1 p2 m bare → f bare = f m)
    (hf : ∀ m, Alike p1 p2 (f m)) : Alike p1 p2 (get >>= f) := by
  intro m bare h
  rw [perform_bind (perform_get m), perform_bind (perform_get bare), hsame m bare h]
  exact hf m m bare h

theorem alike_require (operation : String) (phases : List Phase) : Alike p1 p2 (Build.require operation phases) := by
  refine alike_get (fun m bare h => by rw [h.phase]) fun m => ?_
  split
  · exact alike_pure ()
  · exact alike_throw _

/-! ## Growing -/

theorem nodup_of_append {c c' : Circuit} {i : Instruction} (hop : i.kind.operates = true) (h : c.append i = .ok c') :
    i.qubits.Nodup := by
  rcases Circuit.append_inv h with ⟨hqubits, -, -⟩ | ⟨htick, -⟩ | ⟨-, -, hcheck, -⟩
  · rw [hqubits]
    exact List.nodup_nil
  · rw [htick] at hop
    cases hop
  · exact (Circuit.check_spec hcheck).1.distinct hop

theorem alike_append {i : Instruction} (hk : i.kind ≠ .tick) (hplain : i.kind.plain = true) :
    Alike p1 p2 (Build.grow (·.append i)) := by
  refine alike_of_eq fun m bare h => ?_
  rcases Circuit.append_congr h.measurements hk with ⟨e, he, he'⟩ | ⟨hok, hok'⟩
  · exact ⟨_, m, bare, perform_grow_error he, perform_grow_error he', h⟩
  · refine ⟨_, _, _, perform_grow hok, perform_grow hok', ?_⟩
    have hemit := h.emit (decorated_kept hplain)
    rwa [withoutNoise_of_plain fun i' hi => Instruction.eq_of_mem_kept hi ▸ Instruction.Kind.isNoise_of_plain hplain] at hemit

/-- An operation that names a qubit twice is refused by both. -/
theorem alike_repeated {i : Instruction} (hop : i.kind.operates = true) (hn : ¬i.qubits.Nodup) (f : Unit → Build α) :
    Alike p1 p2 (Build.grow (·.append i) >>= f) := by
  have hk : i.kind ≠ .tick := by
    intro ht
    rw [ht] at hop
    cases hop
  refine alike_of_eq fun m bare h => ?_
  rcases Circuit.append_congr h.measurements hk with ⟨e, he, he'⟩ | ⟨hok, -⟩
  · refine ⟨.error (.circuit e), m, bare, ?_, ?_, h⟩
    · rw [perform_bind_eq, perform_grow_error he]
    · rw [perform_bind_eq, perform_grow_error he']
  · exact absurd (nodup_of_append hop hok) hn

theorem alike_h (qubits : List Qubit) : Alike p1 p2 (Build.h qubits) :=
  alike_append (i := .gate .h qubits) (by simp [Instruction.gate]) rfl

theorem alike_depolarize1 (qubits : List Qubit) : Alike p1 p2 (Build.depolarize1 qubits) := by
  refine alike_of_eq fun m bare h => ?_
  obtain rfl := h.rate1
  refine ⟨_, _, _, perform_depolarize1 h.usable1 qubits, perform_depolarize1 h.usable1_bare qubits, ?_⟩
  rw [h.noise1_bare]
  exact h.emit (decorated_noise1 qubits)

theorem alike_prepare (qubits : List Qubit) : Alike p1 p2 (Build.prepare qubits) := by
  refine alike_bind (alike_require _ _) fun _ => ?_
  by_cases hn : qubits.Nodup
  · refine alike_of_eq fun m bare h => ?_
    obtain rfl := h.rate1
    refine ⟨.ok (), _, _, ?_, ?_, h.emit (decorated_reset qubits)⟩
    · rw [perform_bind (perform_grow (Circuit.reset_ok _ hn)), perform_depolarize1 (by exact h.usable1), emit_append]
      rfl
    · rw [perform_bind (perform_grow (Circuit.reset_ok _ hn)), perform_depolarize1 (by exact h.usable1_bare),
        withoutNoise_append, emit_append, emit_p1, h.noise1_bare,
        withoutNoise_of_plain fun i hi => Instruction.eq_of_mem_kept hi ▸ rfl]
  · exact alike_repeated (i := .reset qubits) rfl hn _

theorem alike_appendLayer (pairs : List (Qubit × Qubit)) : Alike p1 p2 (Layout.appendLayer pairs) := by
  by_cases hn : (flattenPairs pairs).Nodup
  · refine alike_of_eq fun m bare h => ?_
    obtain rfl := h.rate2
    refine ⟨_, _, _, Layout.perform_appendLayer h.usable2 hn, Layout.perform_appendLayer h.usable2_bare hn, ?_⟩
    rw [h.layer_bare]
    exact h.emit (decorated_layer pairs)
  · exact alike_repeated (i := .gate .cx (flattenPairs pairs)) rfl hn _

/-! ## Phases and the ledger -/

theorem alike_beginRound (round : Nat) : Alike p1 p2 (Build.beginRound round) := by
  refine alike_bind (alike_require _ _) fun _ => alike_of_eq fun m bare h => ?_
  rw [perform_bind (perform_get m), perform_bind (perform_get bare), h.roundsStarted, h.phase]
  by_cases hr : round = m.roundsStarted
  · rw [if_pos hr, if_pos hr]
    exact ⟨_, _, _, rfl, rfl, { h with phase := rfl, roundsStarted := rfl }⟩
  · rw [if_neg hr, if_neg hr]
    exact ⟨_, m, bare, rfl, rfl, h⟩

theorem alike_beginFinalize : Alike p1 p2 Build.beginFinalize :=
  alike_bind (alike_require _ _) fun _ => alike_of_eq fun _ _ h => ⟨_, _, _, rfl, rfl, { h with phase := rfl }⟩

theorem alike_requireUnmeasured (qubits : List Qubit) (round : Nat) :
    Alike p1 p2 (Build.requireUnmeasured qubits round) := by
  refine alike_get (fun m bare h => by rw [h.ledger]) fun m => ?_
  split
  · exact alike_throw _
  · exact alike_pure ()

theorem alike_recordOne (round : Nat) (kind : MeasurementKind) (q : Qubit) :
    Alike p1 p2 (Build.recordOne round kind q) := by
  refine alike_of_eq fun m bare h => ?_
  rw [Build.recordOne, perform_bind (perform_get m), perform_bind (perform_get bare), h.ledger]
  cases m.ledger.record q round kind with
  | ok ledger => exact ⟨_, _, _, rfl, rfl, { h with ledger := rfl }⟩
  | error e => exact ⟨_, m, bare, rfl, rfl, h⟩

theorem alike_measuring (operation : String) (phase : Phase) {instruction : Instruction.Kind}
    (hm : instruction.measures = true) (qubits : List Qubit) (round : Nat) (kind : MeasurementKind) :
    Alike p1 p2 (Build.measuring operation phase instruction qubits round kind) := by
  refine alike_bind (alike_require _ _) fun _ => alike_bind (alike_requireUnmeasured qubits round) fun _ =>
    alike_bind (alike_append (i := ⟨instruction, qubits, []⟩) (fun htick => ?_) ?_) fun _ =>
      alike_forM (alike_recordOne round kind) qubits
  · rw [show instruction = .tick from htick] at hm
    cases hm
  · cases instruction with
    | measure | measureReset => rfl
    | _ => cases hm

theorem alike_detector (terms : List Term) : Alike p1 p2 (Build.detector terms) := by
  refine alike_bind (alike_require _ _) fun _ => alike_get (fun m bare h => ?_) fun m => ?_
  · rw [resolve_eq, resolve_eq, h.ledger]
  · split
    · exact alike_pure false
    · exact alike_bind (alike_append (i := .detector _) (by simp [Instruction.detector]) rfl) fun _ => alike_pure true

theorem alike_observable (index : Nat) (terms : List Term) : Alike p1 p2 (Build.observable index terms) := by
  refine alike_bind (alike_require _ _) fun _ => alike_get (fun m bare h => ?_) fun m => ?_
  · rw [resolve_eq, resolve_eq, h.ledger]
  · dsimp only
    split
    · exact alike_append (i := .observable index _) (by simp [Instruction.observable]) rfl
    · exact alike_throw _

/-! ## Rounds and read-outs -/

/-- An action that is left out in some rounds. -/
theorem alike_unless {x : Build Unit} (p : Prop) [Decidable p] (hx : Alike p1 p2 x) :
    Alike p1 p2 (if p then pure () else x) := by
  split
  · exact alike_pure ()
  · exact hx

theorem alike_appendDetector (l : Layout) (check : Qubit) (terms : List Term) :
    Alike p1 p2 (l.appendDetector check terms) := alike_unless _ (alike_discard (alike_detector terms))

theorem alike_appendDetectors (l : Layout) (round : Nat) : Alike p1 p2 (l.appendDetectors round) := by
  cases round with
  | zero => exact alike_forM (fun check => alike_appendDetector l check _) _
  | succ r => exact alike_forM (fun check => alike_appendDetector l check _) _

theorem alike_appendRound (l : Layout) (round : Nat) : Alike p1 p2 (l.appendRound round) := by
  rw [Layout.appendRound_eq]
  refine alike_bind (alike_beginRound round) fun _ => alike_bind (alike_unless _ (alike_depolarize1 _)) fun _ => ?_
  refine alike_bind (alike_h _) fun _ => alike_bind (alike_depolarize1 _) fun _ => ?_
  refine alike_bind (alike_forM alike_appendLayer _) fun _ => ?_
  refine alike_bind (alike_depolarize1 _) fun _ => alike_bind (alike_h _) fun _ => ?_
  refine alike_bind (alike_depolarize1 _) fun _ => alike_bind (alike_depolarize1 _) fun _ => ?_
  exact alike_bind (alike_measuring _ _ rfl _ _ _) fun _ => alike_appendDetectors l round

theorem alike_appendReadout (l : Layout) (rounds : Nat) (logical : List Qubit) :
    Alike p1 p2 (l.appendReadout rounds logical) := by
  refine alike_bind alike_beginFinalize fun _ => alike_bind (alike_depolarize1 _) fun _ => ?_
  refine alike_bind (alike_measuring _ _ rfl _ _ _) fun _ => ?_
  exact alike_bind (alike_forM (fun check => alike_appendDetector l check _) _) fun _ => alike_observable _ _


/-! ## Whole memories -/

/-- Both builds fail alike, or the first gives what the second gives with noise in its places. -/
structure Matching (p1 p2 : Binary64) (result bare : Except CodeError Experiment) : Prop where
  same : bare.map (fun e => (e.circuit.instructions, e.ledger)) =
    result.map fun e => (withoutNoise e.circuit.instructions, e.ledger)
  decorated : ∀ e, result = .ok e → Decorated p1 p2 e.circuit.instructions

/-- The action ends in experiments that match. -/
def EndsAlike (p1 p2 : Binary64) (x : Build Experiment) : Prop := ∀ m bare : Memory, Decorates p1 p2 m bare →
  Matching p1 p2 (m.perform x).1 (bare.perform x).1

theorem matching_error (e : CodeError) : Matching p1 p2 (.error e) (.error e) := ⟨rfl, fun _ h => by cases h⟩

theorem endsAlike_bind {x : Build α} {f : α → Build Experiment} (hx : Alike p1 p2 x) (hf : ∀ a, EndsAlike p1 p2 (f a)) :
    EndsAlike p1 p2 (x >>= f) := by
  intro m bare h
  obtain ⟨hr, hrel⟩ := hx m bare h
  rw [perform_bind_eq, perform_bind_eq]
  cases hm : m.perform x with
  | mk r m' =>
    cases hbare : bare.perform x with
    | mk r' bare' =>
      rw [hm, hbare] at hr hrel
      obtain rfl : r' = r := hr
      cases r' with
      | error e => exact matching_error e
      | ok a => exact hf a m' bare' hrel

theorem endsAlike_finish : EndsAlike p1 p2 Build.finish := by
  refine endsAlike_bind (alike_require _ _) fun _ m bare h => ?_
  refine ⟨congrArg Except.ok (Prod.ext h.instructions h.ledger), fun e he => ?_⟩
  cases he
  exact h.decorated

end Memory

/-- The same code without noise. -/
def CodeParams.noiseless (params : CodeParams) : CodeParams := ⟨params.distance, .zero, .zero⟩

section Builds

open Memory

variable {params : CodeParams} (h : params.validate = .ok ())

include h

theorem Memory.start_decorates (name : String) : Decorates params.depolarize1Rate params.depolarize2Rate
    (Memory.start name params) (Memory.start name params.noiseless) where
  rate1 := rfl
  rate2 := rfl
  usable1 := (Layout.usable_of_validate h).1
  usable2 := (Layout.usable_of_validate h).2
  noNoise1 := rfl
  noNoise2 := rfl
  instructions := rfl
  measurements := rfl
  ledger := rfl
  phase := rfl
  roundsStarted := rfl
  decorated := decorated_plain fun _ hi => absurd hi List.not_mem_nil

/-- The memory of a layout is that without noise, decorated. -/
theorem Layout.buildMemory_matching (l : Layout) (name : String) (rounds : Nat) (logical : List Qubit) :
    Matching params.depolarize1Rate params.depolarize2Rate (l.buildMemory name params rounds logical)
      (l.buildMemory name params.noiseless rounds logical) := by
  rw [buildMemory, buildMemory, validateRounds]
  split
  · exact matching_error _
  · have hends : EndsAlike params.depolarize1Rate params.depolarize2Rate (l.memory rounds logical) :=
      endsAlike_bind (alike_prepare _) fun _ => endsAlike_bind (alike_forM (alike_appendRound l) _) fun _ =>
        endsAlike_bind (alike_appendReadout l rounds logical) fun _ => endsAlike_finish
    exact hends _ _ (start_decorates h name)

end Builds

end QuantumMemory

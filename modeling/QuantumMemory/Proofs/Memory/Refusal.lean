/-
  QuantumMemory.Proofs.Memory.Refusal — a call on a memory is done as a whole or not at all.

  An action may fail half way, and what it did before stays done. A single call tests first
  what can be refused, so after its first effect nothing fails any more: not the noise of a
  preparation, if the rate is one that noise can have, and not the entries of a measurement,
  whose qubits are by then known to differ and to be new to the round. So it is refused and
  leaves the memory as it was, or it succeeds (`Call.settles`).

  At a rate that is no probability a preparation does fail half way (`prepare_halfway`).
-/

import QuantumMemory.Proofs.Memory.Phases

namespace QuantumMemory

namespace Memory

variable {α β : Type} {m : Memory}

/-- All or nothing: refused, with the memory as it was, or done. -/
inductive Settled (m : Memory) : Except CodeError α × Memory → Prop
  | refused (e : CodeError) : Settled m (.error e, m)
  | done (a : α) (m' : Memory) : Settled m (.ok a, m')

theorem Settled.unchanged {r : Except CodeError α × Memory} (h : Settled m r) {e : CodeError} (he : r.1 = .error e) :
    r.2 = m := by
  cases h with
  | refused => rfl
  | done => cases he

theorem settled_pure (a : α) : Settled m (m.perform (pure a : Build α)) := .done a m

theorem settled_throw (e : CodeError) : Settled m (m.perform (throw e : Build α)) := .refused e

theorem settled_grow (m : Memory) (f : Circuit → Except CircuitError Circuit) :
    Settled m (m.perform (Build.grow f)) := by
  cases hf : f m.circuit with
  | error e =>
    rw [perform_grow_error hf]
    exact .refused _
  | ok c =>
    rw [perform_grow_ok hf]
    exact .done _ _

theorem perform_grow_rate {f : Circuit → Except CircuitError Circuit} {u : Unit} {m' : Memory}
    (h : m.perform (Build.grow f) = (.ok u, m')) : m'.p1 = m.p1 := by
  cases hf : f m.circuit with
  | error e =>
    rw [perform_grow_error hf] at h
    cases h
  | ok c =>
    rw [perform_grow_ok hf] at h
    cases h
    rfl

theorem settled_require {operation : String} {phases : List Phase} {f : Unit → Build α}
    (h : m.phase ∈ phases → Settled m (m.perform (f ()))) : Settled m (m.perform (Build.require operation phases >>= f)) := by
  by_cases hphase : m.phase ∈ phases
  · rw [perform_bind (perform_require hphase operation)]
    exact h hphase
  · rw [perform_bind_eq, perform_require_error hphase]
    exact .refused _

/-- What follows a settled action must not fail. -/
theorem settled_bind {x : Build α} {f : α → Build β} (hx : Settled m (m.perform x))
    (hf : ∀ a m', m.perform x = (.ok a, m') → ∃ b m'', m'.perform (f a) = (.ok b, m'')) :
    Settled m (m.perform (x >>= f)) := by
  rw [perform_bind_eq]
  cases hdone : m.perform x with
  | mk r m' =>
    rw [hdone] at hx
    cases hx with
    | refused e => exact .refused e
    | done a =>
      obtain ⟨b, m'', hlater⟩ := hf a m' hdone
      dsimp only
      rw [hlater]
      exact .done b m''

theorem settled_discard {x : Build α} (hx : Settled m (m.perform x)) : Settled m (m.perform (discard x : Build PUnit)) := by
  rw [discard_eq]
  exact settled_bind hx fun _ m' _ => ⟨_, m', rfl⟩

theorem settled_depolarize1 (m : Memory) (qubits : List Qubit) : Settled m (m.perform (Build.depolarize1 qubits)) := by
  rw [Build.depolarize1, perform_bind (perform_get m)]
  split
  · exact settled_grow m _
  · exact settled_pure ()

theorem settled_depolarize2 (m : Memory) (pairs : List (Qubit × Qubit)) :
    Settled m (m.perform (Build.depolarize2 pairs)) := by
  rw [Build.depolarize2, perform_bind (perform_get m)]
  split
  · exact settled_grow m _
  · exact settled_pure ()

/-- Once the qubits are reset, the noise at a usable rate is never refused. -/
theorem settled_prepare (h : Usable m.p1) (qubits : List Qubit) : Settled m (m.perform (Build.prepare qubits)) := by
  refine settled_require fun _ => settled_bind (settled_grow m _) fun _ m' hreset => ?_
  have husable : Usable m'.p1 := by rwa [perform_grow_rate hreset]
  exact ⟨_, _, perform_depolarize1 husable qubits⟩

theorem settled_beginRound (m : Memory) (round : Nat) : Settled m (m.perform (Build.beginRound round)) := by
  rcases perform_beginRound_cases m round with ⟨-, -, hdone⟩ | ⟨e, hdone⟩
  · rw [hdone]
    exact .done _ _
  · rw [hdone]
    exact .refused e

theorem settled_beginFinalize (m : Memory) : Settled m (m.perform Build.beginFinalize) :=
  settled_require fun _ => .done _ _

theorem settled_measuring (m : Memory) (operation : String) (phase : Phase) {instruction : Instruction.Kind}
    (hm : instruction.measures = true) (qubits : List Qubit) (round : Nat) (kind : MeasurementKind) :
    Settled m (m.perform (Build.measuring operation phase instruction qubits round kind)) := by
  rcases perform_measuring_cases m operation phase hm qubits round kind with ⟨e, -, hrefused⟩ | hdone
  · rw [hrefused]
    exact .refused _
  · rw [hdone]
    exact .done _ _

theorem settled_detector (m : Memory) (terms : List Term) : Settled m (m.perform (Build.detector terms)) := by
  refine settled_require fun _ => ?_
  rw [perform_bind (perform_get m)]
  split
  · exact settled_pure false
  · exact settled_bind (settled_grow m _) fun _ m' _ => ⟨true, m', rfl⟩

theorem settled_observable (m : Memory) (index : Nat) (terms : List Term) :
    Settled m (m.perform (Build.observable index terms)) := by
  refine settled_require fun _ => ?_
  rw [perform_bind (perform_get m)]
  dsimp only
  split
  · exact settled_grow m _
  · exact settled_throw _

namespace Call

/-- All calls but a whole round, which is a run of others. -/
def isSingle : Call → Bool
  | appendRound .. => false
  | _ => true

/-- A single call is refused and leaves the memory as it was, or it succeeds. -/
theorem settles {call : Call} (hsingle : call.isSingle = true) (h : Usable m.p1) : Settled m (m.perform call.action) := by
  cases call with
  | prepare qubits => exact settled_prepare h qubits
  | beginRound round => exact settled_beginRound m round
  | beginFinalize => exact settled_beginFinalize m
  | h qubits => exact settled_grow m (·.gate .h qubits)
  | cx pairs => exact settled_grow m (·.gatePairs .cx pairs)
  | tick => exact .done _ _
  | depolarize1 qubits => exact settled_depolarize1 m qubits
  | depolarize2 pairs => exact settled_depolarize2 m pairs
  | measureReset qubits round kind => exact settled_measuring m _ _ rfl qubits round kind
  | measure qubits round kind => exact settled_measuring m _ _ rfl qubits round kind
  | detector terms => exact settled_discard (settled_detector m terms)
  | observable index terms => exact settled_observable m index terms
  | appendRound layout round => cases hsingle

end Call

/-- At a rate above zero that is no probability, the qubits are reset before the noise is refused. -/
theorem prepare_halfway (hrate : ¬Usable m.p1) (hphase : m.phase = .init) {qubits : List Qubit} (hn : qubits.Nodup)
    (hsome : qubits ≠ []) :
    m.perform (Build.prepare qubits) =
      (.error (.circuit (.invalidProbability m.p1 "depolarize1")), m.emit [.reset qubits]) := by
  obtain ⟨hpositive, hunlikely⟩ : m.p1.isPositive = true ∧ ¬m.p1.isProbability = true := by
    simpa [Usable] using hrate
  have hkept : (Instruction.reset qubits).kept = [.reset qubits] := by
    rw [Instruction.kept, if_neg]
    simpa [Instruction.reset] using hsome
  have hreset : m.perform (Build.grow (·.reset qubits)) = (.ok (), m.emit [.reset qubits]) :=
    perform_grow (by rw [Circuit.reset_ok _ hn, hkept])
  have hcheck : Circuit.checkProbability (Channel.depolarize1 m.p1).name (Channel.depolarize1 m.p1).probability =
      .error (.invalidProbability m.p1 "depolarize1") := if_neg hunlikely
  have hnoise : Circuit.depolarize1 (m.emit [.reset qubits]).circuit m.p1 qubits =
      .error (.invalidProbability m.p1 "depolarize1") := by
    rw [Circuit.depolarize1, Circuit.noise, hcheck]
    rfl
  rw [Build.prepare, perform_bind (perform_require (by simp [hphase]) _), perform_bind hreset, Build.depolarize1,
    perform_bind (perform_get _), emit_p1, if_pos hpositive, perform_grow_error hnoise]

end Memory

end QuantumMemory

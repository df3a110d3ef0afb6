/-
  QuantumMemory.Proofs.Circuit.Edit — what edits in place leave.

  An edit that fails leaves what it wrote before it failed. Those of a circuit write nothing
  before all that can fail is over (`perform_append`), so a call in place leaves what it
  makes of the circuit's value, or the circuit as it was (`perform_edit`). Calls in place
  build the same circuits (`edited_empty`).
-/

import QuantumMemory.Circuit.Edit
import QuantumMemory.Proofs.Circuit.WellFormed
import QuantumMemory.Proofs.Success

namespace QuantumMemory

namespace Edit

variable {σ α β : Type} {s s' : σ}

theorem perform_get (s : σ) : perform s (get : Edit σ σ) = (.ok s, s) := rfl

theorem perform_bind_eq (s : σ) (x : Edit σ α) (f : α → Edit σ β) : perform s (x >>= f) =
    match perform s x with
    | (.ok a, s') => perform s' (f a)
    | (.error e, s') => (.error e, s') := by
  simp only [perform, run_bind_eq]
  rcases (ExceptT.run x).run s with ⟨e | a, s'⟩ <;> rfl

theorem perform_bind {x : Edit σ α} {a : α} (h : perform s x = (.ok a, s')) (f : α → Edit σ β) :
    perform s (x >>= f) = perform s' (f a) := by
  rw [perform_bind_eq, h]

theorem perform_bind_error {x : Edit σ α} {e : CircuitError} (h : perform s x = (.error e, s')) (f : α → Edit σ β) :
    perform s (x >>= f) = (.error e, s') := by
  rw [perform_bind_eq, h]

theorem perform_demand (s : σ) {check : σ → Except CircuitError Unit} (h : check s = .ok ()) :
    perform s (demand check) = (.ok (), s) := by
  rw [demand, perform_bind (perform_get s), h]
  rfl

theorem perform_demand_error (s : σ) {check : σ → Except CircuitError Unit} {e : CircuitError}
    (h : check s = .error e) : perform s (demand check) = (.error e, s) := by
  rw [demand, perform_bind (perform_get s), h]
  rfl

/-- All or nothing: what was made and the answer to it, or what was there before. -/
def settle (s : σ) (made : Except CircuitError σ) (answer : σ → α) : Except CircuitError α × σ :=
  match made with
  | .ok s' => (.ok (answer s'), s')
  | .error e => (.error e, s)

theorem perform_return {x : Edit σ α} {made : Except CircuitError σ} {answer : σ → α}
    (h : perform s x = settle s made answer) (f : α → β) :
    perform s (x >>= fun a => pure (f a)) = settle s made (f ∘ answer) := by
  rw [perform_bind_eq, h]
  cases made with
  | ok s' => rfl
  | error e => rfl

end Edit

open Edit

namespace Circuit

/-- The writes together are the circuit with one more instruction. -/
theorem perform_writes (c : Circuit) (i : Instruction) :
    perform c (do
      InPlace.countQubits i.qubits
      InPlace.countMeasurements i.measurements
      InPlace.countKind i.kind
      InPlace.push i) = (.ok (), c.extend i) := by
  obtain ⟨kind, qubits, records⟩ := i
  cases kind with
  | _ => rfl

theorem perform_append (c : Circuit) (i : Instruction) :
    perform c (InPlace.append i) = settle c (c.append i) fun _ => () := by
  unfold InPlace.append append
  by_cases htick : i.kind = .tick
  · rw [if_pos htick, if_pos htick]
    rfl
  rw [if_neg htick, if_neg htick]
  by_cases hempty : (i.qubits.isEmpty && i.records.isEmpty) = true
  · rw [if_pos hempty, if_pos hempty]
    rfl
  rw [if_neg hempty, if_neg hempty]
  cases hcheck : c.check i with
  | ok u =>
    rw [perform_bind (perform_demand c hcheck), perform_writes]
    rfl
  | error e =>
    rw [perform_bind_error (perform_demand_error c hcheck)]
    rfl

theorem perform_noise (c : Circuit) (channel : Channel) (qubits : List Qubit) :
    perform c (InPlace.noise channel qubits) = settle c (c.noise channel qubits) fun _ => () := by
  cases hcheck : checkProbability channel.name channel.probability with
  | ok u =>
    rw [InPlace.noise, perform_bind (perform_demand c hcheck), perform_append, noise, hcheck]
    rfl
  | error e =>
    rw [InPlace.noise, perform_bind_error (perform_demand_error c hcheck), noise, hcheck]
    rfl

theorem perform_measuring (c : Circuit) (i : Instruction) : perform c (InPlace.measuring i) =
    settle c (c.append i) fun c' => (c.numMeasurements, c'.numMeasurements) := by
  rw [InPlace.measuring, perform_bind (perform_get c), perform_bind_eq, perform_append]
  cases c.append i with
  | ok c' => rfl
  | error e => rfl

/-- What a call answers when it succeeds. -/
def Call.answer (call : Call) (c c' : Circuit) : Option (Nat × Nat) :=
  match call with
  | measure _ | measureReset _ => some (c.numMeasurements, c'.numMeasurements)
  | _ => none

/-- A call in place leaves what it makes of the circuit's value, or the circuit as it was. -/
theorem perform_edit (c : Circuit) (call : Call) : perform c call.edit = settle c (call.act c) (call.answer c) := by
  cases call with
  | measure qubits | measureReset qubits => exact perform_return (perform_measuring c _) some
  | depolarize1 p qubits | depolarize2 p pairs => exact perform_return (perform_noise c _ _) fun _ => none
  | tick => rfl
  | _ => exact perform_return (perform_append c _) fun _ => none

/-- What a call leaves: what its instruction makes, or the circuit as it was. -/
theorem perform_edit_cases (c : Circuit) (call : Call) :
    (∃ e, perform c call.edit = (.error e, c)) ∨
      ∃ c', c.append call.instruction = .ok c' ∧ perform c call.edit = (.ok (call.answer c c'), c') := by
  rw [perform_edit]
  cases hact : call.act c with
  | error e => exact .inl ⟨e, rfl⟩
  | ok c' => exact .inr ⟨c', Call.append_of_act hact, rfl⟩

/-- The circuit after calls in place, refused ones among them. -/
def edited (c : Circuit) (calls : List Call) : Circuit := calls.foldl (fun c call => (perform c call.edit).2) c

/-- The numbers that measurements answer with, in the order of the calls. -/
def ranges (c : Circuit) : List Call → List (Nat × Nat)
  | [] => []
  | call :: rest =>
    match perform c call.edit with
    | (.ok (some range), c') => range :: ranges c' rest
    | (_, c') => ranges c' rest

/-- Calls in place build the same circuits. -/
theorem edited_empty (name : String) (calls : List Call) : edited (empty name) calls = built name calls := by
  have hstep : ∀ (c : Circuit) (call : Call), (perform c call.edit).2 = call.run c := by
    intro c call
    rw [perform_edit, Call.run]
    cases call.act c with
    | ok c' => rfl
    | error e => rfl
  exact List.foldl_ext _ _ _ fun c call _ => hstep c call

end Circuit

end QuantumMemory

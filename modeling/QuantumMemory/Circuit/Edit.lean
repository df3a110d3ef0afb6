/-
  QuantumMemory.Circuit.Edit — changing a circuit in place.

  Where a circuit is kept and changed, a call writes the counters and the stream one after
  the other, and nothing takes back what is written. So all that can be refused is refused
  before the first of them. A measurement answers with the numbers of its outcomes.
-/

import QuantumMemory.Circuit.Basic

namespace QuantumMemory

/-- A change of what is kept in place. What it wrote stays written when it fails. -/
abbrev Edit (σ α : Type) := ExceptT CircuitError (StateM σ) α

namespace Edit

/-- The result of an edit, and what it leaves. -/
def perform {σ α : Type} (s : σ) (edit : Edit σ α) : Except CircuitError α × σ := (ExceptT.run edit).run s

/-- Refuses what the check refuses. -/
def demand {σ : Type} (check : σ → Except CircuitError Unit) : Edit σ Unit := do
  let s ← get
  match check s with
  | .ok () => pure ()
  | .error e => throw e

end Edit

namespace Circuit

namespace InPlace

def countQubits (qubits : List Qubit) : Edit Circuit Unit :=
  modify fun c => { c with numQubits := qubitBound c.numQubits qubits }

def countMeasurements (n : Nat) : Edit Circuit Unit := modify fun c => { c with numMeasurements := c.numMeasurements + n }

def countKind : Instruction.Kind → Edit Circuit Unit
  | .detector => modify fun c => { c with numDetectors := c.numDetectors + 1 }
  | .observable index => modify fun c => { c with numObservables := max c.numObservables (index + 1) }
  | _ => pure ()

def push (i : Instruction) : Edit Circuit Unit := modify fun c => { c with latestFirst := i :: c.latestFirst }

def tick : Edit Circuit Unit := push .tick

def append (i : Instruction) : Edit Circuit Unit := do
  if i.kind = .tick then tick
  else if i.qubits.isEmpty && i.records.isEmpty then pure ()
  else
    Edit.demand (·.check i)
    countQubits i.qubits
    countMeasurements i.measurements
    countKind i.kind
    push i

/-- The probability counts even when there is no target. -/
def noise (channel : Channel) (qubits : List Qubit) : Edit Circuit Unit := do
  Edit.demand fun _ => checkProbability channel.name channel.probability
  append (.noise channel qubits)

/-- The numbers of the outcomes that the instruction adds: the first, and one past the last. -/
def measuring (i : Instruction) : Edit Circuit (Nat × Nat) := do
  let before ← get
  append i
  let after ← get
  return (before.numMeasurements, after.numMeasurements)

end InPlace

/-- A call that grows a circuit. -/
inductive Call
  | reset (qubits : List Qubit)
  | gate (g : Gate) (qubits : List Qubit)
  | gatePairs (g : Gate) (pairs : List (Qubit × Qubit))
  | depolarize1 (p : Binary64) (qubits : List Qubit)
  | depolarize2 (p : Binary64) (pairs : List (Qubit × Qubit))
  | measure (qubits : List Qubit)
  | measureReset (qubits : List Qubit)
  | detector (records : List RecordOffset)
  | observable (index : Nat) (records : List RecordOffset)
  | tick
  | append (i : Instruction)

namespace Call

/-- What the call asks to append. -/
def instruction : Call → Instruction
  | reset qubits => .reset qubits
  | gate g qubits => .gate g qubits
  | gatePairs g pairs => .gate g (flattenPairs pairs)
  | depolarize1 p qubits => .noise (.depolarize1 p) qubits
  | depolarize2 p pairs => .noise (.depolarize2 p) (flattenPairs pairs)
  | measure qubits => .measure qubits
  | measureReset qubits => .measureReset qubits
  | detector records => .detector records
  | observable index records => .observable index records
  | tick => .tick
  | append i => i

/-- Only measurements have an answer. -/
def edit (call : Call) : Edit Circuit (Option (Nat × Nat)) :=
  match call with
  | measure _ | measureReset _ => do return some (← InPlace.measuring call.instruction)
  | depolarize1 p qubits => do
    InPlace.noise (.depolarize1 p) qubits
    return none
  | depolarize2 p pairs => do
    InPlace.noise (.depolarize2 p) (flattenPairs pairs)
    return none
  | tick => do
    InPlace.tick
    return none
  | reset _ | gate .. | gatePairs .. | detector _ | observable .. | append _ => do
    InPlace.append call.instruction
    return none

end Call

end Circuit

end QuantumMemory

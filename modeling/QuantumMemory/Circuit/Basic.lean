/-
  QuantumMemory.Circuit.Basic — circuits, which grow at the end only.

  `append` admits an instruction if it fits the circuit so far: probabilities lie between
  zero and one, a pair operation has whole pairs, an operation names no qubit twice (a
  channel on pairs only has to keep its pairs apart), and what a detector or an observable
  refers to is measured already. An instruction without any target is passed over,
  a tick is always taken. A refusal says why and leaves the circuit as it was.

  The counters say what the instructions add up to; a circuit of its own is empty.
-/

import QuantumMemory.Circuit.Instruction

namespace QuantumMemory

/-- Why an operation on a circuit or on its ledger is refused. -/
inductive CircuitError
  | duplicateMeasurement (qubit : Qubit) (round : Nat)
  | duplicateQubit (qubit : Qubit) (operation : String)
  | invalidProbability (p : Binary64) (channel : String)
  | recordOutOfRange (offset : RecordOffset) (measurements : Nat)
  | oddPairTargets (operation : String) (count : Nat)
  deriving DecidableEq

def CircuitError.message : CircuitError → String
  | duplicateMeasurement q r => s!"Qubit q{q} was already measured in round {r}"
  | duplicateQubit q operation => s!"Duplicate qubit q{q} in operation (op: {operation})"
  | invalidProbability p channel =>
    s!"Invalid probability {p} for '{channel}' (expected a value in [0, 1])"
  | recordOutOfRange offset measurements =>
    s!"Record offset {offset.text} is out of range ({measurements} measurements so far)"
  | oddPairTargets operation count => s!"'{operation}' expects qubit pairs, got {count} targets"

/-- The instructions are kept latest first, which makes growing one step. -/
structure Circuit where
  name : String
  latestFirst : List Instruction
  numQubits : Nat
  numMeasurements : Nat
  numDetectors : Nat
  numObservables : Nat
  deriving DecidableEq

/-- The first qubit that occurs a second time. -/
def firstRepeat? : List Qubit → (seen : List Qubit) → Option Qubit
  | [], _ => none
  | q :: rest, seen => if q ∈ seen then some q else firstRepeat? rest (q :: seen)

namespace Circuit

def empty (name : String) : Circuit := ⟨name, [], 0, 0, 0, 0⟩

/-- In the order they act. -/
def instructions (c : Circuit) : List Instruction := c.latestFirst.reverse

def length (c : Circuit) : Nat := c.latestFirst.length

def isEmpty (c : Circuit) : Bool := c.latestFirst.isEmpty

/-! ## What an instruction has to meet -/

def checkProbability (channel : String) (p : Binary64) : Except CircuitError Unit :=
  if p.isProbability then .ok () else .error (.invalidProbability p channel)

def checkPairs (i : Instruction) : Except CircuitError Unit :=
  if i.qubits.length % 2 = 0 then .ok () else .error (.oddPairTargets i.name i.qubits.length)

def checkDistinct (i : Instruction) : Except CircuitError Unit :=
  match firstRepeat? i.qubits [] with
  | some q => .error (.duplicateQubit q i.name)
  | none => .ok ()

def checkApart (i : Instruction) : Except CircuitError Unit :=
  match i.pairs.find? fun (a, b) => a = b with
  | some (q, _) => .error (.duplicateQubit q i.name)
  | none => .ok ()

def checkRecords (c : Circuit) (i : Instruction) : Except CircuitError Unit :=
  match i.records.find? fun r => (r.resolve? c.numMeasurements).isNone with
  | some r => .error (.recordOutOfRange r c.numMeasurements)
  | none => .ok ()

def check (c : Circuit) (i : Instruction) : Except CircuitError Unit :=
  match i.kind with
  | .reset | .measure | .measureReset => checkDistinct i
  | .gate g => do
    if g.arity = 2 then checkPairs i
    checkDistinct i
  | .noise channel => do
    checkProbability channel.name channel.probability
    if channel.arity = 2 then
      checkPairs i
      checkApart i
  | .detector | .observable _ => c.checkRecords i
  | .tick => .ok ()

/-! ## Growing -/

/-- One past the largest qubit, at least `n`. -/
def qubitBound (n : Nat) (qubits : List Qubit) : Nat := qubits.foldl (fun n q => max n (q + 1)) n

/-- The circuit with one more instruction, whatever it is. -/
def extend (c : Circuit) (i : Instruction) : Circuit where
  name := c.name
  latestFirst := i :: c.latestFirst
  numQubits := qubitBound c.numQubits i.qubits
  numMeasurements := c.numMeasurements + i.measurements
  numDetectors := if i.kind = .detector then c.numDetectors + 1 else c.numDetectors
  numObservables := match i.kind with
    | .observable index => max c.numObservables (index + 1)
    | _ => c.numObservables

def tick (c : Circuit) : Circuit := c.extend .tick

def append (c : Circuit) (i : Instruction) : Except CircuitError Circuit :=
  if i.kind = .tick then .ok c.tick
  else if i.qubits.isEmpty && i.records.isEmpty then .ok c
  else do
    c.check i
    return c.extend i

def reset (c : Circuit) (qubits : List Qubit) : Except CircuitError Circuit := c.append (.reset qubits)

def gate (c : Circuit) (g : Gate) (qubits : List Qubit) : Except CircuitError Circuit :=
  c.append (.gate g qubits)

def gatePairs (c : Circuit) (g : Gate) (pairs : List (Qubit × Qubit)) : Except CircuitError Circuit :=
  c.append (.gate g (flattenPairs pairs))

/-- The probability counts even when there is no target. -/
def noise (c : Circuit) (channel : Channel) (qubits : List Qubit) : Except CircuitError Circuit := do
  checkProbability channel.name channel.probability
  c.append (.noise channel qubits)

def depolarize1 (c : Circuit) (p : Binary64) (qubits : List Qubit) : Except CircuitError Circuit :=
  c.noise (.depolarize1 p) qubits

def depolarize2 (c : Circuit) (p : Binary64) (pairs : List (Qubit × Qubit)) : Except CircuitError Circuit :=
  c.noise (.depolarize2 p) (flattenPairs pairs)

def measure (c : Circuit) (qubits : List Qubit) : Except CircuitError Circuit := c.append (.measure qubits)

def measureReset (c : Circuit) (qubits : List Qubit) : Except CircuitError Circuit :=
  c.append (.measureReset qubits)

def detector (c : Circuit) (records : List RecordOffset) : Except CircuitError Circuit :=
  c.append (.detector records)

def observable (c : Circuit) (index : Nat) (records : List RecordOffset) : Except CircuitError Circuit :=
  c.append (.observable index records)

/-! ## Summaries -/

def numTicks (c : Circuit) : Nat := (c.latestFirst.filter fun i => i.kind = .tick).length

/-- One more under `name`, at the end if it is new. -/
def countName (name : String) : List (String × Nat) → List (String × Nat)
  | [] => [(name, 1)]
  | (other, n) :: rest => if other = name then (other, n + 1) :: rest else (other, n) :: countName name rest

/-- How many instructions of each name there are, in the order of first use. -/
def countOperations (c : Circuit) : List (String × Nat) :=
  c.instructions.foldl (fun counts i => countName i.name counts) []

end Circuit

end QuantumMemory

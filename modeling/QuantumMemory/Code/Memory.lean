/-
  QuantumMemory.Code.Memory — building a memory circuit together with its ledger.

  A memory under construction goes through three phases: it is prepared, rounds of checks
  are measured, and the data is read out. Every measurement appended to the circuit is
  entered in the ledger, so a detector is declared by naming qubits and rounds: what is
  not measured is left out of a detector, and refused in an observable.

  An action may fail half way. What it did before stays done, so an action gives back the
  memory as it is then, whether it fails or not.

  Rounds are counted here without a bound. Kept in place the count is a 32-bit word
  (`IndexedMemory`), which is the same for fewer than 2^32 rounds.
-/

import QuantumMemory.Circuit.Ledger
import QuantumMemory.Code.Params

namespace QuantumMemory

structure Memory where
  circuit : Circuit
  ledger : Ledger
  phase : Phase
  roundsStarted : Nat
  p1 : Binary64
  p2 : Binary64
  deriving DecidableEq

/-- A circuit that is complete, with its ledger. -/
structure Experiment where
  circuit : Circuit
  ledger : Ledger
  rounds : Nat
  deriving DecidableEq

/-- An outcome by what was measured: a qubit in a round. -/
abbrev Term := Qubit × Nat

/-- What can be done to a memory; a failure leaves it as far as it came. -/
abbrev Build (α : Type) := ExceptT CodeError (StateM Memory) α

namespace Memory

def start (name : String) (params : CodeParams) : Memory where
  circuit := .empty name
  ledger := .empty
  phase := .init
  roundsStarted := 0
  p1 := params.depolarize1Rate
  p2 := params.depolarize2Rate

/-- The result of an action, and the memory after it. -/
def perform {α : Type} (m : Memory) (action : Build α) : Except CodeError α × Memory :=
  (ExceptT.run action).run m

/-- The references to those of the outcomes that are measured. -/
def resolve (m : Memory) (terms : List Term) : List RecordOffset :=
  terms.filterMap fun (q, r) => m.ledger.lookup? q r

end Memory

namespace Build

/-- Refuses an operation outside of its phases. -/
def require (operation : String) (phases : List Phase) : Build Unit := do
  let m ← get
  if m.phase ∈ phases then pure () else throw (.phaseViolation operation m.phase)

/-- Lets the circuit grow. -/
def grow (f : Circuit → Except CircuitError Circuit) : Build Unit := do
  let m ← get
  match f m.circuit with
  | .ok circuit => set { m with circuit }
  | .error e => throw (.circuit e)

def h (qubits : List Qubit) : Build Unit := grow (·.gate .h qubits)

def cx (pairs : List (Qubit × Qubit)) : Build Unit := grow (·.gatePairs .cx pairs)

def tick : Build Unit := modify fun m => { m with circuit := m.circuit.tick }

/-- Noise on single qubits, if there is any. -/
def depolarize1 (qubits : List Qubit) : Build Unit := do
  let m ← get
  if m.p1.isPositive then grow (·.depolarize1 m.p1 qubits) else pure ()

/-- Noise on pairs, if there is any. -/
def depolarize2 (pairs : List (Qubit × Qubit)) : Build Unit := do
  let m ← get
  if m.p2.isPositive then grow (·.depolarize2 m.p2 pairs) else pure ()

/-- Resets qubits before the first round. -/
def prepare (qubits : List Qubit) : Build Unit := do
  require "initialize" [.init]
  grow (·.reset qubits)
  depolarize1 qubits

/-- Rounds are begun in the order of their numbers. -/
def beginRound (round : Nat) : Build Unit := do
  require "begin_round" [.init, .rounds]
  let m ← get
  if round = m.roundsStarted then set { m with phase := .rounds, roundsStarted := m.roundsStarted + 1 }
  else throw (.phaseViolation "begin_round" m.phase)

def beginFinalize : Build Unit := do
  require "begin_finalize" [.rounds]
  modify fun m => { m with phase := .finalizing }

/-- Refuses a qubit that is measured in the round already. -/
def requireUnmeasured (qubits : List Qubit) (round : Nat) : Build Unit := do
  let m ← get
  match qubits.find? fun q => m.ledger.has q round with
  | some q => throw (.circuit (.duplicateMeasurement q round))
  | none => pure ()

def recordOne (round : Nat) (kind : MeasurementKind) (q : Qubit) : Build Unit := do
  let m ← get
  match m.ledger.record q round kind with
  | .ok ledger => set { m with ledger }
  | .error e => throw (.circuit e)

/-- Enters the qubits in the ledger. -/
def recordAll (qubits : List Qubit) (round : Nat) (kind : MeasurementKind) : Build Unit :=
  qubits.forM (recordOne round kind)

/-- Measures qubits in one phase only, and enters the outcomes in the ledger. -/
def measuring (operation : String) (phase : Phase) (instruction : Instruction.Kind) (qubits : List Qubit) (round : Nat)
    (kind : MeasurementKind) : Build Unit := do
  require operation [phase]
  requireUnmeasured qubits round
  grow (·.append ⟨instruction, qubits, []⟩)
  recordAll qubits round kind

def measureReset (qubits : List Qubit) (round : Nat) (kind : MeasurementKind) : Build Unit :=
  measuring "measure_reset" .rounds .measureReset qubits round kind

def measure (qubits : List Qubit) (round : Nat) (kind : MeasurementKind) : Build Unit :=
  measuring "measure" .finalizing .measure qubits round kind

/-- Declares a detector over what is measured of the terms; false if that is nothing. -/
def detector (terms : List Term) : Build Bool := do
  require "detector" [.rounds, .finalizing]
  let m ← get
  match m.resolve terms with
  | [] => pure false
  | records =>
    grow (·.detector records)
    pure true

/-- Adds the terms, all of them measured, to an observable. -/
def observable (index : Nat) (terms : List Term) : Build Unit := do
  require "observable" [.finalizing]
  let m ← get
  let records := m.resolve terms
  if records.length = terms.length then grow (·.observable index records)
  else throw (.noLogicalOperator (.unmeasured index (terms.length - records.length)))

def finish : Build Experiment := do
  require "finish" [.finalizing]
  let m ← get
  pure ⟨m.circuit, m.ledger, m.roundsStarted⟩

end Build

end QuantumMemory

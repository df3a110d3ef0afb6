/-
  QuantumMemory.Code.Index — a memory under construction, kept in place.

  Circuit, ledger, phase and the number of rounds are written where they are kept, one after
  the other, and nothing takes back what is written. A call is made of such writes, of the
  circuit's own and the ledger's own, and of tests between them; what it wrote before it is
  refused stays.

  The number of rounds is a 32-bit word. After 2^32 rounds it is zero again, and the round that
  is begun next is round 0.
-/

import QuantumMemory.Circuit.Index
import QuantumMemory.Code.Layout

namespace QuantumMemory

structure IndexedMemory where
  circuit : Circuit
  ledger : IndexedLedger
  phase : Phase
  roundsStarted : UInt32
  p1 : Binary64
  p2 : Binary64

/-- A change of a memory that is kept. What it wrote stays written when it fails. -/
abbrev MemoryEdit (α : Type) := ExceptT CodeError (StateM IndexedMemory) α

namespace IndexedMemory

def start (name : String) (params : CodeParams) : IndexedMemory where
  circuit := .empty name
  ledger := .empty
  phase := .init
  roundsStarted := 0
  p1 := params.depolarize1Rate
  p2 := params.depolarize2Rate

/-- The memory by itself, with a count of its rounds. -/
def memoryAt (m : IndexedMemory) (rounds : Nat) : Memory := ⟨m.circuit, m.ledger.ledger, m.phase, rounds, m.p1, m.p2⟩

def memory (m : IndexedMemory) : Memory := m.memoryAt m.roundsStarted.toNat

/-- The result of an edit, and what it leaves. -/
def perform {α : Type} (m : IndexedMemory) (edit : MemoryEdit α) : Except CodeError α × IndexedMemory :=
  (ExceptT.run edit).run m

/-- The references to those of the outcomes that are measured. -/
def resolve (m : IndexedMemory) (terms : List Term) : List RecordOffset :=
  terms.filterMap fun (q, r) => m.ledger.lookup? q r

/-! ## Writes and tests -/

/-- Refuses an operation outside of its phases. -/
def require (operation : String) (phases : List Phase) : MemoryEdit Unit := do
  let m ← get
  if m.phase ∈ phases then pure () else throw (.phaseViolation operation m.phase)

/-- Whatever the call leaves of the circuit is kept. -/
def grow (call : Circuit.Call) : MemoryEdit Unit := do
  let m ← get
  let (result, circuit) := Edit.perform m.circuit call.edit
  set { m with circuit }
  match result with
  | .ok _ => pure ()
  | .error e => throw (.circuit e)

/-- Whatever the call leaves of the ledger is kept. -/
def recordOne (round : Nat) (kind : MeasurementKind) (q : Qubit) : MemoryEdit Unit := do
  let m ← get
  let (result, ledger) := Edit.perform m.ledger (IndexedLedger.record q round kind)
  set { m with ledger }
  match result with
  | .ok _ => pure ()
  | .error e => throw (.circuit e)

def recordAll (qubits : List Qubit) (round : Nat) (kind : MeasurementKind) : MemoryEdit Unit :=
  qubits.forM (recordOne round kind)

/-- Refuses a qubit that is measured in the round already. -/
def requireUnmeasured (qubits : List Qubit) (round : Nat) : MemoryEdit Unit := do
  let m ← get
  match qubits.find? fun q => m.ledger.has q round with
  | some q => throw (.circuit (.duplicateMeasurement q round))
  | none => pure ()

def toPhase (phase : Phase) : MemoryEdit Unit := modify fun m => { m with phase }

/-- The word wraps. -/
def countRound : MemoryEdit Unit := modify fun m => { m with roundsStarted := m.roundsStarted + 1 }

/-! ## Calls -/

def h (qubits : List Qubit) : MemoryEdit Unit := grow (.gate .h qubits)

def cx (pairs : List (Qubit × Qubit)) : MemoryEdit Unit := grow (.gatePairs .cx pairs)

def tick : MemoryEdit Unit := grow .tick

/-- Noise on single qubits, if there is any. -/
def depolarize1 (qubits : List Qubit) : MemoryEdit Unit := do
  let m ← get
  if m.p1.isPositive then grow (.depolarize1 m.p1 qubits) else pure ()

/-- Noise on pairs, if there is any. -/
def depolarize2 (pairs : List (Qubit × Qubit)) : MemoryEdit Unit := do
  let m ← get
  if m.p2.isPositive then grow (.depolarize2 m.p2 pairs) else pure ()

/-- Resets qubits before the first round. -/
def prepare (qubits : List Qubit) : MemoryEdit Unit := do
  require "initialize" [.init]
  grow (.reset qubits)
  depolarize1 qubits

/-- Rounds are begun in the order of their numbers. -/
def beginRound (round : Nat) : MemoryEdit Unit := do
  require "begin_round" [.init, .rounds]
  let m ← get
  if round = m.roundsStarted.toNat then
    toPhase .rounds
    countRound
  else throw (.phaseViolation "begin_round" m.phase)

def beginFinalize : MemoryEdit Unit := do
  require "begin_finalize" [.rounds]
  toPhase .finalizing

/-- Measures qubits in one phase only, and enters the outcomes in the ledger. -/
def measuring (operation : String) (phase : Phase) (call : List Qubit → Circuit.Call) (qubits : List Qubit) (round : Nat)
    (kind : MeasurementKind) : MemoryEdit Unit := do
  require operation [phase]
  requireUnmeasured qubits round
  grow (call qubits)
  recordAll qubits round kind

def measureReset (qubits : List Qubit) (round : Nat) (kind : MeasurementKind) : MemoryEdit Unit :=
  measuring "measure_reset" .rounds .measureReset qubits round kind

def measure (qubits : List Qubit) (round : Nat) (kind : MeasurementKind) : MemoryEdit Unit :=
  measuring "measure" .finalizing .measure qubits round kind

/-- Declares a detector over what is measured of the terms; false if that is nothing. -/
def detector (terms : List Term) : MemoryEdit Bool := do
  require "detector" [.rounds, .finalizing]
  let m ← get
  match m.resolve terms with
  | [] => pure false
  | records =>
    grow (.detector records)
    pure true

/-- Adds the terms, all of them measured, to an observable. -/
def observable (index : Nat) (terms : List Term) : MemoryEdit Unit := do
  require "observable" [.finalizing]
  let m ← get
  let records := m.resolve terms
  if records.length = terms.length then grow (.observable index records)
  else throw (.noLogicalOperator (.unmeasured index (terms.length - records.length)))

def finish : MemoryEdit Experiment := do
  require "finish" [.finalizing]
  let m ← get
  pure ⟨m.circuit, m.ledger.ledger, m.roundsStarted.toNat⟩

/-! ## A round -/

/-- One layer: its gates, their noise and a tick. -/
def appendLayer (pairs : List (Qubit × Qubit)) : MemoryEdit Unit := do
  cx pairs
  depolarize2 pairs
  tick

/-- A check's detector, unless the check is skipped. -/
def appendDetector (l : Layout) (check : Qubit) (terms : List Term) : MemoryEdit Unit := do
  if l.isSkipped check then pure () else discard (detector terms)

/-- The detectors of a round. -/
def appendDetectors (l : Layout) : Nat → MemoryEdit Unit
  | 0 => (l.checks .z).forM fun check => appendDetector l check [(check, 0)]
  | round + 1 => l.allChecks.forM fun check => appendDetector l check [(check, round), (check, round + 1)]

/-- What is the same in every round. -/
def roundBody (l : Layout) (round : Nat) : MemoryEdit Unit := do
  h (l.checks .x)
  depolarize1 (l.checks .x)
  l.layers.forM appendLayer
  depolarize1 l.idleData
  h (l.checks .x)
  depolarize1 (l.checks .x)
  depolarize1 l.allChecks
  measureReset l.allChecks round .check
  appendDetectors l round

def appendRound (l : Layout) (round : Nat) : MemoryEdit Unit := do
  beginRound round
  if round = 0 then pure () else depolarize1 l.allChecks
  roundBody l round

end IndexedMemory

end QuantumMemory

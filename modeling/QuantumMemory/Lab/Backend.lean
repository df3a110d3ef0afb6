/-
  QuantumMemory.Lab.Backend — the services that experiments are run with.

  Sampling and decoding are done elsewhere. A backend is what is asked of them: shots of a
  circuit, the circuit's error model, a decoder for that model. Every service may fail
  and may change the backend's own state.
-/

import QuantumMemory.Circuit.Basic
import QuantumMemory.Lab.Error
import QuantumMemory.Text.Blank

namespace QuantumMemory

/-- One row a shot: which detectors fired, and which observables flipped. -/
structure ShotBatch where
  events : List (List Bool)
  flips : List (List Bool)
  deriving DecidableEq

namespace ShotBatch

def shots (b : ShotBatch) : Nat := b.events.length

/-- The number of shots in which some detector fired. -/
def triggered (b : ShotBatch) : Nat := (b.events.filter fun row => row.any id).length

def expect (what : String) (expected got : Nat) : Except LabError Unit :=
  if expected = got then .ok () else .error (.shapeMismatch what expected got)

/-- As many rows as shots, and each as wide as the circuit says. -/
def checkShape (b : ShotBatch) (c : Circuit) (shots : Nat) : Except LabError Unit := do
  expect "shots with detection events" shots b.events.length
  expect "shots with observable flips" shots b.flips.length
  b.events.forM fun row => expect "detectors per shot" c.numDetectors row.length
  b.flips.forM fun row => expect "observables per shot" c.numObservables row.length

end ShotBatch

/-- The error mechanisms of a circuit, as the sampler words them. -/
structure ErrorModel where
  text : String
  deriving DecidableEq

def ErrorModel.isEmpty (m : ErrorModel) : Bool := m.text.toList.all isWhiteSpace

/-- Work with a backend whose state is a `σ`. -/
abbrev Lab (σ α : Type) := ExceptT LabError (StateM σ) α

/-- Work on the code to be tested, which may change the same state. -/
abbrev Workshop (σ α : Type) := ExceptT CodeError (StateM σ) α

/-- From detection events to predicted flips, one row a shot. -/
abbrev Decoder (σ : Type) := List (List Bool) → Lab σ (List (List Bool))

structure Backend (σ : Type) where
  sample : Circuit → Nat → Lab σ ShotBatch
  errorModel : Circuit → Lab σ ErrorModel
  decoderFor : ErrorModel → Lab σ (Decoder σ)

/-- The result of work begun in a state, and the state after it. -/
def Lab.from {σ α : Type} (state : σ) (work : Lab σ α) : Except LabError α × σ := (ExceptT.run work).run state

/-- The same, of work on a code. -/
def Workshop.from {σ α : Type} (state : σ) (work : Workshop σ α) : Except CodeError α × σ :=
  (ExceptT.run work).run state

/-- A result that no service has a part in. -/
def Lab.ofExcept {σ α : Type} (r : Except LabError α) : Lab σ α := ExceptT.mk (pure r)

/-- Work on a code, failing as the lab does. -/
def Lab.ofWorkshop {σ α : Type} (work : Workshop σ α) : Lab σ α := ExceptT.adapt .code work

/-- How many shots the decoder mispredicts. No shots are no work. -/
def countLogicalErrors {σ : Type} (backend : Backend σ) (c : Circuit) (shots : Nat) : Lab σ Nat := do
  if shots = 0 then return 0
  let batch ← backend.sample c shots
  Lab.ofExcept (batch.checkShape c shots)
  let model ← backend.errorModel c
  let decode ← backend.decoderFor model
  let predictions ← decode batch.events
  Lab.ofExcept (ShotBatch.expect "decoded shots" shots predictions.length)
  return ((predictions.zip batch.flips).filter fun (predicted, actual) => predicted ≠ actual).length

end QuantumMemory

/-
  QuantumMemory.Lab.Threshold — logical error rates over distances and physical rates.

  Each point of the grid builds a fresh code, with both rates of noise the physical one
  and a number of rounds proportional to the distance. The first step that fails ends the
  sweep. A distance that is listed twice keeps the rates of its last pass.
-/

import QuantumMemory.Lab.Backend

namespace QuantumMemory

/-- Rates by distance, ascending, in the order of the physical rates. -/
structure ThresholdStats where
  shots : Nat
  errorRates : List Binary64
  logicalErrorRates : List (Nat × List Binary64)
  deriving DecidableEq

namespace ThresholdStats

/-- Into ascending distances, in place of an entry for the same one. -/
def insertRates (d : Nat) (rates : List Binary64) : List (Nat × List Binary64) → List (Nat × List Binary64)
  | [] => [(d, rates)]
  | (e, other) :: rest =>
    if d < e then (d, rates) :: (e, other) :: rest
    else if d = e then (d, rates) :: rest
    else (e, other) :: insertRates d rates rest

def get? (s : ThresholdStats) (d : Nat) : Option (List Binary64) :=
  (s.logicalErrorRates.find? (·.1 == d)).map (·.2)

def isEmpty (s : ThresholdStats) : Bool := s.logicalErrorRates.isEmpty

end ThresholdStats

structure ThresholdLab where
  distances : List Nat
  errorRates : List Binary64
  shots : Nat
  roundsPerDistance : Nat
  deriving DecidableEq

namespace ThresholdLab

def defaultRoundsPerDistance : Nat := 3

def validate (lab : ThresholdLab) : Except LabError Unit := do
  if lab.distances.isEmpty then throw (.config .noDistances)
  if lab.shots = 0 then throw (.config .noShots)
  if lab.roundsPerDistance = 0 then throw (.config .noRoundsPerDistance)
  match lab.errorRates.find? fun p => !p.isProbability with
  | some p => throw (.config (.errorRate p))
  | none => return ()

def make (distances : List Nat) (errorRates : List Binary64) (shots : Nat) : Except LabError ThresholdLab := do
  let lab : ThresholdLab := ⟨distances, errorRates, shots, defaultRoundsPerDistance⟩
  lab.validate
  return lab

def withRoundsPerDistance (lab : ThresholdLab) (rounds : Nat) : Except LabError ThresholdLab := do
  let lab := { lab with roundsPerDistance := rounds }
  lab.validate
  return lab

/-- A code to be tested: its memory circuit for a number of rounds. -/
abbrev MemoryMaker (σ : Type) := Nat → Workshop σ Experiment

/-- Makes codes from parameters. Like the backend it may fail and may change the state. -/
abbrev Factory (σ : Type) := CodeParams → Workshop σ (MemoryMaker σ)

/-- Codes that are made and built without a state. -/
def Factory.steady {σ : Type} (make : CodeParams → Except CodeError Code) : Factory σ := fun params =>
  ExceptT.mk (pure ((make params).map fun code rounds => ExceptT.mk (pure (code.buildMemory rounds))))

/-- The number of rounds at a distance, a product of 32 bits. -/
def rounds (lab : ThresholdLab) (d : Nat) : Nat := lab.roundsPerDistance * d % 0x100000000

/-- The logical error rate at one point of the grid. -/
def rateAt {σ : Type} (lab : ThresholdLab) (factory : Factory σ) (backend : Backend σ) (d : Nat) (p : Binary64) :
    Lab σ Binary64 := do
  let params ← Lab.ofExcept ((CodeParams.checked d p p).mapError .code)
  let build ← Lab.ofWorkshop (factory params)
  let experiment ← Lab.ofWorkshop (build (lab.rounds d))
  let errors ← countLogicalErrors backend experiment.circuit lab.shots
  return Binary64.quotient errors lab.shots

/-- One pass over a distance. -/
def pass {σ : Type} (lab : ThresholdLab) (factory : Factory σ) (backend : Backend σ) (stats : ThresholdStats)
    (d : Nat) : Lab σ ThresholdStats := do
  let rates ← lab.errorRates.mapM (lab.rateAt factory backend d)
  return { stats with logicalErrorRates := ThresholdStats.insertRates d rates stats.logicalErrorRates }

def run {σ : Type} (lab : ThresholdLab) (factory : Factory σ) (backend : Backend σ) : Lab σ ThresholdStats :=
  lab.distances.foldlM (lab.pass factory backend) ⟨lab.shots, lab.errorRates, []⟩

/-- The sweep over a built-in family. -/
def runKind {σ : Type} (lab : ThresholdLab) (kind : CodeKind) (backend : Backend σ) : Lab σ ThresholdStats :=
  lab.run (.steady kind.build) backend

end ThresholdLab

end QuantumMemory

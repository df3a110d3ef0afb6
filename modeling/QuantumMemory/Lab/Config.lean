/-
  QuantumMemory.Lab.Config — experiments and sweeps as they are described in files.

  A file is read first, then its extension, in any letter case, says how it is written.
  An experiment has its code's parameters beside its other fields. It names a family or
  describes a lattice, not both; polynomials may be given for the bicycle family, and are
  passed over beside a lattice.
-/

import QuantumMemory.Document.Json
import QuantumMemory.Document.Yaml
import QuantumMemory.Family.Document
import QuantumMemory.Files.Path
import QuantumMemory.Lab.Threshold

namespace QuantumMemory

/-! ## Experiments -/

structure ExperimentConfig where
  code : Option CodeKind
  params : CodeParams
  rounds : Nat
  bicycle : Option BicycleSpec
  lattice : Option LatticeSpec
  deriving DecidableEq

namespace ExperimentConfig

def validate (c : ExperimentConfig) : Except LabError Unit := do
  c.params.validate.mapError .code
  (validateRounds c.rounds).mapError .code
  match c.code, c.lattice, c.bicycle with
  | none, none, _ => throw (.config .noCodeOrLattice)
  | some _, some _, _ => throw (.config .codeAndLattice)
  | some kind, none, some _ => if kind = .bivariateBicycle then return () else throw (.config (.bicycleFor kind))
  | _, _, _ => return ()

def selectCode (c : ExperimentConfig) : Except LabError Code :=
  match c.code, c.lattice, c.bicycle with
  | _, some spec, _ => ((spec.make c.params).map .placed).mapError .code
  | some .bivariateBicycle, none, some spec => ((Bicycle.ofSpec c.params spec).map .placed).mapError .code
  | some kind, none, _ => (kind.build c.params).mapError .code
  | none, none, _ => .error (.config .nothingSelected)

def buildCode (c : ExperimentConfig) : Except LabError Code := do
  c.validate
  c.selectCode

def toDocument (c : ExperimentConfig) : Document :=
  .record (Document.optionalField "code" CodeKind.toDocument c.code
    ++ c.params.toFields
    ++ [("rounds", .ofNat c.rounds)]
    ++ Document.optionalField "bicycle" BicycleSpec.toDocument c.bicycle
    ++ Document.optionalField "lattice" LatticeSpec.toDocument c.lattice)

/-- The fields beside the parameters. -/
def fieldNames : List String := ["code", "rounds", "bicycle", "lattice"]

/-- Inside an experiment this many levels may be nested in what is not its own. -/
def depth : Nat := 126

/-- The parameters are found among all the fields that are not the experiment's own, so
    each of those has to be readable. -/
def ofDocument? : Document → Option ExperimentConfig
  | .object all => do
    let fields ← Document.known? fieldNames all
    let others ← Document.settledFields? depth (all.filter fun (name, _) => !(name.any fieldNames.contains))
    let code ← fields.optional "code" (Document.orNull CodeKind.ofDocument?)
    let params ← CodeParams.ofDocument? (.object others)
    let rounds ← fields.defaulted "rounds" 1 (Document.natural? Document.word32)
    let bicycle ← fields.optional "bicycle" (Document.orNull BicycleSpec.ofDocument?)
    let lattice ← fields.optional "lattice" (Document.orNull LatticeSpec.ofDocument?)
    return { code, params, rounds, bicycle, lattice }
  | _ => none

end ExperimentConfig

/-! ## Sweeps -/

structure ThresholdConfig where
  code : CodeKind
  distances : List Nat
  errorRates : List Binary64
  shots : Nat
  roundsPerDistance : Nat
  deriving DecidableEq

namespace ThresholdConfig

def lab (c : ThresholdConfig) : Except LabError ThresholdLab := do
  (← ThresholdLab.make c.distances c.errorRates c.shots).withRoundsPerDistance c.roundsPerDistance

def toDocument (c : ThresholdConfig) : Document :=
  .record [
    ("code", c.code.toDocument),
    ("distances", .ofList .ofNat c.distances),
    ("error_rates", .ofList .ofBinary64 c.errorRates),
    ("shots", .ofNat c.shots),
    ("rounds_per_distance", .ofNat c.roundsPerDistance)]

def ofDocument? (d : Document) : Option ThresholdConfig := do
  let fields ← d.record? ["code", "distances", "error_rates", "shots", "rounds_per_distance"]
  let code ← fields.required "code" CodeKind.ofDocument?
  let distances ← fields.required "distances" (Document.all? (Document.natural? Document.word32))
  let errorRates ← fields.required "error_rates" (Document.all? Document.number?)
  let shots ← fields.required "shots" (Document.natural? Document.word64)
  let roundsPerDistance ← fields.defaulted "rounds_per_distance" ThresholdLab.defaultRoundsPerDistance
    (Document.natural? Document.word32)
  return { code, distances, errorRates, shots, roundsPerDistance }

end ThresholdConfig

namespace ThresholdLab

def toDocument (lab : ThresholdLab) : Document :=
  .record [
    ("distances", .ofList .ofNat lab.distances),
    ("error_rates", .ofList .ofBinary64 lab.errorRates),
    ("shots", .ofNat lab.shots),
    ("rounds_per_distance", .ofNat lab.roundsPerDistance)]

/-- Taken as it is written, without validation. -/
def ofDocument? (d : Document) : Option ThresholdLab := do
  let fields ← d.record? ["distances", "error_rates", "shots", "rounds_per_distance"]
  let distances ← fields.required "distances" (Document.all? (Document.natural? Document.word32))
  let errorRates ← fields.required "error_rates" (Document.all? Document.number?)
  let shots ← fields.required "shots" (Document.natural? Document.word64)
  let roundsPerDistance ← fields.required "rounds_per_distance" (Document.natural? Document.word32)
  return { distances, errorRates, shots, roundsPerDistance }

end ThresholdLab

namespace ThresholdStats

def toDocument (s : ThresholdStats) : Document :=
  .record [
    ("shots", .ofNat s.shots),
    ("error_rates", .ofList .ofBinary64 s.errorRates),
    ("logical_error_rates",
      .record (s.logicalErrorRates.map fun (d, rates) => (toString d, .ofList .ofBinary64 rates)))]

/-- A distance as a key: its digits, without a leading zero. -/
def distanceOfKey? (key : String) : Option Nat :=
  match key.toList with
  | '0' :: _ :: _ => none
  | '+' :: _ => none
  | cs => natOfText? Document.word32 cs

/-- Rates by distance; a distance that comes again takes the place of the one before. -/
def ratesOfFields? : List (Option String × Document) → Option (List (Nat × List Binary64))
  | fields => fields.foldlM (fun entries (name, d) => do
      let distance ← distanceOfKey? (← name)
      let rates ← d.all? Document.number?
      return insertRates distance rates entries) []

def ratesOfDocument? : Document → Option (List (Nat × List Binary64))
  | .object fields => ratesOfFields? fields
  | _ => none

def ofDocument? (d : Document) : Option ThresholdStats := do
  let fields ← d.record? ["shots", "error_rates", "logical_error_rates"]
  let shots ← fields.required "shots" (Document.natural? Document.word64)
  let errorRates ← fields.required "error_rates" (Document.all? Document.number?)
  let logicalErrorRates ← fields.required "logical_error_rates" ratesOfDocument?
  return { shots, errorRates, logicalErrorRates }

end ThresholdStats

namespace ShotBatch

def toDocument (b : ShotBatch) : Document :=
  .record [
    ("detection_events", .ofList (.ofList .bool) b.events),
    ("observable_flips", .ofList (.ofList .bool) b.flips)]

def ofDocument? (d : Document) : Option ShotBatch := do
  let fields ← d.record? ["detection_events", "observable_flips"]
  let rows (name : String) := fields.required name (Document.all? (Document.all? Document.bool?))
  return ⟨← rows "detection_events", ← rows "observable_flips"⟩

end ShotBatch

/-! ## Files -/

/-- The value that a configuration file describes. -/
def loadConfig {α : Type} (ofDocument? : Document → Option α) (path : String)
    (contents : Except FileFault String) : Except LabError α := do
  let text ← contents.mapError (.read path)
  let document ← match Path.extensionOf? path with
    | some "yaml" | some "yml" => pure (Document.Yaml.read text)
    | some "json" => pure (Document.Json.read text)
    | _ => throw (.config (.unsupportedFormat path))
  match document.bind ofDocument? with
  | some a => return a
  | none => throw (.config (.malformed path))

/-- An experiment from a file, validated. -/
def ExperimentConfig.load (path : String) (contents : Except FileFault String) :
    Except LabError ExperimentConfig := do
  let c ← loadConfig ofDocument? path contents
  c.validate
  return c

/-- A sweep from a file, validated. -/
def ThresholdConfig.load (path : String) (contents : Except FileFault String) :
    Except LabError ThresholdConfig := do
  let c ← loadConfig ofDocument? path contents
  discard c.lab
  return c

end QuantumMemory

/-
  QuantumMemory.Lab.Error — why an experiment cannot be read, built or run.
-/

import QuantumMemory.Family.Kind
import QuantumMemory.Files.Access

namespace QuantumMemory

/-- What is wrong with a configuration. -/
inductive ConfigFault
  | noDistances
  | noShots
  | noRoundsPerDistance
  | errorRate (value : Binary64)
  | noCodeOrLattice
  | codeAndLattice
  | bicycleFor (kind : CodeKind)
  | nothingSelected
  | unsupportedFormat (path : String)
  | malformed (path : String)
  deriving DecidableEq

def ConfigFault.message : ConfigFault → String
  | noDistances => "threshold sweep needs at least one distance"
  | noShots => "threshold sweep needs at least one shot"
  | noRoundsPerDistance => "rounds_per_distance must be at least 1"
  | errorRate p => s!"error rate {p} is outside [0, 1]"
  | noCodeOrLattice => "either `code` or `lattice` must be given"
  | codeAndLattice => "`code` and `lattice` are mutually exclusive"
  | bicycleFor kind => s!"`bicycle` polynomials given for a {kind.name} code"
  | nothingSelected => "no code selected"
  | unsupportedFormat path =>
    s!"{path}: unsupported configuration format (expected .yaml, .yml or .json)"
  | malformed path => s!"{path}: malformed document"

inductive LabError
  | code (error : CodeError)
  | sampler (message : String)
  | decoder (message : String)
  | shapeMismatch (what : String) (expected got : Nat)
  | config (fault : ConfigFault)
  | read (path : String) (fault : FileFault)
  deriving DecidableEq

namespace LabError

def message : LabError → String
  | code e => e.message
  | sampler m => s!"Sampler error: {m}"
  | decoder m => s!"Decoder error: {m}"
  | shapeMismatch what expected got => s!"{what}: expected {expected}, got {got}"
  | config fault => s!"Configuration error: {fault.message}"
  | read path fault => s!"Failed to read {path}: {fault.message}"

/-- The message, and after it those of the errors it wraps. -/
def chain : LabError → List String
  | code e => e.chain
  | read path fault => [(read path fault).message, fault.message]
  | e => [e.message]

end LabError

end QuantumMemory

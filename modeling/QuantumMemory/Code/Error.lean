/-
  QuantumMemory.Code.Error — why a code or its memory circuit cannot be built.

  Each case names what is at fault; `message` words it.
-/

import QuantumMemory.Circuit.Basic
import QuantumMemory.Lattice.Coordinate
import QuantumMemory.Lattice.Role

namespace QuantumMemory

/-- The distances that a family of codes has members for. -/
inductive DistanceRule
  | positive
  | repetition
  | rotatedSurface
  | bicycle
  | shor
  deriving DecidableEq

namespace DistanceRule

def family : DistanceRule → String
  | positive => "any code"
  | repetition => "repetition"
  | rotatedSurface => "rotated surface"
  | bicycle => "bivariate bicycle"
  | shor => "shor"

def reason : DistanceRule → String
  | positive => "distance must be at least 1"
  | repetition => "distance must be at least 2"
  | rotatedSurface => "distance must be odd and at least 3"
  | bicycle => "known instances have distance 6, 10, 12 or 18"
  | shor => "distance must be a multiple of 3"

end DistanceRule

/-- What is wrong with a description of a lattice or a graph. -/
inductive LatticeFault
  | component (value : Binary64)
  | periods (width height : Nat)
  | unwrappable (coordinate : Coordinate)
  | noCoordinate (check : Qubit)
  | permutation (directions : List Nat)
  | zeroOrder (check : Qubit)
  | undeclaredBasis (check : Qubit) (basis : CheckBasis)
  | step (value : Binary64)
  | isolatedCheck (coordinate : Coordinate)
  | noSite (coordinate : Coordinate) (check : Qubit)
  | groupOrders (l m : Nat)
  | repeatedMonomial (polynomial : String) (x y : Nat)
  deriving DecidableEq

/-- Items in brackets, a comma and a blank between them. -/
def bracketed (items : List String) : String := "[" ++ ", ".intercalate items ++ "]"

def LatticeFault.message : LatticeFault → String
  | component v => s!"coordinate component {v} is not a multiple of 0.5 within ±{Coordinate.limit}"
  | periods w h => s!"toroidal periods must lie in 1..=1048576, got {w}x{h}"
  | unwrappable c => s!"coordinate {c.text} cannot be wrapped"
  | noCoordinate q => s!"check q{q} has no coordinate"
  | permutation ds => s!"{bracketed (ds.map toString)} is not a permutation of 0..4"
  | zeroOrder q => s!"interaction order must be at least 1 (check q{q})"
  | undeclaredBasis q basis => s!"check q{q} has basis {basis.name} which is not declared"
  | step v => s!"step must be a positive multiple of 0.5 up to {Coordinate.limit}, got {v}"
  | isolatedCheck c => s!"check at {c.text} has no data neighbours"
  | noSite c q => s!"no data qubit at {c.text} for check q{q}"
  | groupOrders l m => s!"bicycle group orders must lie in 1..=512, got l={l} m={m}"
  | repeatedMonomial polynomial x y => s!"polynomial {polynomial} repeats the monomial x^{x} y^{y}"

/-- Why there is no logical operator. -/
inductive LogicalFault
  | unmeasured (index count : Nat)
  | onlyStabilizers
  | noDataAt (coordinate : Coordinate)
  | noneListed
  deriving DecidableEq

def LogicalFault.message : LogicalFault → String
  | unmeasured index count => s!"observable {index} references {count} unmeasured qubits"
  | onlyStabilizers => "every vector in ker(H_X) is a Z stabilizer"
  | noDataAt c => s!"no data qubit at {c.text}"
  | noneListed => "lattice spec lists no logical qubits"

/-- How far the building of a memory circuit has come. -/
inductive Phase
  | init
  | rounds
  | finalizing
  deriving DecidableEq

def Phase.name : Phase → String
  | init => "init"
  | rounds => "rounds"
  | finalizing => "finalizing"

inductive CodeError
  | invalidDistance (distance : Nat) (rule : DistanceRule)
  | invalidRate (name : String) (value : Binary64)
  | invalidRounds (rounds : Nat)
  | unsupportedCheck (qubit : Qubit) (basis : CheckBasis)
  | duplicateOrder (check : Qubit) (order : Nat)
  | duplicateEdge (check data : Qubit)
  | duplicateCoordinate (coordinate : Coordinate) (existing : Qubit)
  | unknownQubit (qubit : Qubit)
  | notACheck (qubit : Qubit)
  | notData (qubit : Qubit)
  | layerConflict (order : Nat) (qubit : Qubit)
  | invalidLattice (fault : LatticeFault)
  | noLogicalOperator (fault : LogicalFault)
  | phaseViolation (operation : String) (phase : Phase)
  | circuit (error : CircuitError)
  deriving DecidableEq

def CodeError.message : CodeError → String
  | invalidDistance d rule => s!"Invalid distance {d} for {rule.family}: {rule.reason}"
  | invalidRate name value => s!"Invalid {name} {value} (expected a value in [0, 1])"
  | invalidRounds rounds => s!"Number of rounds must be at least 1, got {rounds}"
  | unsupportedCheck q basis => s!"Unsupported check basis {basis.name} on qubit q{q}"
  | duplicateOrder q order => s!"Check q{q} already has an interaction with order {order}"
  | duplicateEdge check data => s!"Check q{check} is already connected to q{data}"
  | duplicateCoordinate c q => s!"Coordinate {c.text} is already occupied by q{q}"
  | unknownQubit q => s!"Unknown qubit q{q}"
  | notACheck q => s!"Qubit q{q} is not a check qubit"
  | notData q => s!"Qubit q{q} is not a data qubit"
  | layerConflict order q => s!"Data qubit q{q} is touched twice in interaction layer {order}"
  | invalidLattice fault => s!"Invalid lattice: {fault.message}"
  | noLogicalOperator fault => s!"No logical operator found: {fault.message}"
  | phaseViolation operation phase => s!"'{operation}' is not allowed in phase {phase.name}"
  | circuit e => s!"Circuit IR error: {e.message}"

/-- The message, and after it that of the error it wraps. -/
def CodeError.chain : CodeError → List String
  | circuit e => [(circuit e).message, e.message]
  | e => [e.message]

end QuantumMemory

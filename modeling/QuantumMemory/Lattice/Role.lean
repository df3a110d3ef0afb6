/-
  QuantumMemory.Lattice.Role — what a qubit of a code is for.
-/

namespace QuantumMemory

/-- The Pauli operator that a check measures on each of its qubits. -/
inductive CheckBasis
  | x
  | y
  | z
  deriving DecidableEq

namespace CheckBasis

def name : CheckBasis → String
  | x => "X"
  | y => "Y"
  | z => "Z"

def all : List CheckBasis := [x, y, z]

end CheckBasis

inductive Role
  | data
  | check (basis : CheckBasis)
  deriving DecidableEq

namespace Role

def isData : Role → Bool
  | data => true
  | check _ => false

def basis? : Role → Option CheckBasis
  | data => none
  | check basis => some basis

end Role

end QuantumMemory

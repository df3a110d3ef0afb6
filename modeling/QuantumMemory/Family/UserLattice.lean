/-
  QuantumMemory.Family.UserLattice — codes on a lattice that the user describes.

  A description lists the sites of data and checks, the permutations that give the
  interactions of a check their orders, and the sites whose data qubits make up the
  logical operator. A check without any data neighbour is refused.
-/

import QuantumMemory.Code.Basic
import QuantumMemory.Lattice.Builder

namespace QuantumMemory

/-- A check with, where it has one, a permutation of its own. -/
structure CheckSite where
  basis : CheckBasis
  coordinate : Coordinate
  directions : Option (List Nat)
  deriving DecidableEq

structure LatticeSpec where
  name : String
  data : List Coordinate
  checks : List CheckSite
  bases : List CheckBasis
  xDirections : List Nat
  zDirections : List Nat
  step : Binary64
  boundary : Boundary
  logical : List Coordinate
  policy : BoundaryPolicy
  deriving DecidableEq

namespace LatticeSpec

/-- A positive half-integer step, doubled. -/
def step2 (s : LatticeSpec) : Except CodeError Int :=
  match Coordinate.exactHalf? s.step with
  | some k => if 0 < k then .ok k else .error (.invalidLattice (.step s.step))
  | none => .error (.invalidLattice (.step s.step))

/-- The permutation that a check is joined by. -/
def directionsOf (s : LatticeSpec) (site : CheckSite) : List Nat :=
  site.directions.getD (match site.basis with
    | .x => s.xDirections
    | _ => s.zDirections)

def joinCheck (s : LatticeSpec) (step2 : Int) (b : LatticeBuilder) (site : CheckSite) (check : Qubit) :
    Except CodeError LatticeBuilder := do
  let (b, count) ← b.joinDiagonal check (s.directionsOf site) step2
  if count = 0 then throw (.invalidLattice (.isolatedCheck site.coordinate))
  return b

def graph (s : LatticeSpec) : Except CodeError Graph := do
  let step2 ← s.step2
  let b ← LatticeBuilder.start s.boundary
  let b ← b.addAll .data s.data
  let b ← s.checks.foldlM (fun b site => do return (← b.add (.check site.basis) site.coordinate none).1) b
  let b ← s.checks.zipIdx.foldlM (fun b (site, i) => s.joinCheck step2 b site (s.data.length + i)) b
  return b.graph

/-- The data qubit that a coordinate of the description stands for. -/
def dataAt (s : LatticeSpec) (g : Graph) (c : Coordinate) : Except CodeError Qubit :=
  match (s.boundary.wrap? c).bind g.find? with
  | some q => if g.isData q then .ok q else .error (.noLogicalOperator (.noDataAt c))
  | none => .error (.noLogicalOperator (.noDataAt c))

def make (params : CodeParams) (s : LatticeSpec) : Except CodeError PlacedCode := do
  params.validate
  let graph ← s.graph
  let layout ← Layout.ofGraph graph s.bases s.policy
  let logical ← s.logical.mapM (s.dataAt graph)
  if logical.isEmpty then throw (.noLogicalOperator .noneListed)
  return ⟨s.name, params, graph, layout, logical⟩

end LatticeSpec

end QuantumMemory

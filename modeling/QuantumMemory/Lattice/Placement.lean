/-
  QuantumMemory.Lattice.Placement — a stored graph laid out on the plane or on a torus.

  Every site goes through the boundary before the index sees it, so on a torus the index
  has one coordinate for all those a period apart. A check is joined to its diagonals one
  by one; each joint is written before the next is tried.
-/

import QuantumMemory.Lattice.Builder
import QuantumMemory.Lattice.Index

namespace QuantumMemory

structure IndexedBuilder where
  graph : IndexedGraph
  boundary : Boundary

namespace IndexedBuilder

def start (boundary : Boundary) : Except CodeError IndexedBuilder := do
  return ⟨.empty, (← LatticeBuilder.start boundary).boundary⟩

/-- The result of an edit under the boundary, and what it leaves. -/
def perform {α : Type} (b : IndexedBuilder) (edit : Boundary → GraphEdit α) : Except CodeError α × IndexedBuilder :=
  let (result, graph) := b.graph.perform (edit b.boundary)
  (result, { b with graph })

/-- The qubit a displacement away, in halves. -/
def neighbour? (b : IndexedBuilder) (c : Coordinate) (dx2 dy2 : Int) : Option Qubit := do
  let shifted ← c.shift? dx2 dy2
  b.graph.find? (← b.boundary.wrap? shifted)

/-- The qubits on the four diagonals, `step2` halves away in each component. -/
def diagonalNeighbours (b : IndexedBuilder) (c : Coordinate) (step2 : Int) : List (Option Qubit) :=
  diagonals.map fun (sx, sy) =>
    if Coordinate.inRange (sx * step2) && Coordinate.inRange (sy * step2) then
      b.neighbour? c (sx * step2) (sy * step2)
    else none

/-! ## Edits -/

def add (role : Role) (c : Coordinate) (label : Option String) (boundary : Boundary) : GraphEdit Qubit :=
  match boundary.wrap c with
  | .error e => throw e
  | .ok site => IndexedGraph.addQubit role (some site) label

def connect (check data : Qubit) (order : Nat) (_ : Boundary) : GraphEdit Unit :=
  IndexedGraph.addInteraction check data order

/-- Joins the check to the neighbour of one direction, if that is a data qubit. -/
def connectNext (check : Qubit) (neighbours : List (Option Qubit)) (count : Nat) (next : Nat × Nat) : GraphEdit Nat := do
  let g ← get
  match neighbours[next.1]? with
  | some (some data) =>
    if g.role? data == some .data then
      IndexedGraph.addInteraction check data (next.2 + 1)
      return count + 1
    else return count
  | _ => return count

/-- Joins a check to its diagonal neighbours; the number is that of the joints added. -/
def connectDiagonal (check : Qubit) (directions : List Nat) (step2 : Int) (boundary : Boundary) : GraphEdit Nat := do
  let g ← get
  match validatePermutation directions with
  | .error e => throw e
  | .ok () => match g.node? check with
    | none => throw (.unknownQubit check)
    | some entry => match entry.coordinate with
      | none => throw (.invalidLattice (.noCoordinate check))
      | some c =>
        let neighbours := diagonalNeighbours ⟨g, boundary⟩ c step2
        directions.zipIdx.foldlM (connectNext check neighbours) 0

end IndexedBuilder

/-- A call that grows a graph on a lattice. -/
inductive PlacementCall
  | add (role : Role) (c : Coordinate) (label : Option String)
  | connect (check data : Qubit) (order : Nat)
  | connectDiagonal (check : Qubit) (directions : List Nat) (step2 : Int)

/-- A new qubit has its number for an answer, diagonals how many were joined. -/
def PlacementCall.edit : PlacementCall → Boundary → GraphEdit (Option Nat)
  | add role c label, boundary => do return some (← IndexedBuilder.add role c label boundary)
  | connect check data order, boundary => do
    IndexedBuilder.connect check data order boundary
    return none
  | connectDiagonal check directions step2, boundary => do
    return some (← IndexedBuilder.connectDiagonal check directions step2 boundary)

end QuantumMemory

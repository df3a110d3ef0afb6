/-
  QuantumMemory.Lattice.Builder — graphs laid out on the plane or on a torus.

  On a torus every coordinate stands for all those a period away in either direction, and
  is kept as the one between zero and the period. `connectDiagonal` joins a check to the
  data qubits on its four diagonals: the place of a direction in the permutation gives the
  order, so a neighbour that is missing leaves its order unused. What it joined before it
  meets an error stays joined.
-/

import QuantumMemory.Lattice.Graph

namespace QuantumMemory

inductive Boundary
  | open
  | toroidal (width height : Nat)
  deriving DecidableEq

namespace Boundary

/-- The largest period. -/
def maxPeriod : Nat := 1048576

/-- The coordinate that stands for `c`. -/
def wrap? (b : Boundary) (c : Coordinate) : Option Coordinate :=
  match b with
  | .open => some c
  | .toroidal width height =>
    if width = 0 ∨ height = 0 then none
    else
      let x2 := c.x2 % (2 * width)
      let y2 := c.y2 % (2 * height)
      if Coordinate.inRange x2 && Coordinate.inRange y2 then some ⟨x2, y2⟩ else none

def wrap (b : Boundary) (c : Coordinate) : Except CodeError Coordinate :=
  match b.wrap? c with
  | some c => .ok c
  | none => .error (.invalidLattice (.unwrappable c))

end Boundary

/-- The directions to the diagonal neighbours. -/
def diagonals : List (Int × Int) := [(-1, -1), (-1, 1), (1, -1), (1, 1)]

/-- The numbers of the four directions, each once. -/
def isPermutation (directions : List Nat) : Bool :=
  directions.length == 4 && [0, 1, 2, 3].all fun d => directions.contains d

def validatePermutation (directions : List Nat) : Except CodeError Unit :=
  if isPermutation directions then .ok () else .error (.invalidLattice (.permutation directions))

structure LatticeBuilder where
  graph : Graph
  boundary : Boundary
  deriving DecidableEq

namespace LatticeBuilder

def start (boundary : Boundary) : Except CodeError LatticeBuilder :=
  match boundary with
  | .open => .ok ⟨.empty, boundary⟩
  | .toroidal w h =>
    if w = 0 ∨ h = 0 ∨ Boundary.maxPeriod < w ∨ Boundary.maxPeriod < h then
      .error (.invalidLattice (.periods w h))
    else .ok ⟨.empty, boundary⟩

def add (b : LatticeBuilder) (role : Role) (c : Coordinate) (label : Option String) :
    Except CodeError (LatticeBuilder × Qubit) := do
  let c ← b.boundary.wrap c
  let (graph, q) ← b.graph.addQubit role (some c) label
  return ({ b with graph }, q)

/-- The qubit a displacement away, in halves. -/
def neighbour? (b : LatticeBuilder) (c : Coordinate) (dx2 dy2 : Int) : Option Qubit := do
  let shifted ← c.shift? dx2 dy2
  b.graph.find? (← b.boundary.wrap? shifted)

/-- The qubits on the four diagonals, `step2` halves away in each component. -/
def diagonalNeighbours (b : LatticeBuilder) (c : Coordinate) (step2 : Int) : List (Option Qubit) :=
  diagonals.map fun (sx, sy) =>
    if Coordinate.inRange (sx * step2) && Coordinate.inRange (sy * step2) then
      b.neighbour? c (sx * step2) (sy * step2)
    else none

def connect (b : LatticeBuilder) (check data : Qubit) (order : Nat) : Except CodeError LatticeBuilder := do
  return { b with graph := ← b.graph.addInteraction check data order }

/-- Joins a check to data qubits, each with its order, as far as that goes. -/
def connectAll (b : LatticeBuilder) (check : Qubit) (count : Nat) :
    List (Nat × Qubit) → LatticeBuilder × Except CodeError Nat
  | [] => (b, .ok count)
  | (order, data) :: rest =>
    match b.connect check data order with
    | .error e => (b, .error e)
    | .ok b => connectAll b check (count + 1) rest

/-- The data qubits on a point's diagonals with the orders that the permutation gives them. -/
def diagonalPlan (b : LatticeBuilder) (c : Coordinate) (directions : List Nat) (step2 : Int) :
    List (Nat × Qubit) :=
  let neighbours := b.diagonalNeighbours c step2
  directions.zipIdx.filterMap fun (direction, position) =>
    match neighbours[direction]? with
    | some (some q) => if b.graph.isData q then some (position + 1, q) else none
    | _ => none

/-- Joins a check to its diagonal neighbours; the number is that of the interactions added. -/
def connectDiagonal (b : LatticeBuilder) (check : Qubit) (directions : List Nat) (step2 : Int) :
    LatticeBuilder × Except CodeError Nat :=
  match validatePermutation directions with
  | .error e => (b, .error e)
  | .ok () => match b.graph.node? check with
    | none => (b, .error (.unknownQubit check))
    | some node => match node.coordinate with
      | none => (b, .error (.invalidLattice (.noCoordinate check)))
      | some c => b.connectAll check 0 (b.diagonalPlan c directions step2)

/-! ## Many at once -/

/-- Adds qubits of one role, without labels. -/
def addAll (b : LatticeBuilder) (role : Role) (coordinates : List Coordinate) : Except CodeError LatticeBuilder :=
  coordinates.foldlM (fun b c => do return (← b.add role c none).1) b

/-- The number of interactions added, or why not all of them could be. -/
def joinDiagonal (b : LatticeBuilder) (check : Qubit) (directions : List Nat) (step2 : Int) :
    Except CodeError (LatticeBuilder × Nat) :=
  match b.connectDiagonal check directions step2 with
  | (b, .ok count) => .ok (b, count)
  | (_, .error e) => .error e

/-- Joins checks, all by the same permutation, to their nearest diagonals. -/
def joinAll (b : LatticeBuilder) (directions : List Nat) (checks : List Qubit) : Except CodeError LatticeBuilder :=
  checks.foldlM (fun b q => do return (← b.joinDiagonal q directions 1).1) b

end LatticeBuilder

end QuantumMemory

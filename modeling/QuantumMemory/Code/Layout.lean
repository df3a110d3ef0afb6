/-
  QuantumMemory.Code.Layout — the schedule of a round, and the memory circuit made of it.

  A layout groups the checks of a graph by basis and its interactions by order, one layer
  an order. In a layer an X check controls its data qubit and a Z check is controlled by
  it; no data qubit occurs twice. A round turns the X checks into the X basis, runs
  the layers, turns them back and measures all checks; comparing each outcome with the one before
  gives the detectors. The first round compares Z checks with the prepared state, and the
  data outcomes at the end are compared with the last round of Z checks.

  Under `skip` the checks lighter than the heaviest of their basis declare no detectors.
-/

import QuantumMemory.Code.Memory
import QuantumMemory.Lattice.Graph

namespace QuantumMemory

/-- What becomes of the detectors of light checks. -/
inductive BoundaryPolicy
  | emit
  | skip
  deriving DecidableEq

structure CheckGroup where
  basis : CheckBasis
  qubits : List Qubit
  deriving DecidableEq

structure Layout where
  allQubits : List Qubit
  data : List Qubit
  groups : List CheckGroup
  layers : List (List (Qubit × Qubit))
  idleData : List Qubit
  supports : List (Qubit × List Qubit)
  skipped : List Qubit
  deriving DecidableEq

namespace Layout

/-! ## From a graph -/

/-- What keeps a qubit from having a place in the schedule. -/
def nodeFault? (bases : List CheckBasis) (node : Node) (q : Qubit) : Option CodeError :=
  match node.role with
  | .data => none
  | .check .y => some (.unsupportedCheck q .y)
  | .check basis => if basis ∈ bases then none else some (.invalidLattice (.undeclaredBasis q basis))

/-- Into ascending numbers that do not repeat. -/
def insertOrder (n : Nat) : List Nat → List Nat
  | [] => [n]
  | m :: rest => if n < m then n :: m :: rest else if n = m then m :: rest else m :: insertOrder n rest

/-- The orders that interactions of the graph have, ascending. -/
def ordersOf (g : Graph) : List Nat := g.edges.foldl (fun orders e => insertOrder e.order orders) []

/-- Control and target of an interaction. -/
def pairOf (basis : CheckBasis) (check data : Qubit) : Qubit × Qubit :=
  match basis with
  | .x => (check, data)
  | _ => (data, check)

/-- The interactions of one order, group by group: basis, check and data. -/
def atOrder (g : Graph) (groups : List CheckGroup) (order : Nat) : List (CheckBasis × Qubit × Qubit) :=
  groups.flatMap fun group => group.qubits.filterMap fun check =>
    (g.neighbour? check order).map fun data => (group.basis, check, data)

def layerOf (g : Graph) (groups : List CheckGroup) (order : Nat) : Except CodeError (List (Qubit × Qubit)) :=
  let interactions := atOrder g groups order
  match firstRepeat? (interactions.map fun (_, _, data) => data) [] with
  | some data => .error (.layerConflict order data)
  | none => .ok (interactions.map fun (basis, check, data) => pairOf basis check data)

/-- The checks of a group that are lighter than its heaviest. -/
def lighterThanHeaviest (g : Graph) (group : CheckGroup) : List Qubit :=
  let weight (check : Qubit) := (g.support check).length
  let heaviest := group.qubits.foldl (fun n check => max n (weight check)) 0
  group.qubits.filter fun check => weight check < heaviest

def ofGraph (g : Graph) (bases : List CheckBasis) (policy : BoundaryPolicy) : Except CodeError Layout := do
  match g.nodes.toList.zipIdx.findSome? fun (node, q) => nodeFault? bases node q with
  | some e => throw e
  | none => pure ()
  let groups := bases.map fun basis => ⟨basis, g.checkQubits basis⟩
  let layers ← (ordersOf g).mapM (layerOf g groups)
  let data := g.dataQubits
  return {
    allQubits := List.range g.size
    data
    groups
    layers
    idleData := data.filter fun q => g.edges.all fun e => e.data ≠ q
    supports := (groups.flatMap (·.qubits)).map fun check => (check, g.support check)
    skipped := match policy with
      | .emit => []
      | .skip => groups.flatMap (lighterThanHeaviest g) }

/-! ## Views -/

/-- The checks of a basis. -/
def checks (l : Layout) (basis : CheckBasis) : List Qubit :=
  match l.groups.find? (·.basis == basis) with
  | some group => group.qubits
  | none => []

def allChecks (l : Layout) : List Qubit := l.groups.flatMap (·.qubits)

/-- The data qubits of a check by the order of its interactions. -/
def support (l : Layout) (check : Qubit) : List Qubit :=
  match l.supports.find? (·.1 == check) with
  | some (_, data) => data
  | none => []

def isSkipped (l : Layout) (check : Qubit) : Bool := l.skipped.contains check

/-! ## The circuit -/

/-- One layer: its gates, their noise and a tick. -/
def appendLayer (pairs : List (Qubit × Qubit)) : Build Unit := do
  Build.cx pairs
  Build.depolarize2 pairs
  Build.tick

/-- A check's detector, unless the check is skipped. -/
def appendDetector (l : Layout) (check : Qubit) (terms : List Term) : Build Unit := do
  if l.isSkipped check then pure () else discard (Build.detector terms)

/-- The detectors of a round. -/
def appendDetectors (l : Layout) : Nat → Build Unit
  | 0 => (l.checks .z).forM fun check => l.appendDetector check [(check, 0)]
  | round + 1 => l.allChecks.forM fun check => l.appendDetector check [(check, round), (check, round + 1)]

def appendRound (l : Layout) (round : Nat) : Build Unit := do
  Build.beginRound round
  if round = 0 then pure () else Build.depolarize1 l.allChecks
  Build.h (l.checks .x)
  Build.depolarize1 (l.checks .x)
  l.layers.forM appendLayer
  Build.depolarize1 l.idleData
  Build.h (l.checks .x)
  Build.depolarize1 (l.checks .x)
  Build.depolarize1 l.allChecks
  Build.measureReset l.allChecks round .check
  l.appendDetectors round

/-- Reads out the data, closes the Z checks and includes the logical operator. -/
def appendReadout (l : Layout) (rounds : Nat) (logical : List Qubit) : Build Unit := do
  Build.beginFinalize
  Build.depolarize1 l.data
  Build.measure l.data rounds .data
  (l.checks .z).forM fun check =>
    l.appendDetector check ((l.support check).map (·, rounds) ++ [(check, rounds - 1)])
  Build.observable 0 (logical.map (·, rounds))

/-- The whole memory, to the finished experiment. -/
def memory (l : Layout) (rounds : Nat) (logical : List Qubit) : Build Experiment := do
  Build.prepare l.allQubits
  (List.range rounds).forM l.appendRound
  l.appendReadout rounds logical
  Build.finish

def buildMemory (l : Layout) (name : String) (params : CodeParams) (rounds : Nat) (logical : List Qubit) :
    Except CodeError Experiment := do
  validateRounds rounds
  ((Memory.start name params).perform (l.memory rounds logical)).1

end Layout

end QuantumMemory

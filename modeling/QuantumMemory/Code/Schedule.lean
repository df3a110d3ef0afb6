/-
  QuantumMemory.Code.Schedule — a layout from a graph that is kept, order by order.

  All orders up to the largest are gone through, and at each of them the groups and their
  checks. A check with an interaction at the order adds it to the layer; a data qubit that
  the layer already has is a conflict, and ends the whole. What data qubits there have been
  is remembered, so the idle ones are known at the end. An order without interactions gives
  no layer.
-/

import QuantumMemory.Code.Layout
import QuantumMemory.Lattice.Index

namespace QuantumMemory

namespace Layout

/-- A layer that is being filled, its data qubits, and the data qubits of all layers. -/
structure Filling where
  layer : List (Qubit × Qubit)
  inLayer : List Qubit
  touched : List Qubit

def visit (g : IndexedGraph) (order : Nat) (basis : CheckBasis) (f : Filling) (check : Qubit) :
    Except CodeError Filling :=
  match g.neighbour? check order with
  | none => .ok f
  | some data =>
    if f.inLayer.contains data then .error (.layerConflict order data)
    else .ok ⟨f.layer ++ [pairOf basis check data], data :: f.inLayer, data :: f.touched⟩

def visitGroup (g : IndexedGraph) (order : Nat) (f : Filling) (group : CheckGroup) : Except CodeError Filling :=
  group.qubits.foldlM (visit g order group.basis) f

/-- The layers so far and their data qubits. -/
structure Layering where
  layers : List (List (Qubit × Qubit))
  touched : List Qubit

def visitOrder (g : IndexedGraph) (groups : List CheckGroup) (done : Layering) (order : Nat) :
    Except CodeError Layering := do
  let f ← groups.foldlM (visitGroup g order) ⟨[], [], done.touched⟩
  return ⟨if f.layer.isEmpty then done.layers else done.layers ++ [f.layer], f.touched⟩

/-- The checks of a group that have fewer data qubits than its heaviest. -/
def lighter (g : IndexedGraph) (group : CheckGroup) : List Qubit :=
  let weight (check : Qubit) := (g.support check).length
  let heaviest := group.qubits.foldl (fun n check => max n (weight check)) 0
  group.qubits.filter fun check => weight check < heaviest

def ofIndexed (g : IndexedGraph) (bases : List CheckBasis) (policy : BoundaryPolicy) : Except CodeError Layout := do
  match g.entries.findSome? fun n => nodeFault? bases ⟨n.role, n.coordinate, n.label, []⟩ n.id with
  | some e => throw e
  | none => pure ()
  let groups := bases.map fun basis => ⟨basis, g.checkQubits basis⟩
  let done ← (List.range' 1 g.maxOrder).foldlM (visitOrder g groups) ⟨[], []⟩
  return {
    allQubits := g.entries.map (·.id)
    data := g.dataQubits
    groups
    layers := done.layers
    idleData := g.dataQubits.filter fun q => !done.touched.contains q
    supports := (groups.flatMap (·.qubits)).map fun check => (check, g.support check)
    skipped := match policy with
      | .emit => []
      | .skip => groups.flatMap (lighter g) }

end Layout

end QuantumMemory

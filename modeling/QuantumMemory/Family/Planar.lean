/-
  QuantumMemory.Family.Planar — the repetition code and the rotated surface code.

  The repetition code alternates data and Z checks along a diagonal. The rotated surface
  code of distance d has d rows of d data qubits; X checks stand between them and
  along the top and bottom edges, Z checks between them and along the left and right ones.
  The orders of interaction run so that a single fault in a check spreads across the
  logical operator and not along it.
-/

import QuantumMemory.Code.Basic
import QuantumMemory.Lattice.Builder

namespace QuantumMemory

namespace Repetition

def directions : List Nat := [0, 3, 1, 2]

def dataSites (d : Nat) : List Coordinate := (List.range d).map fun (i : Nat) => ⟨2 * i, 2 * i⟩

def checkSites (d : Nat) : List Coordinate :=
  (List.range (d - 1)).map fun (i : Nat) => ⟨2 * i + 1, 2 * i + 1⟩

def graph (d : Nat) : Except CodeError Graph := do
  let b ← LatticeBuilder.start .open
  let b ← b.addAll .data (dataSites d)
  let b ← b.addAll (.check .z) (checkSites d)
  return (← b.joinAll directions (List.range' d (d - 1))).graph

def make (params : CodeParams) : Except CodeError PlacedCode := do
  params.validate
  if params.distance < 2 then throw (.invalidDistance params.distance .repetition)
  let graph ← graph params.distance
  let layout ← Layout.ofGraph graph [.z] .emit
  return ⟨"repetition", params, graph, layout, [0]⟩

end Repetition

namespace RotatedSurface

def xDirections : List Nat := [1, 3, 0, 2]
def zDirections : List Nat := [1, 0, 3, 2]

/-- Row by row. -/
def dataSites (d : Nat) : List Coordinate :=
  (List.range d).flatMap fun (row : Nat) => (List.range d).map fun (col : Nat) =>
    ⟨2 * (col + 1), 2 * (row + 1)⟩

/-- Over every row and below the last, at the even columns, half a step to the right in
    odd rows and to the left in even ones. -/
def xSites (d : Nat) : List Coordinate :=
  (List.range (d + 1)).flatMap fun (i : Nat) => (List.range ((d - 1) / 2)).map fun (k : Nat) =>
    let row : Int := i + 1
    let col : Int := 2 * (k + 1)
    ⟨if row % 2 = 1 then 2 * col + 1 else 2 * col - 1, 2 * row - 1⟩

/-- Below every row but the last, at the odd columns, half a step to the right in even
    rows and to the left in odd ones. -/
def zSites (d : Nat) : List Coordinate :=
  (List.range (d - 1)).flatMap fun (i : Nat) => (List.range ((d + 1) / 2)).map fun (k : Nat) =>
    let row : Int := i + 1
    let col : Int := 2 * k + 1
    ⟨if row % 2 = 0 then 2 * col + 1 else 2 * col - 1, 2 * row + 1⟩

def graph (d : Nat) : Except CodeError Graph := do
  let xs := xSites d
  let zs := zSites d
  let b ← LatticeBuilder.start .open
  let b ← b.addAll .data (dataSites d)
  let b ← b.addAll (.check .x) xs
  let b ← b.addAll (.check .z) zs
  let b ← b.joinAll xDirections (List.range' (d * d) xs.length)
  return (← b.joinAll zDirections (List.range' (d * d + xs.length) zs.length)).graph

/-- The diagonal of the data qubits. -/
def logical (d : Nat) : List Qubit := (List.range d).map fun i => i + i * d

def make (params : CodeParams) : Except CodeError PlacedCode := do
  params.validate
  let d := params.distance
  if d < 3 ∨ d % 2 = 0 then throw (.invalidDistance d .rotatedSurface)
  let graph ← graph d
  let layout ← Layout.ofGraph graph [.z, .x] .emit
  return ⟨"rotated-surface", params, graph, layout, logical d⟩

end RotatedSurface

end QuantumMemory

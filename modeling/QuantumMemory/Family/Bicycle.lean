/-
  QuantumMemory.Family.Bicycle — bivariate bicycle codes.

  Two polynomials A and B of three terms each, in x and y with x^l = 1 and y^m = 1, give
  the parity checks [A | B] for X and [Bᵀ | Aᵀ] for Z. On a torus of 2l by 2m the left
  half of the data stands on the even sites, the right half on the odd ones, X checks on
  odd and even, Z checks on even and odd. The logical operator is the lightest vector, in
  a basis of those that every X check meets evenly, that is no sum of Z checks.
-/

import QuantumMemory.Code.Basic
import QuantumMemory.Code.BitMatrix
import QuantumMemory.Lattice.Builder

namespace QuantumMemory

/-- A product of powers of x and y. -/
structure Monomial where
  x : Nat
  y : Nat
  deriving DecidableEq

structure BicycleSpec where
  l : Nat
  m : Nat
  a : List Monomial
  b : List Monomial
  deriving DecidableEq

namespace BicycleSpec

/-- The largest order of x and of y. -/
def maxOrder : Nat := 512

/-- The known instance of a distance. -/
def ofDistance (distance : Nat) : Except CodeError BicycleSpec :=
  let a : List Monomial := [⟨3, 0⟩, ⟨0, 1⟩, ⟨0, 2⟩]
  let b : List Monomial := [⟨0, 3⟩, ⟨1, 0⟩, ⟨2, 0⟩]
  match distance with
  | 6 => .ok ⟨6, 6, a, b⟩
  | 10 => .ok ⟨9, 6, a, b⟩
  | 12 => .ok ⟨12, 6, a, b⟩
  | 18 => .ok ⟨12, 12, [⟨3, 0⟩, ⟨0, 2⟩, ⟨0, 7⟩], b⟩
  | _ => .error (.invalidDistance distance .bicycle)

/-- The exponents as the group sees them. -/
def reduce (s : BicycleSpec) (t : Monomial) : Monomial := ⟨t.x % s.l, t.y % s.m⟩

/-- The first item that comes again. -/
def repeated? : List Monomial → Option Monomial
  | [] => none
  | t :: rest => if t ∈ rest then some t else repeated? rest

def checkTerms (s : BicycleSpec) (polynomial : String) (terms : List Monomial) : Except CodeError Unit :=
  match repeated? (terms.map s.reduce) with
  | some t => .error (.invalidLattice (.repeatedMonomial polynomial t.x t.y))
  | none => .ok ()

def validate (s : BicycleSpec) : Except CodeError Unit := do
  if s.l = 0 ∨ s.m = 0 ∨ maxOrder < s.l ∨ maxOrder < s.m then throw (.invalidLattice (.groupOrders s.l s.m))
  s.checkTerms "A" s.a
  s.checkTerms "B" s.b

def numData (s : BicycleSpec) : Nat := 2 * (s.l * s.m)

/-! ## The graph -/

/-- The group elements, row by row. -/
def elements (s : BicycleSpec) : List (Int × Int) :=
  (List.range s.l).flatMap fun (i : Nat) => (List.range s.m).map fun (j : Nat) => ((i : Int), (j : Int))

/-- An integer site of the torus. -/
def site (x y : Int) : Coordinate := ⟨2 * x, 2 * y⟩

def leftSite : Int × Int → Coordinate
  | (i, j) => site (2 * i) (2 * j)

def rightSite : Int × Int → Coordinate
  | (i, j) => site (2 * i + 1) (2 * j + 1)

def xSite : Int × Int → Coordinate
  | (i, j) => site (2 * i + 1) (2 * j)

def zSite : Int × Int → Coordinate
  | (i, j) => site (2 * i) (2 * j + 1)

def plus (s : BicycleSpec) (g : Int × Int) (t : Monomial) : Int × Int :=
  (g.1 + (s.reduce t).x, g.2 + (s.reduce t).y)

def minus (s : BicycleSpec) (g : Int × Int) (t : Monomial) : Int × Int :=
  (g.1 - (s.reduce t).x, g.2 - (s.reduce t).y)

/-- The sites an X check at `g` interacts with, in their order: left by A, right by B. -/
def xTargets (s : BicycleSpec) (g : Int × Int) : List Coordinate :=
  s.a.map (fun t => leftSite (s.plus g t)) ++ s.b.map (fun t => rightSite (s.plus g t))

/-- The sites a Z check at `g` interacts with, in their order: left by B, right by A. -/
def zTargets (s : BicycleSpec) (g : Int × Int) : List Coordinate :=
  s.b.map (fun t => leftSite (s.minus g t)) ++ s.a.map (fun t => rightSite (s.minus g t))

/-- Joins a check at `source` to the data qubit that `target` stands for. -/
def connectTo (b : LatticeBuilder) (check : Qubit) (source target : Coordinate) (order : Nat) :
    Except CodeError LatticeBuilder :=
  match b.neighbour? source (target.x2 - source.x2) (target.y2 - source.y2) with
  | some data => b.connect check data order
  | none => .error (.invalidLattice (.noSite target check))

/-- Joins a check to its targets, the first of which has the order `first`. -/
def connectTargets (b : LatticeBuilder) (check : Qubit) (source : Coordinate) (first : Nat)
    (targets : List Coordinate) : Except CodeError LatticeBuilder :=
  targets.zipIdx.foldlM (fun b (target, i) => connectTo b check source target (first + i)) b

def addLabelled (b : LatticeBuilder) (label : String) (sites : List Coordinate) : Except CodeError LatticeBuilder :=
  sites.foldlM (fun b c => do return (← b.add .data c (some label)).1) b

def graph (s : BicycleSpec) : Except CodeError Graph := do
  let gs := s.elements
  let b ← LatticeBuilder.start (.toroidal (2 * s.l) (2 * s.m))
  let b ← addLabelled b "L" (gs.map leftSite)
  let b ← addLabelled b "R" (gs.map rightSite)
  let b ← b.addAll (.check .x) (gs.map xSite)
  let b ← b.addAll (.check .z) (gs.map zSite)
  let n := gs.length
  let b ← gs.zipIdx.foldlM (fun b (g, i) => connectTargets b (2 * n + i) (xSite g) 1 (s.xTargets g)) b
  let b ← gs.zipIdx.foldlM (fun b (g, i) => connectTargets b (3 * n + i) (zSite g) 7 (s.zTargets g)) b
  return b.graph

end BicycleSpec

namespace Bicycle

/-- The supports of the checks of a basis, by columns for data qubits. -/
def parityChecks (g : Graph) (basis : CheckBasis) : List (List Nat) :=
  let data := g.dataQubits
  (g.checkQubits basis).map fun check => (g.support check).filterMap fun q => data.findIdx? (· == q)

theorem parityChecks_lt (g : Graph) (basis : CheckBasis) :
    ∀ s ∈ parityChecks g basis, ∀ c ∈ s, c < g.dataQubits.length := by
  intro s hs c hc
  obtain ⟨check, -, rfl⟩ := List.mem_map.mp hs
  obtain ⟨q, -, hfound⟩ := List.mem_filterMap.mp hc
  exact (List.findIdx?_eq_some_iff_getElem.mp hfound).1

/-- The parity checks of a basis as rows, all of which can be stored. -/
def parityMatrix (g : Graph) (basis : CheckBasis) : BitMatrix :=
  (BitMatrix.ofSupports? g.dataQubits.length (parityChecks g basis)).get
    (BitMatrix.isSome_ofSupports? (parityChecks_lt g basis))

theorem parityMatrix_cols (g : Graph) (basis : CheckBasis) : (parityMatrix g basis).cols = g.dataQubits.length :=
  BitMatrix.cols_of_ofSupports? (Option.some_get _).symm

/-- The qubits of the columns that are found, if any are. -/
def logicalOf (data : List Qubit) : Option (List Nat) → Except CodeError (List Qubit)
  | some columns => .ok (columns.filterMap (data[·]?))
  | none => .error (.noLogicalOperator .onlyStabilizers)

/-- The lightest logical operator that the search finds. -/
def findLogical (g : Graph) : Except CodeError (List Qubit) :=
  logicalOf g.dataQubits ((BitMatrix.minWeightLogical? (parityMatrix g .x) (parityMatrix g .z)).get
    (BitMatrix.isSome_minWeightLogical? ((parityMatrix_cols g .x).trans (parityMatrix_cols g .z).symm)))

def ofSpec (params : CodeParams) (spec : BicycleSpec) : Except CodeError PlacedCode := do
  params.validate
  spec.validate
  let graph ← spec.graph
  let layout ← Layout.ofGraph graph [.z, .x] .emit
  let logical ← findLogical graph
  return ⟨"bivariate-bicycle", params, graph, layout, logical⟩

def make (params : CodeParams) : Except CodeError PlacedCode := do
  params.validate
  ofSpec params (← BicycleSpec.ofDistance params.distance)

end Bicycle

end QuantumMemory

/-
  QuantumMemory.Family.Document — parameters and descriptions of codes as documents.

  Rates that are not given are zero, and what a lattice description leaves out has a value
  of its own: a name, both bases with Z first, the permutation that takes directions as
  they come, a step of one half, an open boundary, and detectors for all checks.
-/

import QuantumMemory.Circuit.Document
import QuantumMemory.Family.Kind
import QuantumMemory.Family.UserLattice
import QuantumMemory.Lattice.Document

namespace QuantumMemory

namespace CodeKind

def toDocument (k : CodeKind) : Document := .ofString k.name

def ofDocument? (d : Document) : Option CodeKind := d.word? ofName?

end CodeKind

namespace BoundaryPolicy

def name : BoundaryPolicy → String
  | emit => "emit"
  | skip => "skip"

def ofName? (s : String) : Option BoundaryPolicy := [emit, skip].find? fun p => p.name = s

def toDocument (p : BoundaryPolicy) : Document := .ofString p.name

def ofDocument? (d : Document) : Option BoundaryPolicy := d.word? ofName?

end BoundaryPolicy

namespace CodeParams

def fieldNames : List String := ["distance", "depolarize1_rate", "depolarize2_rate"]

def toFields (p : CodeParams) : List (String × Document) := [
  ("distance", .ofNat p.distance),
  ("depolarize1_rate", .ofBinary64 p.depolarize1Rate),
  ("depolarize2_rate", .ofBinary64 p.depolarize2Rate)]

def toDocument (p : CodeParams) : Document := .record p.toFields

def ofFields? (fields : Document.Fields) : Option CodeParams := do
  let distance ← fields.required "distance" (Document.natural? Document.word32)
  let p1 ← fields.defaulted "depolarize1_rate" .zero Document.number?
  let p2 ← fields.defaulted "depolarize2_rate" .zero Document.number?
  return ⟨distance, p1, p2⟩

def ofDocument? (d : Document) : Option CodeParams := do ofFields? (← d.record? fieldNames)

end CodeParams

namespace Monomial

def toDocument (t : Monomial) : Document := .record [("x", .ofNat t.x), ("y", .ofNat t.y)]

def ofDocument? (d : Document) : Option Monomial := do
  let fields ← d.record? ["x", "y"]
  let power (name : String) := fields.required name (Document.natural? Document.word32)
  return ⟨← power "x", ← power "y"⟩

end Monomial

/-- A list of a fixed number of items. -/
def Document.exactly? {α : Type} (count : Nat) (read : Document → Option α) (d : Document) : Option (List α) :=
  (d.all? read).filter fun items => items.length = count

namespace BicycleSpec

def toDocument (s : BicycleSpec) : Document :=
  .record [
    ("l", .ofNat s.l),
    ("m", .ofNat s.m),
    ("a", .ofList Monomial.toDocument s.a),
    ("b", .ofList Monomial.toDocument s.b)]

def ofDocument? (d : Document) : Option BicycleSpec := do
  let fields ← d.record? ["l", "m", "a", "b"]
  let order (name : String) := fields.required name (Document.natural? Document.word32)
  let terms (name : String) := fields.required name (Document.exactly? 3 Monomial.ofDocument?)
  return ⟨← order "l", ← order "m", ← terms "a", ← terms "b"⟩

end BicycleSpec

/-- Four directions, which need not be a permutation. -/
def directionsOfDocument? (d : Document) : Option (List Nat) :=
  d.exactly? 4 (Document.natural? Document.word64)

def directionsToDocument (directions : List Nat) : Document := .ofList .ofNat directions

namespace CheckSite

def toDocument (s : CheckSite) : Document :=
  .record ([("basis", s.basis.toDocument), ("coord", s.coordinate.toDocument)]
    ++ Document.optionalField "permutation" directionsToDocument s.directions)

def ofDocument? (d : Document) : Option CheckSite := do
  let fields ← d.record? ["basis", "coord", "permutation"]
  let basis ← fields.required "basis" CheckBasis.ofDocument?
  let coordinate ← fields.required "coord" Coordinate.ofDocument?
  let directions ← fields.optional "permutation" (Document.orNull directionsOfDocument?)
  return ⟨basis, coordinate, directions⟩

end CheckSite

namespace LatticeSpec

def fieldNames : List String := [
  "name", "data", "checks", "check_bases", "x_permutation", "z_permutation", "step", "boundary",
  "logical", "boundary_policy"]

def toDocument (s : LatticeSpec) : Document :=
  .record [
    ("name", .ofString s.name),
    ("data", .ofList Coordinate.toDocument s.data),
    ("checks", .ofList CheckSite.toDocument s.checks),
    ("check_bases", .ofList CheckBasis.toDocument s.bases),
    ("x_permutation", directionsToDocument s.xDirections),
    ("z_permutation", directionsToDocument s.zDirections),
    ("step", .ofBinary64 s.step),
    ("boundary", s.boundary.toDocument),
    ("logical", .ofList Coordinate.toDocument s.logical),
    ("boundary_policy", s.policy.toDocument)]

/-- The step when none is given, one half. -/
def defaultStep : Binary64 := .ofRatio false 1 2

def ofDocument? (d : Document) : Option LatticeSpec := do
  let fields ← d.record? fieldNames
  let name ← fields.defaulted "name" "lattice" Document.string?
  let data ← fields.required "data" (Document.all? Coordinate.ofDocument?)
  let checks ← fields.required "checks" (Document.all? CheckSite.ofDocument?)
  let bases ← fields.defaulted "check_bases" [.z, .x] (Document.all? CheckBasis.ofDocument?)
  let xDirections ← fields.defaulted "x_permutation" [0, 1, 2, 3] directionsOfDocument?
  let zDirections ← fields.defaulted "z_permutation" [0, 1, 2, 3] directionsOfDocument?
  let step ← fields.defaulted "step" defaultStep Document.number?
  let boundary ← fields.defaulted "boundary" .open Boundary.ofDocument?
  let logical ← fields.required "logical" (Document.all? Coordinate.ofDocument?)
  let policy ← fields.defaulted "boundary_policy" .emit BoundaryPolicy.ofDocument?
  return { name, data, checks, bases, xDirections, zDirections, step, boundary, logical, policy }

end LatticeSpec

def Experiment.toDocument (e : Experiment) : Document :=
  .record [
    ("circuit", e.circuit.toDocument),
    ("ledger", e.ledger.toDocument),
    ("rounds", .ofNat e.rounds)]

end QuantumMemory

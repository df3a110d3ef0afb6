/-
  QuantumMemory.Lattice.Document — coordinates, graphs and boundaries as documents.

  A coordinate is the list of its two components. A boundary is an object whose `kind`
  names it, or a list that begins with its kind; it is taken apart before its
  kind is known, so all of its parts have to be readable.
-/

import QuantumMemory.Document.Read
import QuantumMemory.Lattice.Builder

namespace QuantumMemory

namespace Coordinate

def toDocument (c : Coordinate) : Document := .list [.ofBinary64 c.x, .ofBinary64 c.y]

def ofDocument? (d : Document) : Option Coordinate := do
  match ← d.all? Document.number? with
  | [x, y] => (exact x y).toOption
  | _ => none

end Coordinate

namespace CheckBasis

def ofName? (s : String) : Option CheckBasis := all.find? fun b => b.name = s

def toDocument (b : CheckBasis) : Document := .ofString b.name

def ofDocument? (d : Document) : Option CheckBasis := d.word? ofName?

end CheckBasis

namespace Role

def toDocument : Role → Document
  | data => .ofString "data"
  | check basis => .record [("check", basis.toDocument)]

def ofDocument? (d : Document) : Option Role :=
  match d.tag? with
  | some ("data", .null) => some .data
  | some ("check", d) => (CheckBasis.ofDocument? d).map .check
  | _ => none

end Role

namespace Node

/-- The node with its number, without its interactions. -/
def toDocument (n : Node) (id : Qubit) : Document :=
  .record ([("id", .ofNat id), ("role", n.role.toDocument)]
    ++ Document.optionalField "coord" Coordinate.toDocument n.coordinate
    ++ Document.optionalField "label" .ofString n.label)

def ofDocument? (d : Document) : Option (Node × Qubit) := do
  let fields ← d.wholeRecord? ["id", "role", "coord", "label"]
  let id ← fields.required "id" (Document.natural? Document.word32)
  let role ← fields.required "role" Role.ofDocument?
  let coordinate ← fields.optional "coord" (Document.orNull Coordinate.ofDocument?)
  let label ← fields.optional "label" (Document.orNull Document.string?)
  return (⟨role, coordinate, label, []⟩, id)

end Node

namespace Edge

def toDocument (e : Edge) : Document :=
  .record [("check", .ofNat e.check), ("data", .ofNat e.data), ("order", .ofNat e.order)]

def ofDocument? (d : Document) : Option Edge := do
  let fields ← d.record? ["check", "data", "order"]
  let count (name : String) := fields.required name (Document.natural? Document.word32)
  return ⟨← count "check", ← count "data", ← count "order"⟩

end Edge

namespace Graph

/-- How many checks of each basis there are, of those that there are. -/
def checkCounts (g : Graph) : List (CheckBasis × Nat) :=
  (CheckBasis.all.map fun b => (b, (g.checkQubits b).length)).filter fun (_, n) => n ≠ 0

/-- Everything about the graph, with its sizes first. -/
def summary (g : Graph) : Document :=
  .record [
    ("num_qubits", .ofNat g.size),
    ("num_data", .ofNat g.dataQubits.length),
    ("num_checks", .record (g.checkCounts.map fun (b, n) => (b.name, .ofNat n))),
    ("num_interactions", .ofNat g.numInteractions),
    ("max_order", .ofNat g.maxOrder),
    ("max_check_weight", .ofNat g.maxCheckWeight),
    ("nodes", .ofList (fun (n, q) => n.toDocument q) g.nodes.toList.zipIdx),
    ("edges", .ofList Edge.toDocument g.edges)]

end Graph

namespace Boundary

def toDocument : Boundary → Document
  | .open => .record [("kind", .ofString "open")]
  | .toroidal width height =>
    .record [("kind", .ofString "toroidal"), ("width", .ofNat width), ("height", .ofNat height)]

/-- The boundary of a kind, from what stands beside it. -/
def ofKind? (kind : String) (rest : Document) : Option Boundary :=
  match kind, rest with
  | "open", .object _ | "open", .list [] => some .open
  | "toroidal", rest => do
    let fields ← rest.record? ["width", "height"]
    let count (name : String) := fields.required name (Document.natural? Document.word32)
    return .toroidal (← count "width") (← count "height")
  | _, _ => none

/-- Inside a boundary this many levels may be nested. -/
def depth : Nat := 125

def ofDocument? : Document → Option Boundary
  | .object fields => do
    let kind ← (← Document.known? ["kind"] fields).required "kind" Document.string?
    let rest ← Document.settledFields? depth (fields.filter fun (name, _) => name ≠ some "kind")
    ofKind? kind (.object rest)
  | .list (kind :: rest) => do
    ofKind? (← kind.string?) (.list (← Document.settledItems? depth rest))
  | _ => none

end Boundary

end QuantumMemory

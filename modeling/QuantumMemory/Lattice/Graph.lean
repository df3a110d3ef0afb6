/-
  QuantumMemory.Lattice.Graph — qubits and the interactions between checks and data.

  Qubits are numbered in the order they are added. An interaction joins a check to a data
  qubit and has an order, the time layer it happens in. A check keeps its interactions by
  ascending order; no two have the same order or the same data qubit, and no two qubits
  the same coordinate. So a graph has one form, whatever order its interactions
  were added in, and the interactions of all checks in turn are sorted by check and order.
-/

import QuantumMemory.Code.Error

namespace QuantumMemory

/-- One interaction of a check. -/
structure Link where
  order : Nat
  data : Qubit
  deriving DecidableEq

structure Node where
  role : Role
  coordinate : Option Coordinate
  label : Option String
  links : List Link
  deriving DecidableEq

structure Edge where
  check : Qubit
  data : Qubit
  order : Nat
  deriving DecidableEq

structure Graph where
  nodes : Array Node
  deriving DecidableEq

namespace Graph

def empty : Graph := ⟨#[]⟩

def size (g : Graph) : Nat := g.nodes.size

def node? (g : Graph) (q : Qubit) : Option Node := g.nodes[q]?

def role? (g : Graph) (q : Qubit) : Option Role := (g.node? q).map (·.role)

def isData (g : Graph) (q : Qubit) : Bool := (g.role? q).any Role.isData

def find? (g : Graph) (c : Coordinate) : Option Qubit := g.nodes.findIdx? (·.coordinate == some c)

/-! ## Building -/

def addQubit (g : Graph) (role : Role) (coordinate : Option Coordinate) (label : Option String) :
    Except CodeError (Graph × Qubit) :=
  match coordinate.bind fun c => (g.find? c).map fun q => (c, q) with
  | some (c, q) => .error (.duplicateCoordinate c q)
  | none => .ok (⟨g.nodes.push ⟨role, coordinate, label, []⟩⟩, g.size)

/-- Among links by ascending order. -/
def insertLink (link : Link) : List Link → List Link
  | [] => [link]
  | other :: rest => if link.order < other.order then link :: other :: rest else other :: insertLink link rest

/-- The first of a check's interactions that a new one would repeat. -/
def clash? (check : Qubit) (link : Link) (links : List Link) : Option CodeError :=
  links.findSome? fun other =>
    if other.data = link.data then some (.duplicateEdge check link.data)
    else if other.order = link.order then some (.duplicateOrder check link.order)
    else none

def addInteraction (g : Graph) (check data : Qubit) (order : Nat) : Except CodeError Graph :=
  match g.node? check with
  | none => .error (.unknownQubit check)
  | some node =>
    if node.role.isData then .error (.notACheck check)
    else match g.role? data with
      | none => .error (.unknownQubit data)
      | some role =>
        if !role.isData then .error (.notData data)
        else if order = 0 then .error (.invalidLattice (.zeroOrder check))
        else match clash? check ⟨order, data⟩ node.links with
          | some e => .error e
          | none => .ok ⟨g.nodes.modify check fun n => { n with links := insertLink ⟨order, data⟩ n.links }⟩

/-! ## Views -/

/-- The numbers of the qubits that `p` holds of. -/
def qubitsWhere (g : Graph) (p : Node → Bool) : List Qubit :=
  g.nodes.toList.zipIdx.filterMap fun (n, q) => if p n then some q else none

def dataQubits (g : Graph) : List Qubit := g.qubitsWhere (·.role.isData)

def checkQubits (g : Graph) (basis : CheckBasis) : List Qubit := g.qubitsWhere (·.role == .check basis)

/-- All interactions, by check and then by order. -/
def edges (g : Graph) : List Edge :=
  g.nodes.toList.zipIdx.flatMap fun (n, q) => n.links.map fun l => ⟨q, l.data, l.order⟩

/-- Sorted by order and then by the other qubit. -/
def insertInteraction (i : Nat × Qubit) : List (Nat × Qubit) → List (Nat × Qubit)
  | [] => [i]
  | j :: rest =>
    if i.1 < j.1 ∨ (i.1 = j.1 ∧ i.2 ≤ j.2) then i :: j :: rest else j :: insertInteraction i rest

/-- The interactions of a qubit, each with the qubit at the other end. -/
def interactions (g : Graph) (q : Qubit) : List (Nat × Qubit) :=
  match g.node? q with
  | none => []
  | some node =>
    if node.role.isData then
      ((g.edges.filter (·.data == q)).map fun e => (e.order, e.check)).foldr insertInteraction []
    else node.links.map fun l => (l.order, l.data)

def support (g : Graph) (q : Qubit) : List Qubit := (g.interactions q).map (·.2)

def neighbour? (g : Graph) (q : Qubit) (order : Nat) : Option Qubit :=
  ((g.interactions q).find? (·.1 == order)).map (·.2)

def maxOrder (g : Graph) : Nat := g.edges.foldl (fun n e => max n e.order) 0

def numInteractions (g : Graph) : Nat := g.edges.length

/-- The largest number of interactions of a check. -/
def maxCheckWeight (g : Graph) : Nat := g.nodes.foldl (fun n node => max n node.links.length) 0

end Graph

end QuantumMemory

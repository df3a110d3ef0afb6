/-
  QuantumMemory.Lattice.Index — a graph kept in place, with an index of its coordinates.

  Qubits and joints stand in the order they were added, each qubit with its number. A joint
  has two ends and no direction: which of them is the check is told by their roles. The
  index has the qubit on a coordinate, so nothing is searched for one. A call is refused
  before it writes anything.

  The views sort: the interactions of a qubit by order, the edges by check and order. Two
  graphs are equal if their qubits and their sorted edges are, in whatever order the joints
  were added.
-/

import QuantumMemory.Lattice.Graph

namespace QuantumMemory

structure QubitEntry where
  id : Qubit
  role : Role
  coordinate : Option Coordinate
  label : Option String
  deriving DecidableEq

structure Joint where
  first : Qubit
  second : Qubit
  order : Nat
  deriving DecidableEq

/-- The end that is not the given one. -/
def Joint.across? (j : Joint) (q : Qubit) : Option Qubit :=
  if j.first = q then some j.second else if j.second = q then some j.first else none

structure IndexedGraph where
  entries : List QubitEntry
  joints : List Joint
  index : Coordinate → Option Qubit

namespace IndexedGraph

def empty : IndexedGraph := ⟨[], [], fun _ => none⟩

/-! ## Views -/

def size (g : IndexedGraph) : Nat := g.entries.length

def numInteractions (g : IndexedGraph) : Nat := g.joints.length

def node? (g : IndexedGraph) (q : Qubit) : Option QubitEntry := g.entries[q]?

def role? (g : IndexedGraph) (q : Qubit) : Option Role := (g.node? q).map (·.role)

def isCheck (g : IndexedGraph) (q : Qubit) : Bool := (g.role? q).any fun role => !role.isData

def find? (g : IndexedGraph) (c : Coordinate) : Option Qubit := g.index c

/-- The interactions of a qubit, each with the qubit at the other end. -/
def interactions (g : IndexedGraph) (q : Qubit) : List (Nat × Qubit) :=
  match g.node? q with
  | none => []
  | some _ => (g.joints.filterMap fun j => (j.across? q).map (j.order, ·)).foldr Graph.insertInteraction []

def support (g : IndexedGraph) (q : Qubit) : List Qubit := (g.interactions q).map (·.2)

def neighbour? (g : IndexedGraph) (q : Qubit) (order : Nat) : Option Qubit :=
  ((g.interactions q).find? (·.1 == order)).map (·.2)

/-- A joint with its ends told apart. -/
def edgeOf (g : IndexedGraph) (j : Joint) : Edge :=
  if g.isCheck j.first then ⟨j.first, j.second, j.order⟩ else ⟨j.second, j.first, j.order⟩

/-- Sorted by check and then by order. -/
def insertEdge (e : Edge) : List Edge → List Edge
  | [] => [e]
  | other :: rest =>
    if e.check < other.check ∨ (e.check = other.check ∧ e.order ≤ other.order) then e :: other :: rest
    else other :: insertEdge e rest

def edges (g : IndexedGraph) : List Edge := (g.joints.map g.edgeOf).foldr insertEdge []

instance : BEq IndexedGraph := ⟨fun g g' => g.entries == g'.entries && g.edges == g'.edges⟩

def qubitsWhere (g : IndexedGraph) (p : Role → Bool) : List Qubit := (g.entries.filter (p ·.role)).map (·.id)

def dataQubits (g : IndexedGraph) : List Qubit := g.qubitsWhere Role.isData

def checkQubits (g : IndexedGraph) (basis : CheckBasis) : List Qubit := g.qubitsWhere (· == .check basis)

def maxOrder (g : IndexedGraph) : Nat := g.joints.foldl (fun n j => max n j.order) 0

def links (g : IndexedGraph) (q : Qubit) : List Link := (g.interactions q).map fun (order, data) => ⟨order, data⟩

/-- The graph by itself: every check with its interactions. -/
def graph (g : IndexedGraph) : Graph :=
  ⟨(g.entries.map fun n =>
    ⟨n.role, n.coordinate, n.label, if n.role.isData then [] else g.links n.id⟩).toArray⟩

end IndexedGraph

/-! ## Building in place -/

/-- A change of a graph that is kept. What it wrote stays written when it fails. -/
abbrev GraphEdit (α : Type) := ExceptT CodeError (StateM IndexedGraph) α

namespace IndexedGraph

/-- The result of an edit, and what it leaves. -/
def perform {α : Type} (g : IndexedGraph) (edit : GraphEdit α) : Except CodeError α × IndexedGraph :=
  (ExceptT.run edit).run g

def push (entry : QubitEntry) : GraphEdit Unit := modify fun g => { g with entries := g.entries ++ [entry] }

/-- Has the index give the qubit for the coordinate. -/
def point (coordinate : Coordinate) (q : Qubit) : GraphEdit Unit :=
  modify fun g => { g with index := fun c => if c = coordinate then some q else g.index c }

def join (j : Joint) : GraphEdit Unit := modify fun g => { g with joints := g.joints ++ [j] }

def addQubit (role : Role) (coordinate : Option Coordinate) (label : Option String) : GraphEdit Qubit := do
  let g ← get
  match coordinate.bind fun c => (g.index c).map fun q => (c, q) with
  | some (c, q) => throw (.duplicateCoordinate c q)
  | none =>
    push ⟨g.size, role, coordinate, label⟩
    coordinate.forM fun c => point c g.size
    return g.size

/-- Whether there can be such an interaction beside those that there are. -/
def allow (g : IndexedGraph) (check data : Qubit) (order : Nat) : Except CodeError Unit :=
  match g.role? check with
  | none => .error (.unknownQubit check)
  | some role =>
    if role.isData then .error (.notACheck check)
    else match g.role? data with
      | none => .error (.unknownQubit data)
      | some role =>
        if !role.isData then .error (.notData data)
        else if order = 0 then .error (.invalidLattice (.zeroOrder check))
        else match Graph.clash? check ⟨order, data⟩ (g.links check) with
          | some e => .error e
          | none => .ok ()

def addInteraction (check data : Qubit) (order : Nat) : GraphEdit Unit := do
  let g ← get
  match g.allow check data order with
  | .error e => throw e
  | .ok () => join ⟨check, data, order⟩

end IndexedGraph

/-- A call that grows a graph. -/
inductive GraphCall
  | addQubit (role : Role) (coordinate : Option Coordinate) (label : Option String)
  | addInteraction (check data : Qubit) (order : Nat)

/-- Only a new qubit has an answer, its number. -/
def GraphCall.edit : GraphCall → GraphEdit (Option Qubit)
  | addQubit role coordinate label => do return some (← IndexedGraph.addQubit role coordinate label)
  | addInteraction check data order => do
    IndexedGraph.addInteraction check data order
    return none

end QuantumMemory

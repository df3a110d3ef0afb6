/-
  QuantumMemory.Proofs.Graph.Relocation — a graph with its qubits put elsewhere.

  A qubit keeps its number, its role, its label and its links wherever it is put, so nothing
  that a schedule is made of changes (`Layout.ofGraph_relocate`). An interaction is added to
  both graphs or to neither (`addInteraction_relocate`). Look-ups follow the qubits as long
  as no two of the coordinates asked about become one (`find?_relocate`).
-/

import QuantumMemory.Proofs.Graph.Canonical

namespace QuantumMemory

/-- The node on another coordinate. -/
def Node.relocate (f : Coordinate → Coordinate) (n : Node) : Node := { n with coordinate := n.coordinate.map f }

namespace Graph

/-- The graph with every coordinate changed. -/
def relocate (f : Coordinate → Coordinate) (g : Graph) : Graph := ⟨g.nodes.map (Node.relocate f)⟩

variable (f : Coordinate → Coordinate) (g : Graph)

/-! ## Views -/

theorem node?_relocate (q : Qubit) : (g.relocate f).node? q = (g.node? q).map (Node.relocate f) := Array.getElem?_map

theorem size_relocate : (g.relocate f).size = g.size := Array.size_map

theorem role?_relocate (q : Qubit) : (g.relocate f).role? q = g.role? q := by
  rw [role?, node?_relocate, Option.map_map]
  rfl

theorem isData_relocate (q : Qubit) : (g.relocate f).isData q = g.isData q := by rw [isData, role?_relocate, isData]

/-- The numbered nodes, as every view goes through them. -/
theorem zipIdx_relocate :
    (g.relocate f).nodes.toList.zipIdx = g.nodes.toList.zipIdx.map (Prod.map (Node.relocate f) id) := by
  rw [relocate, Array.toList_map, List.zipIdx_map]

theorem qubitsWhere_relocate {p : Node → Bool} (hp : ∀ n, p (n.relocate f) = p n) :
    (g.relocate f).qubitsWhere p = g.qubitsWhere p := by
  rw [qubitsWhere, zipIdx_relocate, List.filterMap_map]
  refine List.filterMap_congr fun entry _ => ?_
  simp only [Function.comp_apply, Prod.map_fst, Prod.map_snd, hp, id_eq]

/-- The first node that is at fault, if faults do not lie in coordinates. -/
theorem findSome?_relocate {fault? : Node × Nat → Option CodeError}
    (hfault : ∀ n q, fault? (n.relocate f, q) = fault? (n, q)) :
    (g.relocate f).nodes.toList.zipIdx.findSome? fault? = g.nodes.toList.zipIdx.findSome? fault? := by
  rw [zipIdx_relocate, List.findSome?_map]
  exact congrArg (List.findSome? · _) (funext fun entry => hfault entry.1 entry.2)

theorem dataQubits_relocate : (g.relocate f).dataQubits = g.dataQubits := qubitsWhere_relocate f g fun _ => rfl

theorem checkQubits_relocate (basis : CheckBasis) : (g.relocate f).checkQubits basis = g.checkQubits basis :=
  qubitsWhere_relocate f g fun _ => rfl

theorem edges_relocate : (g.relocate f).edges = g.edges := by
  rw [edges, zipIdx_relocate, List.flatMap_map]
  rfl

theorem interactions_relocate (q : Qubit) : (g.relocate f).interactions q = g.interactions q := by
  rw [interactions, node?_relocate, edges_relocate, interactions]
  cases g.node? q <;> rfl

theorem support_relocate (q : Qubit) : (g.relocate f).support q = g.support q := by
  rw [support, interactions_relocate, support]

theorem neighbour?_relocate (q : Qubit) (order : Nat) : (g.relocate f).neighbour? q order = g.neighbour? q order := by
  rw [neighbour?, interactions_relocate, neighbour?]

variable {f g}

/-- A look-up follows the qubits, if no other coordinate comes to be where the one asked for
    does. -/
theorem find?_relocate {c : Coordinate} (h : ∀ q n c', g.node? q = some n → n.coordinate = some c' → f c' = f c → c' = c) :
    (g.relocate f).find? (f c) = g.find? c := by
  have hsame : ∀ (i : Nat) (hi : i < g.nodes.size),
      ((g.nodes[i].relocate f).coordinate == some (f c)) = (g.nodes[i].coordinate == some c) := by
    intro i hi
    rw [Bool.eq_iff_iff, beq_iff_eq, beq_iff_eq, Node.relocate, Option.map_eq_some_iff]
    constructor
    · rintro ⟨c', hc', hfc⟩
      rw [hc', h i _ c' (Array.getElem?_eq_getElem hi) hc' hfc]
    · exact fun hc => ⟨c, hc, rfl⟩
  cases hfind : g.find? c with
  | none =>
    refine Array.findIdx?_eq_none_iff.mpr fun n hn => ?_
    obtain ⟨i, hi, rfl⟩ := Array.mem_iff_getElem.mp hn
    have hi' : i < g.nodes.size := by rwa [relocate, Array.size_map] at hi
    simp only [relocate, Array.getElem_map, hsame i hi']
    exact Array.findIdx?_eq_none_iff.mp hfind _ (Array.getElem_mem hi')
  | some q =>
    obtain ⟨hq, hfirst, hbefore⟩ := Array.findIdx?_eq_some_iff_getElem.mp hfind
    refine Array.findIdx?_eq_some_iff_getElem.mpr ⟨by rwa [relocate, Array.size_map], ?_, fun j hj => ?_⟩
    · simp only [relocate, Array.getElem_map, hsame q hq, hfirst]
    · simp only [relocate, Array.getElem_map, hsame j (Nat.lt_trans hj hq)]
      exact hbefore j hj

/-- Coordinates that stay where they are leave the graph as it is. -/
theorem relocate_eq (h : ∀ q n c, g.node? q = some n → n.coordinate = some c → f c = c) : g.relocate f = g := by
  refine ext_node? fun q => ?_
  rw [node?_relocate]
  cases hn : g.node? q with
  | none => rfl
  | some n =>
    have hsame : n.coordinate.map f = n.coordinate := by
      cases hc : n.coordinate with
      | none => rfl
      | some c => rw [Option.map_some, h q n c hn hc]
    rw [Option.map_some, Node.relocate, hsame]

/-! ## Adding -/

/-- A qubit is added to both, under one number, or it is refused for one qubit in its place. -/
theorem addQubit_relocate_cases {c : Coordinate}
    (h : ∀ q n c', g.node? q = some n → n.coordinate = some c' → f c' = f c → c' = c) (role : Role) (label : Option String) :
    (∃ g', g.addQubit role (some c) label = .ok (g', g.size) ∧
      (g.relocate f).addQubit role (some (f c)) label = .ok (g'.relocate f, g.size)) ∨
    ∃ q, g.addQubit role (some c) label = .error (.duplicateCoordinate c q) ∧
      (g.relocate f).addQubit role (some (f c)) label = .error (.duplicateCoordinate (f c) q) := by
  rw [addQubit, addQubit, Option.bind_some, Option.bind_some, find?_relocate h, size_relocate]
  cases g.find? c with
  | some q => exact .inr ⟨q, rfl, rfl⟩
  | none =>
    have hpush : relocate f ⟨g.nodes.push ⟨role, some c, label, []⟩⟩ =
        ⟨(g.relocate f).nodes.push ⟨role, some (f c), label, []⟩⟩ := by
      rw [relocate, relocate, Array.map_push]
      rfl
    exact .inl ⟨_, rfl, by rw [hpush]; rfl⟩

theorem addInteraction_relocate (check data : Qubit) (order : Nat) :
    (g.relocate f).addInteraction check data order = (g.addInteraction check data order).map (relocate f) := by
  have hadded : (⟨(g.relocate f).nodes.modify check fun n => { n with links := insertLink ⟨order, data⟩ n.links }⟩ : Graph) =
      relocate f ⟨g.nodes.modify check fun n => { n with links := insertLink ⟨order, data⟩ n.links }⟩ := by
    refine ext_node? fun q => ?_
    rw [node?_modify, node?_relocate, node?_relocate, node?_modify]
    split
    · cases g.node? q <;> rfl
    · rfl
  rw [addInteraction, addInteraction, node?_relocate, role?_relocate]
  cases g.node? check with
  | none => rfl
  | some node =>
    simp only [Option.map_some, Node.relocate]
    split
    · rfl
    cases g.role? data with
    | none => rfl
    | some role =>
      simp only
      split
      · rfl
      split
      · rfl
      cases clash? check ⟨order, data⟩ node.links with
      | some e => rfl
      | none => exact congrArg Except.ok hadded

end Graph

/-! ## The schedule -/

/-- A schedule does not see where qubits are. -/
theorem Layout.ofGraph_relocate (f : Coordinate → Coordinate) (g : Graph) (bases : List CheckBasis)
    (policy : BoundaryPolicy) : ofGraph (g.relocate f) bases policy = ofGraph g bases policy := by
  have hlayers : layerOf (g.relocate f) = layerOf g := by
    funext groups order
    simp only [layerOf, atOrder, Graph.neighbour?_relocate]
  have hlighter : lighterThanHeaviest (g.relocate f) = lighterThanHeaviest g := by
    funext group
    simp only [lighterThanHeaviest, Graph.support_relocate]
  rw [ofGraph, ofGraph, Graph.findSome?_relocate f g fun _ _ => rfl]
  simp only [hlayers, hlighter, ordersOf, Graph.edges_relocate, Graph.checkQubits_relocate,
    Graph.dataQubits_relocate, Graph.size_relocate, Graph.support_relocate]

end QuantumMemory

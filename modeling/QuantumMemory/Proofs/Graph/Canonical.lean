/-
  QuantumMemory.Proofs.Graph.Canonical — a graph kept in place is the graph by itself, stored
  as it was added.

  In the graph by itself the links of a check ascend, so it has one form whatever came
  first: two stored graphs are equal if their graphs by themselves are one
  (`Agrees.graph_eq_iff`). A call has one outcome on both (`Agrees.graph_addQubit`,
  `Agrees.graph_addInteraction`), so what calls make is all the graphs there are
  (`grown_graph`, `Graph.built_iff_grown`), and both show the same (`Agrees.edges_graph`,
  `Agrees.interactions_graph`, `Agrees.qubitsWhere_graph`).
-/

import QuantumMemory.Proofs.Graph.Index

namespace QuantumMemory

/-- The graph after a call, as it was if the call is refused. -/
def Graph.after (g : Graph) : GraphCall → Graph
  | .addQubit role coordinate label =>
    match g.addQubit role coordinate label with
    | .ok (g', _) => g'
    | .error _ => g
  | .addInteraction check data order =>
    match g.addInteraction check data order with
    | .ok g' => g'
    | .error _ => g

theorem Graph.ext_node? {g g' : Graph} (h : ∀ q, g.node? q = g'.node? q) : g = g' := by
  cases g
  cases g'
  exact congrArg Graph.mk (Array.ext_getElem? h)

/-- Ascending links are known from which there are. -/
theorem Graph.links_eq_of_mem {ls ls' : List Link} (h : ls.Pairwise (·.order < ·.order))
    (h' : ls'.Pairwise (·.order < ·.order)) (hmem : ∀ l, l ∈ ls ↔ l ∈ ls') : ls = ls' := by
  have hnodup : ls.Nodup := h.imp fun hlt he => Nat.ne_of_lt hlt (congrArg Link.order he)
  have hnodup' : ls'.Nodup := h'.imp fun hlt he => Nat.ne_of_lt hlt (congrArg Link.order he)
  have hperm : ls.Perm ls' := (List.perm_ext_iff_of_nodup hnodup hnodup').mpr hmem
  exact hperm.eq_of_pairwise (fun _ _ _ _ hlt hgt => absurd hgt (Nat.lt_asymm hlt)) h h'

namespace IndexedGraph

variable {g g' : IndexedGraph}

/-! ## The graph of a stored graph -/

/-- A qubit as the graph by itself has it. -/
def nodeOf (g : IndexedGraph) (n : QubitEntry) : Node :=
  ⟨n.role, n.coordinate, n.label, if n.role.isData then [] else g.links n.id⟩

theorem node?_graph (g : IndexedGraph) (q : Qubit) : g.graph.node? q = (g.node? q).map g.nodeOf := by
  rw [graph, Graph.node?, List.getElem?_toArray, List.getElem?_map]
  rfl

theorem role?_graph (g : IndexedGraph) (q : Qubit) : g.graph.role? q = g.role? q := by
  rw [Graph.role?, node?_graph, Option.map_map]
  rfl

theorem size_graph (g : IndexedGraph) : g.graph.size = g.size := by
  rw [graph, Graph.size, List.size_toArray, List.length_map, size]

theorem isData_graph (g : IndexedGraph) (q : Qubit) : g.graph.isData q = true ↔ g.role? q = some .data := by
  rw [Graph.isData, role?_graph]
  rcases g.role? q with _ | _ | b <;> simp [Role.isData]

namespace Agrees

variable (h : g.Agrees)

include h

theorem id_eq {q : Qubit} {n : QubitEntry} (hn : g.node? q = some n) : n.id = q := by
  have hplace : (g.entries.map (·.id))[q]? = some n.id := by rw [List.getElem?_map, ← node?, hn, Option.map_some]
  rw [h.numbered, List.getElem?_range (lt_size hn)] at hplace
  exact (Option.some.inj hplace).symm

theorem links_ascend {q : Qubit} (hq : g.role? q ≠ some .data) : (g.links q).Pairwise (·.order < ·.order) := by
  rw [h.links_check hq]
  exact List.pairwise_map.mpr (h.orders_ascend q)

theorem links_graph {q : Qubit} (hq : g.role? q ≠ some .data) : g.graph.links q = g.links q := by
  rw [Graph.links, node?_graph]
  cases hn : g.node? q with
  | none =>
    rw [links, interactions, hn]
    rfl
  | some n =>
    have hrole : n.role.isData = false := by
      rw [role?, hn] at hq
      cases hr : n.role with
      | data => exact absurd (congrArg some hr) hq
      | check b => rfl
    rw [Option.map_some, Option.map_some, Option.getD_some, nodeOf, hrole, h.id_eq hn]
    rfl

omit h in
theorem links_graph_data {q : Qubit} (hq : g.role? q = some .data) : g.graph.links q = [] := by
  obtain ⟨n, hn, hr⟩ := Option.map_eq_some_iff.mp hq
  rw [Graph.links, node?_graph, hn, Option.map_some, Option.map_some, Option.getD_some, nodeOf, hr]
  rfl

theorem find?_graph (c : Coordinate) : g.graph.find? c = g.find? c := by
  cases hfind : g.graph.find? c with
  | some q =>
    obtain ⟨n, hn, hc⟩ := Graph.find?_some hfind
    rw [node?_graph] at hn
    obtain ⟨entry, hentry, rfl⟩ := Option.map_eq_some_iff.mp hn
    exact ((h.indexed c q).mpr ⟨entry, hentry, hc⟩).symm
  | none =>
    cases hindex : g.find? c with
    | none => rfl
    | some q =>
      obtain ⟨n, hn, hc⟩ := (h.indexed c q).mp hindex
      have hnode : g.graph.node? q = some (g.nodeOf n) := by rw [node?_graph, hn, Option.map_some]
      exact absurd hc (Graph.find?_none hfind q _ hnode)

/-! ## Calls on both -/

/-- What a new joint changes of the links: those of its check. -/
theorem links_withJoint {check data : Qubit} {order : Nat} (hallow : g.allow check data order = .ok ()) {q : Qubit}
    (hq : g.role? q ≠ some .data) :
    (g.withJoint ⟨check, data, order⟩).links q =
      if check = q then Graph.insertLink ⟨order, data⟩ (g.links q) else g.links q := by
  have hjoint := h.withJoint hallow
  have hmem : ∀ l, l ∈ (g.withJoint ⟨check, data, order⟩).links q ↔
      l ∈ g.links q ∨ (check = q ∧ l = ⟨order, data⟩) := by
    intro l
    rw [hjoint.mem_links hq, h.mem_links hq, hjoint.edges_perm.mem_iff, h.edges_perm.mem_iff]
    show _ ∈ (g.joints ++ [_]).map Joint.edge ↔ _
    rw [List.map_append, List.mem_append, List.map_singleton, List.mem_singleton]
    refine or_congr Iff.rfl ⟨fun he => ?_, fun ⟨hcheck, hl⟩ => ?_⟩
    · obtain ⟨rfl, hdata, horder⟩ := Edge.mk.inj he
      exact ⟨rfl, by cases l; cases hdata; cases horder; rfl⟩
    · rw [hl, ← hcheck]
      rfl
  by_cases hcheck : check = q
  · obtain ⟨-, -, -, hnew⟩ := allow_iff.mp hallow
    have hascend : (Graph.insertLink ⟨order, data⟩ (g.links q)).Pairwise (·.order < ·.order) :=
      Graph.insertLink_ascends (h.links_ascend hq) fun l hl => (hnew l (hcheck ▸ hl)).2
    rw [if_pos hcheck]
    refine Graph.links_eq_of_mem (hjoint.links_ascend hq) hascend fun l => ?_
    rw [hmem, Graph.mem_insertLink, or_comm, and_iff_right hcheck]
  · rw [if_neg hcheck]
    refine Graph.links_eq_of_mem (hjoint.links_ascend hq) (h.links_ascend hq) fun l => ?_
    rw [hmem, or_iff_left fun hboth => hcheck hboth.1]

theorem graph_withJoint {check data : Qubit} {order : Nat} (hallow : g.allow check data order = .ok ()) :
    (g.withJoint ⟨check, data, order⟩).graph =
      ⟨g.graph.nodes.modify check fun n => { n with links := Graph.insertLink ⟨order, data⟩ n.links }⟩ := by
  refine Graph.ext_node? fun q => ?_
  rw [Graph.node?_modify, node?_graph, node?_graph]
  show (g.node? q).map _ = _
  cases hn : g.node? q with
  | none => simp
  | some n =>
    have hrole : g.role? q = some n.role := by rw [role?, hn, Option.map_some]
    rw [Option.map_some, Option.map_some, Option.map_some, nodeOf, nodeOf, h.id_eq hn]
    cases hr : n.role with
    | data =>
      obtain ⟨⟨b, hcheck⟩, -⟩ := allow_iff.mp hallow
      have hne : check ≠ q := fun hsame => not_data_of_check hcheck (hsame ▸ hr ▸ hrole)
      rw [if_neg hne]
      rfl
    | check b =>
      have hnotData : g.role? q ≠ some .data := not_data_of_check (hr ▸ hrole)
      simp only [Role.isData, Bool.false_eq_true, if_false]
      rw [h.links_withJoint hallow hnotData]
      split <;> rfl

theorem interactions_withQubit (role : Role) (coordinate : Option Coordinate) (label : Option String) (q : Qubit) :
    (g.withQubit role coordinate label).interactions q = g.interactions q := by
  unfold interactions
  rw [node?_withQubit]
  by_cases hq : q = g.size
  · -- The new qubit is at the end of no joint: the ends of joints had roles before.
    have hnone : g.node? q = none := List.getElem?_eq_none (Nat.le_of_eq hq.symm)
    have hrole : g.role? q = none := by rw [role?, hnone, Option.map_none]
    have hjoints : (g.joints.filterMap fun j => (j.across? q).map (j.order, ·)) = [] := by
      rw [h.across_check (by rw [hrole]; exact (Option.some_ne_none _).symm), List.map_eq_nil_iff,
        List.filter_eq_nil_iff]
      intro e he hcheck
      obtain ⟨j, hj, rfl⟩ := List.mem_map.mp he
      obtain ⟨⟨b, hb⟩, -⟩ := h.ends j hj
      rw [show j.first = q from beq_iff_eq.mp hcheck, hrole] at hb
      cases hb
    rw [if_pos hq, hnone]
    show (g.joints.filterMap _).foldr _ [] = []
    rw [hjoints]
    rfl
  · rw [if_neg hq]
    rfl

theorem graph_withQubit (role : Role) (coordinate : Option Coordinate) (label : Option String) :
    (g.withQubit role coordinate label).graph = ⟨g.graph.nodes.push ⟨role, coordinate, label, []⟩⟩ := by
  have hnode : (g.withQubit role coordinate label).nodeOf = g.nodeOf := by
    funext n
    rw [nodeOf, nodeOf, links, links, h.interactions_withQubit]
  refine Graph.ext_node? fun q => ?_
  rw [Graph.node?_push, node?_graph, node?_graph, node?_withQubit, size_graph, hnode]
  by_cases hq : q = g.size
  · have hnone : g.node? g.size = none := List.getElem?_eq_none (Nat.le_refl _)
    rw [if_pos hq, if_pos hq, Option.map_some, nodeOf, links, interactions, hnone]
    show some (Node.mk role coordinate label (if role.isData then [] else [])) = _
    rw [ite_self]
  · rw [if_neg hq, if_neg hq]

/-- A qubit is added to both or to neither, under one number or for one reason. -/
theorem graph_addQubit (role : Role) (coordinate : Option Coordinate) (label : Option String) :
    g.graph.addQubit role coordinate label =
      match perform g (addQubit role coordinate label) with
      | (.ok q, g') => .ok (g'.graph, q)
      | (.error e, _) => .error e := by
  rcases perform_addQubit_cases g role coordinate label with ⟨hfree, hdone⟩ | ⟨c, q, rfl, hc, hdone⟩
  · rw [hdone, Graph.addQubit_fresh role label fun c hc => (h.find?_graph c).trans (hfree c hc), size_graph,
      ← h.graph_withQubit]
  · have hfind : g.graph.find? c = some q := (h.find?_graph c).trans hc
    rw [hdone, Graph.addQubit, Option.bind_some, hfind, Option.map_some]

theorem graph_addInteraction (check data : Qubit) (order : Nat) :
    g.graph.addInteraction check data order =
      match perform g (addInteraction check data order) with
      | (.ok _, g') => .ok g'.graph
      | (.error e, _) => .error e := by
  have hsame : g.graph.addInteraction check data order =
      (g.allow check data order).map fun _ =>
        ⟨g.graph.nodes.modify check fun n => { n with links := Graph.insertLink ⟨order, data⟩ n.links }⟩ := by
    have hrole : g.role? check = (g.node? check).map (·.role) := rfl
    unfold Graph.addInteraction allow
    rw [node?_graph, role?_graph, hrole]
    cases hcheck : g.node? check with
    | none => rfl
    | some n =>
      simp only [Option.map_some, nodeOf, h.id_eq hcheck]
      cases hr : n.role with
      | data => rfl
      | check b =>
        simp only [Role.isData, Bool.false_eq_true, if_false]
        cases g.role? data with
        | none => rfl
        | some role =>
          cases role with
          | check b' => rfl
          | data =>
            simp only [Bool.not_true, Bool.false_eq_true, if_false]
            by_cases hzero : order = 0
            · rw [if_pos hzero, if_pos hzero]
              rfl
            · rw [if_neg hzero, if_neg hzero]
              cases Graph.clash? check ⟨order, data⟩ (g.links check) <;> rfl
  rcases perform_addInteraction_cases g check data order with ⟨hallow, hdone⟩ | ⟨e, hrefused, hdone⟩
  · rw [hdone, hsame, hallow]
    exact congrArg Except.ok (h.graph_withJoint hallow).symm
  · rw [hdone, hsame, hrefused]
    rfl

theorem graph_after (call : GraphCall) : (perform g call.edit).2.graph = g.graph.after call := by
  cases call with
  | addQubit role coordinate label =>
    rw [Graph.after, h.graph_addQubit, GraphCall.edit, perform_bind_eq]
    rcases perform_addQubit_cases g role coordinate label with ⟨-, hdone⟩ | ⟨c, q, -, -, hdone⟩
    · rw [hdone]
      rfl
    · rw [hdone]
  | addInteraction check data order =>
    rw [Graph.after, h.graph_addInteraction, GraphCall.edit, perform_bind_eq]
    rcases perform_addInteraction_cases g check data order with ⟨-, hdone⟩ | ⟨e, -, hdone⟩
    · rw [hdone]
      rfl
    · rw [hdone]

/-! ## Views of both -/

theorem node?_of_mem {n : QubitEntry} (hn : n ∈ g.entries) : g.node? n.id = some n := by
  obtain ⟨q, hq⟩ := List.mem_iff_getElem?.mp hn
  rw [h.id_eq hq]
  exact hq

theorem qubitsWhere_graph (p : Role → Bool) : g.graph.qubitsWhere (p ·.role) = g.qubitsWhere p := by
  have hids : g.entries.Pairwise (·.id < ·.id) :=
    List.pairwise_map.mp (h.numbered ▸ List.pairwise_lt_range)
  have hascend : (g.qubitsWhere p).Pairwise (· < ·) := List.pairwise_map.mpr (hids.filter _)
  refine (Graph.qubitsWhere_ascend _).eq_of_mem_iff hascend fun q => ?_
  rw [Graph.mem_qubitsWhere, qubitsWhere, List.mem_map, node?_graph]
  constructor
  · rintro ⟨node, hnode, hp⟩
    obtain ⟨n, hn, rfl⟩ := Option.map_eq_some_iff.mp hnode
    exact ⟨n, List.mem_filter.mpr ⟨List.mem_of_getElem? hn, hp⟩, h.id_eq hn⟩
  · rintro ⟨n, hn, rfl⟩
    obtain ⟨hmem, hp⟩ := List.mem_filter.mp hn
    exact ⟨g.nodeOf n, by rw [h.node?_of_mem hmem, Option.map_some], hp⟩

theorem edges_graph_iff {e : Edge} : e ∈ g.graph.edges ↔ e ∈ g.edges := by
  rw [Graph.mem_edges]
  by_cases hdata : g.role? e.check = some .data
  · rw [links_graph_data hdata]
    constructor
    · intro hmem
      cases hmem
    · intro hmem
      obtain ⟨⟨b, hb⟩, -⟩ := h.edge_ends hmem
      exact absurd hdata (not_data_of_check hb)
  · rw [h.links_graph hdata, h.mem_links hdata]

theorem edges_graph : g.graph.edges = g.edges := by
  have hlinks : ∀ q n, g.graph.node? q = some n → n.links.Pairwise (·.order < ·.order) := by
    intro q node hnode
    rw [node?_graph] at hnode
    obtain ⟨n, hn, rfl⟩ := Option.map_eq_some_iff.mp hnode
    rw [nodeOf, h.id_eq hn]
    cases hr : n.role with
    | data => exact .nil
    | check b =>
      have hcheck : g.role? q = some (.check b) := by rw [role?, hn, Option.map_some, hr]
      exact h.links_ascend (not_data_of_check hcheck)
  exact (Graph.edges_ascend_of_links hlinks).eq_of_mem_iff h.edges_ascend fun e => h.edges_graph_iff

theorem interactions_graph (q : Qubit) : g.graph.interactions q = g.interactions q := by
  by_cases hdata : g.role? q = some .data
  · obtain ⟨n, hn, hr⟩ := Option.map_eq_some_iff.mp hdata
    rw [h.interactions_data hdata, ← h.edges_graph, Graph.interactions, node?_graph, hn, Option.map_some]
    exact if_pos (by rw [nodeOf, hr, Role.isData])
  · rw [Graph.interactions_check (Bool.eq_false_iff.mpr (mt (isData_graph g q).mp hdata)), h.links_graph hdata, links,
      List.map_map]
    exact List.map_id _

theorem support_graph (q : Qubit) : g.graph.support q = g.support q := by
  rw [Graph.support, h.interactions_graph, support]

theorem neighbour?_graph (q : Qubit) (order : Nat) : g.graph.neighbour? q order = g.neighbour? q order := by
  rw [Graph.neighbour?, h.interactions_graph, neighbour?]

theorem maxOrder_graph : g.graph.maxOrder = g.maxOrder := by
  have hjoints : g.maxOrder = (g.joints.map Joint.edge).foldl (fun n e => max n e.order) 0 := by
    rw [List.foldl_map]
    rfl
  rw [hjoints, Graph.maxOrder, h.edges_graph]
  refine h.edges_perm.foldl_eq' (fun e _ e' _ n => ?_) 0
  rw [Nat.max_assoc, Nat.max_comm e.order, ← Nat.max_assoc]

/-- The same qubits and the same edges, in whatever order the joints came. -/
theorem graph_eq_iff (h' : g'.Agrees) : g.graph = g'.graph ↔ (g == g') = true := by
  have hbeq : (g == g') = true ↔ g.entries = g'.entries ∧ g.edges = g'.edges := by
    show (g.entries == g'.entries && g.edges == g'.edges) = true ↔ _
    rw [Bool.and_eq_true, beq_iff_eq, beq_iff_eq]
  rw [hbeq]
  constructor
  · intro he
    constructor
    · refine List.ext_getElem? fun q => ?_
      have hnode : (g.node? q).map g.nodeOf = (g'.node? q).map g'.nodeOf := by
        rw [← node?_graph, ← node?_graph, he]
      show g.node? q = g'.node? q
      cases hn : g.node? q with
      | none =>
        rw [hn] at hnode
        exact (Option.map_eq_none_iff.mp hnode.symm).symm
      | some n =>
        rw [hn] at hnode
        obtain ⟨n', hn', hsame⟩ := Option.map_eq_some_iff.mp hnode.symm
        obtain ⟨hrole, hcoordinate, hlabel, -⟩ := Node.mk.inj hsame
        have hid : n'.id = n.id := (h'.id_eq hn').trans (h.id_eq hn).symm
        rw [hn']
        cases n
        cases n'
        simp only at hrole hcoordinate hlabel hid
        rw [hid, hrole, hcoordinate, hlabel]
    · rw [← h.edges_graph, ← h'.edges_graph, he]
  · rintro ⟨hentries, hedges⟩
    have hentry : ∀ q, g.node? q = g'.node? q := fun q => congrArg (·[q]?) hentries
    refine Graph.ext_node? fun q => ?_
    rw [node?_graph, node?_graph, hentry]
    cases hn : g'.node? q with
    | none => rfl
    | some n =>
      have hrole : g.role? q = g'.role? q := congrArg _ (hentry q)
      rw [Option.map_some, Option.map_some, nodeOf, nodeOf]
      cases hr : n.role with
      | data => rfl
      | check b =>
        have hcheck : g'.role? q = some (.check b) := by rw [role?, hn, Option.map_some, hr]
        have hdata := not_data_of_check hcheck
        rw [h'.id_eq hn, h.links_check (hrole ▸ hdata), h'.links_check hdata, hedges]

end Agrees

/-- Any calls, refused ones among them, make of the empty graph by itself what they make of a
    stored one. -/
theorem grown_graph (calls : List GraphCall) : (empty.grown calls).graph = calls.foldl Graph.after Graph.empty := by
  have hruns : ∀ g : IndexedGraph, g.Agrees → (g.grown calls).graph = calls.foldl Graph.after g.graph := by
    induction calls with
    | nil => exact fun _ _ => rfl
    | cons call rest ih =>
      intro g h
      rw [List.foldl_cons, ← h.graph_after call]
      exact ih _ (h.call call)
  exact hruns empty agrees_empty

end IndexedGraph

namespace Graph

theorem Built.after {g : Graph} (h : g.Built) (call : GraphCall) : (g.after call).Built := by
  cases call with
  | addQubit role coordinate label =>
    rw [Graph.after]
    cases hadd : g.addQubit role coordinate label with
    | ok added => exact h.addQubit hadd
    | error e => exact h
  | addInteraction check data order =>
    rw [Graph.after]
    cases hadd : g.addInteraction check data order with
    | ok g' => exact h.addInteraction hadd
    | error e => exact h

/-- The graphs that there are, are what calls make. -/
theorem built_iff_grown {g : Graph} : g.Built ↔ ∃ calls, (IndexedGraph.empty.grown calls).graph = g := by
  constructor
  · intro h
    induction h with
    | empty => exact ⟨[], rfl⟩
    | @addQubit g g' role coordinate label q _ hadd ih =>
      obtain ⟨calls, rfl⟩ := ih
      refine ⟨calls ++ [.addQubit role coordinate label], ?_⟩
      rw [IndexedGraph.grown_graph] at hadd ⊢
      rw [List.foldl_append, List.foldl_cons, List.foldl_nil, Graph.after, hadd]
    | @addInteraction g g' check data order _ hadd ih =>
      obtain ⟨calls, rfl⟩ := ih
      refine ⟨calls ++ [.addInteraction check data order], ?_⟩
      rw [IndexedGraph.grown_graph] at hadd ⊢
      rw [List.foldl_append, List.foldl_cons, List.foldl_nil, Graph.after, hadd]
  · rintro ⟨calls, rfl⟩
    rw [IndexedGraph.grown_graph]
    exact List.foldlRecOn calls _ .empty fun _ h call _ => h.after call

end Graph

end QuantumMemory

/-
  QuantumMemory.Proofs.Graph.Scan — going through the orders gives the layout of the graph.

  What visiting interactions makes of a layer is known at once from their data qubits
  (`Filling.filled`), however they are spread over groups and checks (`visitGroups_eq`). An
  order that no edge has gives nothing, so only those that edges have are left
  (`layers_of_range`).

  Main result: `ofIndexed_eq`. The layers, the conflict that ends them and the idle data are
  those of the layout that has one layer for each order of an edge.
-/

import QuantumMemory.Code.Schedule
import QuantumMemory.Proofs.Graph.Canonical
import QuantumMemory.Proofs.Graph.Layout

namespace QuantumMemory

namespace Layout

variable {g : IndexedGraph} {groups : List CheckGroup}

/-! ## One order -/

/-- What further interactions make of a layer: basis, check and data of each. -/
def Filling.filled (f : Filling) (order : Nat) (is : List (CheckBasis × Qubit × Qubit)) : Except CodeError Filling :=
  match firstRepeat? (is.map (·.2.2)) f.inLayer with
  | some data => .error (.layerConflict order data)
  | none =>
    .ok ⟨f.layer ++ is.map fun (basis, check, data) => pairOf basis check data, (is.map (·.2.2)).reverse ++ f.inLayer,
      (is.map (·.2.2)).reverse ++ f.touched⟩

theorem filled_nil (f : Filling) (order : Nat) : f.filled order [] = .ok f := by
  rw [Filling.filled]
  show Except.ok (⟨f.layer ++ [], f.inLayer, f.touched⟩ : Filling) = _
  rw [List.append_nil]

theorem filled_cons (f : Filling) (order : Nat) (i : CheckBasis × Qubit × Qubit) (is : List (CheckBasis × Qubit × Qubit)) :
    f.filled order (i :: is) =
      if i.2.2 ∈ f.inLayer then .error (.layerConflict order i.2.2)
      else Filling.filled ⟨f.layer ++ [pairOf i.1 i.2.1 i.2.2], i.2.2 :: f.inLayer, i.2.2 :: f.touched⟩ order is := by
  simp only [Filling.filled, List.map_cons, firstRepeat?, List.reverse_cons, List.append_assoc, List.singleton_append]
  by_cases hmem : i.2.2 ∈ f.inLayer
  · rw [if_pos hmem, if_pos hmem]
  · rw [if_neg hmem, if_neg hmem]

theorem filled_append (f : Filling) (order : Nat) (is js : List (CheckBasis × Qubit × Qubit)) :
    f.filled order (is ++ js) = f.filled order is >>= fun f' => f'.filled order js := by
  induction is generalizing f with
  | nil =>
    rw [filled_nil]
    rfl
  | cons i rest ih =>
    rw [List.cons_append, filled_cons, filled_cons]
    split
    · rfl
    · exact ih _

/-- Steps that each visit some interactions visit all of them in turn. -/
theorem foldlM_filled {α : Type} {order : Nat} {step : Filling → α → Except CodeError Filling}
    {view : α → List (CheckBasis × Qubit × Qubit)} {xs : List α}
    (hstep : ∀ x ∈ xs, ∀ f, step f x = f.filled order (view x)) (f : Filling) :
    xs.foldlM step f = f.filled order (xs.flatMap view) := by
  induction xs generalizing f with
  | nil => exact (filled_nil f order).symm
  | cons x rest ih =>
    obtain ⟨hx, hrest⟩ := List.forall_mem_cons.mp hstep
    rw [List.foldlM_cons, hx, List.flatMap_cons, filled_append]
    exact bind_congr fun f' => ih hrest f'

theorem visit_eq (h : g.Agrees) (order : Nat) (basis : CheckBasis) (check : Qubit) (f : Filling) :
    visit g order basis f check =
      f.filled order ((g.graph.neighbour? check order).map fun data => (basis, check, data)).toList := by
  rw [visit, h.neighbour?_graph]
  cases g.neighbour? check order with
  | none => exact (filled_nil f order).symm
  | some data =>
    rw [Option.map_some, Option.toList_some, filled_cons, filled_nil]
    simp only [List.contains_eq_mem, decide_eq_true_eq]

theorem visitGroups_eq (h : g.Agrees) (order : Nat) (f : Filling) :
    groups.foldlM (visitGroup g order) f = f.filled order (atOrder g.graph groups order) := by
  refine foldlM_filled (fun group _ f => ?_) f
  rw [List.filterMap_eq_flatMap_toList]
  exact foldlM_filled (fun check _ f => visit_eq h order group.basis check f) f

/-! ## All orders -/

/-- What the layers of more orders add. -/
def Layering.with (done : Layering) (g : Graph) (groups : List CheckGroup) (orders : List Nat)
    (layers : List (List (Qubit × Qubit))) : Layering :=
  ⟨done.layers ++ layers.filter (!·.isEmpty),
    (orders.flatMap fun k => (atOrder g groups k).map (·.2.2)).reverse ++ done.touched⟩

theorem visitOrder_eq (h : g.Agrees) (done : Layering) (order : Nat) :
    visitOrder g groups done order =
      (layerOf g.graph groups order).map fun layer => done.with g.graph groups [order] [layer] := by
  rw [visitOrder, visitGroups_eq h, Filling.filled, layerOf]
  cases firstRepeat? ((atOrder g.graph groups order).map (·.2.2)) [] with
  | some data => rfl
  | none =>
    simp only [Except.map, Layering.with, List.flatMap_singleton, List.nil_append]
    cases (atOrder g.graph groups order).map fun (basis, check, data) => pairOf basis check data with
    | nil => exact congrArg (fun layers => Except.ok (⟨layers, _⟩ : Layering)) (List.append_nil _).symm
    | cons pair rest => rfl

theorem with_append (done : Layering) (g : Graph) (groups : List CheckGroup) (orders orders' : List Nat)
    (layers layers' : List (List (Qubit × Qubit))) :
    (done.with g groups orders layers).with g groups orders' layers' =
      done.with g groups (orders ++ orders') (layers ++ layers') := by
  simp only [Layering.with, List.filter_append, List.flatMap_append, List.reverse_append, List.append_assoc]

theorem visitOrders_eq (h : g.Agrees) (orders : List Nat) (done : Layering) :
    orders.foldlM (visitOrder g groups) done =
      (orders.mapM (layerOf g.graph groups)).map (done.with g.graph groups orders) := by
  induction orders generalizing done with
  | nil =>
    show Except.ok done = .ok ⟨done.layers ++ [], done.touched⟩
    rw [List.append_nil]
  | cons k rest ih =>
    rw [List.foldlM_cons, visitOrder_eq h, List.mapM_cons]
    cases layerOf g.graph groups k with
    | error e => rfl
    | ok layer =>
      show rest.foldlM (visitOrder g groups) (done.with g.graph groups [k] [layer]) = _
      rw [ih]
      cases rest.mapM (layerOf g.graph groups) with
      | error e => rfl
      | ok layers => exact congrArg Except.ok (with_append done g.graph groups [k] rest [layer] layers)

section Orders

variable {g : Graph} {bases : List CheckBasis}

/-- A running maximum is bounded if its start and its items are. -/
theorem foldl_max_le {α : Type} {f : α → Nat} {xs : List α} {k n : Nat} :
    xs.foldl (fun m x => max m (f x)) k ≤ n ↔ k ≤ n ∧ ∀ x ∈ xs, f x ≤ n := by
  induction xs generalizing k with
  | nil => simp
  | cons x rest ih => rw [List.foldl_cons, ih, Nat.max_le, List.forall_mem_cons, and_assoc]

theorem le_maxOrder {e : Edge} (he : e ∈ g.edges) : e.order ≤ g.maxOrder :=
  (foldl_max_le.mp (Nat.le_refl g.maxOrder)).2 e he

theorem mem_ordersOf_edges {k : Nat} : k ∈ ordersOf g ↔ ∃ e ∈ g.edges, e.order = k := by
  rw [mem_ordersOf]
  constructor
  · rintro ⟨c, l, hl, rfl⟩
    exact ⟨⟨c, l.data, l.order⟩, Graph.mem_edges.mpr hl, rfl⟩
  · rintro ⟨e, he, rfl⟩
    exact ⟨e.check, _, Graph.mem_edges.mp he, rfl⟩

/-- The orders that edges have are found among all orders up to the largest. -/
theorem orders_of_range (hs : g.Sound) :
    (List.range' 1 g.maxOrder).filter (· ∈ ordersOf g) = ordersOf g := by
  have hrange : (List.range' 1 g.maxOrder).Pairwise (· < ·) := List.pairwise_lt_range'
  refine (hrange.filter _).eq_of_mem_iff (ordersOf_ascend g) fun k => ?_
  rw [List.mem_filter, decide_eq_true_eq, List.mem_range'_1]
  refine and_iff_right_of_imp fun hk => ?_
  obtain ⟨e, he, rfl⟩ := mem_ordersOf_edges.mp hk
  have hle := le_maxOrder he
  obtain ⟨n, hn, hl⟩ := Graph.mem_links.mp (Graph.mem_edges.mp he)
  have hpos := hs.ordersPositive _ n hn _ hl
  simp only at hpos
  omega

/-- The edge of a declared check is visited at its order. -/
theorem exists_mem_atOrder (hs : g.Sound) (hd : Declares bases g) {e : Edge} (he : e ∈ g.edges) :
    ∃ b, (b, e.check, e.data) ∈ atOrder g (groupsOf g bases) e.order := by
  have hl := Graph.mem_edges.mp he
  obtain ⟨n, hn, -⟩ := Graph.mem_links.mp hl
  cases hr : n.role with
  | data =>
    have hdata := Graph.isData_of_links hs hl
    rw [Graph.isData_iff.mpr ⟨n, hn, by rw [hr]; rfl⟩] at hdata
    cases hdata
  | check b =>
    have hb := (hd e.check n b hn hr).2
    exact ⟨b, (mem_atOrder hs).mpr ⟨hb, Graph.mem_checkQubits.mpr ⟨n, hn, hr⟩, hl⟩⟩

theorem edge_of_mem_atOrder (hs : g.Sound) {k : Nat} {i : CheckBasis × Qubit × Qubit}
    (hi : i ∈ atOrder g (groupsOf g bases) k) : ⟨i.2.1, i.2.2, k⟩ ∈ g.edges :=
  Graph.mem_edges.mpr ((mem_atOrder hs).mp hi).2.2

/-- At an order that an edge has, something happens, and at no other. -/
theorem atOrder_eq_nil_iff (hs : g.Sound) (hd : Declares bases g) (k : Nat) :
    atOrder g (groupsOf g bases) k = [] ↔ k ∉ ordersOf g := by
  rw [List.eq_nil_iff_forall_not_mem, mem_ordersOf_edges]
  constructor
  · rintro hnone ⟨e, he, rfl⟩
    obtain ⟨b, hvisit⟩ := exists_mem_atOrder hs hd he
    exact hnone _ hvisit
  · intro hk i hi
    exact hk ⟨_, edge_of_mem_atOrder hs hi, rfl⟩

/-- Only the orders that edges have give layers. -/
theorem layers_of_range (hs : g.Sound) (hd : Declares bases g) :
    ((List.range' 1 g.maxOrder).mapM (layerOf g (groupsOf g bases))).map (·.filter (!·.isEmpty)) =
      (ordersOf g).mapM (layerOf g (groupsOf g bases)) := by
  have hlayers : ∀ orders : List Nat, (orders.mapM (layerOf g (groupsOf g bases))).map (·.filter (!·.isEmpty)) =
      (orders.filter (· ∈ ordersOf g)).mapM (layerOf g (groupsOf g bases)) := by
    intro orders
    induction orders with
    | nil => rfl
    | cons k rest ih =>
      rw [List.mapM_cons, List.filter_cons]
      by_cases hk : k ∈ ordersOf g
      · rw [if_pos (decide_eq_true hk), List.mapM_cons, ← ih]
        cases hlayer : layerOf g (groupsOf g bases) k with
        | error e => rfl
        | ok layer =>
          have hne : layer ≠ [] := by
            rw [(layerOf_ok hlayer).2]
            exact mt List.map_eq_nil_iff.mp (mt (atOrder_eq_nil_iff hs hd k).mp (not_not_intro hk))
          cases rest.mapM (layerOf g (groupsOf g bases)) with
          | error e => rfl
          | ok layers =>
            show Except.ok ((layer :: layers).filter _) = Except.ok (layer :: layers.filter _)
            rw [List.filter_cons_of_pos (by simpa using hne)]
      · have hempty := (atOrder_eq_nil_iff hs hd k).mpr hk
        have hlayer : layerOf g (groupsOf g bases) k = .ok [] := by
          rw [layerOf, hempty]
          rfl
        rw [if_neg (by simpa using hk), ← ih, hlayer]
        cases rest.mapM (layerOf g (groupsOf g bases)) <;> rfl
  rw [hlayers, orders_of_range hs]

end Orders

/-! ## The whole layout -/

theorem zipIdx_graph (h : g.Agrees) : g.graph.nodes.toList.zipIdx = g.entries.map fun n => (g.nodeOf n, n.id) := by
  refine List.ext_getElem? fun q => ?_
  rw [List.getElem?_zipIdx, List.getElem?_map, Nat.zero_add, Array.getElem?_toList]
  show (g.graph.node? q).map _ = (g.node? q).map _
  rw [IndexedGraph.node?_graph]
  cases hn : g.node? q with
  | none => rfl
  | some n => rw [Option.map_some, Option.map_some, Option.map_some, h.id_eq hn]

theorem faults_graph (h : g.Agrees) (bases : List CheckBasis) :
    (g.graph.nodes.toList.zipIdx.findSome? fun (node, q) => nodeFault? bases node q) =
      g.entries.findSome? fun n => nodeFault? bases ⟨n.role, n.coordinate, n.label, []⟩ n.id := by
  rw [zipIdx_graph h, List.findSome?_map]
  rfl

/-- The data qubits touched at any order are those of the edges. -/
theorem mem_touched (h : g.Agrees) (hs : g.graph.Sound) {bases : List CheckBasis} (hd : Declares bases g.graph) (q : Qubit) :
    q ∈ (List.range' 1 g.maxOrder).flatMap (fun k => (atOrder g.graph (groupsOf g.graph bases) k).map (·.2.2)) ↔
      ∃ e ∈ g.graph.edges, e.data = q := by
  rw [List.mem_flatMap]
  constructor
  · rintro ⟨k, -, hq⟩
    obtain ⟨i, hi, rfl⟩ := List.mem_map.mp hq
    exact ⟨_, edge_of_mem_atOrder hs hi, rfl⟩
  · rintro ⟨e, he, rfl⟩
    obtain ⟨b, hvisit⟩ := exists_mem_atOrder hs hd he
    have horder : e.order ∈ (List.range' 1 g.graph.maxOrder).filter (· ∈ ordersOf g.graph) := by
      rw [orders_of_range hs]
      exact mem_ordersOf_edges.mpr ⟨e, he, rfl⟩
    rw [h.maxOrder_graph] at horder
    exact ⟨e.order, (List.mem_filter.mp horder).1, List.mem_map.mpr ⟨_, hvisit, rfl⟩⟩

theorem untouched_eq {g : Graph} {touched : List Qubit} (h : ∀ q, q ∈ touched ↔ ∃ e ∈ g.edges, e.data = q) :
    (g.dataQubits.filter fun q => !touched.contains q) = g.dataQubits.filter fun q => g.edges.all fun e => e.data ≠ q := by
  refine List.filter_congr fun q _ => ?_
  rw [Bool.eq_iff_iff, Bool.not_eq_true', List.contains_eq_mem, decide_eq_false_iff_not, h, List.all_eq_true]
  simp only [not_exists, not_and, decide_eq_true_eq]

theorem ofIndexed_eq (h : g.Agrees) (hs : g.graph.Sound) (bases : List CheckBasis) (policy : BoundaryPolicy) :
    ofIndexed g bases policy = ofGraph g.graph bases policy := by
  have hdata : g.dataQubits = g.graph.dataQubits := (h.qubitsWhere_graph Role.isData).symm
  have hchecks : ∀ basis, g.checkQubits basis = g.graph.checkQubits basis := fun basis =>
    (h.qubitsWhere_graph (· == .check basis)).symm
  have hgroups : (bases.map fun basis => (⟨basis, g.graph.checkQubits basis⟩ : CheckGroup)) = groupsOf g.graph bases := rfl
  have hlighter : lighter g = lighterThanHeaviest g.graph := by
    funext group
    simp only [lighter, lighterThanHeaviest, h.support_graph]
  unfold ofIndexed ofGraph
  rw [faults_graph h]
  cases hfault : g.entries.findSome? fun n => nodeFault? bases ⟨n.role, n.coordinate, n.label, []⟩ n.id with
  | some e => rfl
  | none =>
    have hd : Declares bases g.graph := declares_of_faultless ((faults_graph h bases).trans hfault)
    have hlayers := layers_of_range hs hd
    rw [h.maxOrder_graph] at hlayers
    have hidle := untouched_eq (mem_touched h hs hd)
    simp only [hchecks, hgroups, visitOrders_eq h, ← hlayers]
    cases (List.range' 1 g.maxOrder).mapM (layerOf g.graph (groupsOf g.graph bases)) with
    | error e => rfl
    | ok layers =>
      cases policy <;>
        simp only [Except.map, bind, Except.bind, Layering.with, List.nil_append, List.append_nil, List.contains_reverse,
          hdata, hidle, h.numbered, IndexedGraph.size_graph, h.support_graph, hlighter]

end Layout

end QuantumMemory

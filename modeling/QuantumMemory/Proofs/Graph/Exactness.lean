/-
  QuantumMemory.Proofs.Graph.Exactness — the schedule of a graph has its edges, and they are
  all that can keep it from having one.

  Events are edges that know their basis: at given orders they are the edges of these orders,
  each once (`events_perm`). A layout exists for graphs that are `Schedulable` and no others
  (`scan_total_iff`), and its layers are then the edges order by order (`layers_by_order`).

  Main result: `scan_exact`, for every graph that calls make.
-/

import QuantumMemory.Proofs.Graph.Scan

namespace QuantumMemory

/-- The interaction that happens. -/
def Event.edge (e : Event) : Edge := ⟨e.check, e.data, e.order⟩

namespace Layout

/-! ## Events and edges -/

section Graph

variable {g : Graph} {bases : List CheckBasis} {policy : BoundaryPolicy} {l : Layout}

theorem edge_mem_of_event (hs : g.Sound) {orders : List Nat} {e : Event} (he : e ∈ events g bases orders) :
    e.edge ∈ g.edges :=
  Graph.mem_edges.mpr ((mem_events hs).mp he).2.2.2

/-- An edge is one event: its basis is that of its check. -/
theorem edge_inj (hs : g.Sound) {orders : List Nat} {e e' : Event} (he : e ∈ events g bases orders)
    (he' : e' ∈ events g bases orders) (hedge : e.edge = e'.edge) : e = e' := by
  obtain ⟨order, basis, check, data⟩ := e
  obtain ⟨order', basis', check', data'⟩ := e'
  obtain ⟨rfl, rfl, rfl⟩ := Edge.mk.inj hedge
  obtain ⟨-, -, hcheck, -⟩ := (mem_events hs).mp he
  obtain ⟨-, -, hcheck', -⟩ := (mem_events hs).mp he'
  obtain rfl : basis = basis' := Graph.basis_unique hcheck hcheck'
  rfl

theorem events_perm (hs : g.Sound) (hb : bases.Nodup) (hd : Declares bases g) {orders : List Nat} (ho : orders.Nodup) :
    ((events g bases orders).map Event.edge).Perm (g.edges.filter (·.order ∈ orders)) := by
  have hnodup : ((events g bases orders).map Event.edge).Nodup :=
    List.Nodup.map_on (fun e he e' he' hedge => edge_inj hs he he' hedge) (events_nodup hb ho)
  refine (List.perm_ext_iff_of_nodup hnodup (hs.edges_nodup.filter _)).mpr fun e => ?_
  rw [List.mem_map, List.mem_filter, decide_eq_true_eq]
  constructor
  · rintro ⟨event, hevent, rfl⟩
    exact ⟨edge_mem_of_event hs hevent, ((mem_events hs).mp hevent).1⟩
  · rintro ⟨he, horder⟩
    obtain ⟨b, hvisit⟩ := exists_mem_atOrder hs hd he
    obtain ⟨hbasis, hcheck, hlink⟩ := (mem_atOrder hs).mp hvisit
    exact ⟨⟨e.order, b, e.check, e.data⟩, (mem_events hs).mpr ⟨horder, hbasis, hcheck, hlink⟩, rfl⟩

theorem mem_lighterThanHeaviest {group : CheckGroup} {c : Qubit} :
    c ∈ lighterThanHeaviest g group ↔
      c ∈ group.qubits ∧ ∃ c' ∈ group.qubits, (g.support c).length < (g.support c').length := by
  rw [lighterThanHeaviest, List.mem_filter, decide_eq_true_eq, ← Nat.not_le, foldl_max_le]
  simp only [Nat.zero_le, true_and, not_forall, Nat.not_le, exists_prop]

theorem layers_flatten (hf : Fits g bases l) : l.layers.flatten = (events g bases (ordersOf g)).map Event.pair := by
  rw [hf.layers, ← List.flatMap_def, events, List.map_flatMap]
  exact congrArg List.flatten (List.map_congr_left fun k _ => by rw [events_one])

/-- Two interactions of a layer do not share their data qubit. -/
theorem check_eq_of_noConflict (hs : g.Sound) (hd : Declares bases g) (hn : NoConflict g bases) {e e' : Edge}
    (he : e ∈ g.edges) (he' : e' ∈ g.edges) (horder : e.order = e'.order) (hdata : e.data = e'.data) :
    e.check = e'.check := by
  obtain ⟨b, hvisit⟩ := exists_mem_atOrder hs hd he
  obtain ⟨b', hvisit'⟩ := exists_mem_atOrder hs hd he'
  rw [← horder] at hvisit'
  have hnodup := hn e.order (mem_ordersOf_edges.mpr ⟨e, he, rfl⟩)
  have hsame := List.inj_on_of_nodup_map hnodup hvisit hvisit' hdata
  exact (Prod.mk.inj (Prod.mk.inj hsame).2).1

end Graph

end Layout

namespace IndexedGraph

/-- Control and target of an edge: an X check controls, any other is the target. -/
def pairOf (g : IndexedGraph) (e : Edge) : Qubit × Qubit :=
  if g.role? e.check = some (.check .x) then (e.check, e.data) else (e.data, e.check)

/-- The number of edges of a check. -/
def weight (g : IndexedGraph) (check : Qubit) : Nat := (g.edges.filter (·.check == check)).length

/-- What a graph must be to have a layout. -/
structure Schedulable (g : IndexedGraph) (bases : List CheckBasis) : Prop where
  noY : ∀ c, g.role? c ≠ some (.check .y)
  declared : ∀ c b, g.role? c = some (.check b) → b ∈ bases
  apart : ∀ e ∈ g.edges, ∀ e' ∈ g.edges, e.order = e'.order → e.data = e'.data → e.check = e'.check

/-- How a layout schedules the edges of a graph. -/
structure ScheduledBy (g : IndexedGraph) (policy : BoundaryPolicy) (l : Layout) : Prop where
  nonempty : ∀ layer ∈ l.layers, layer ≠ []
  /-- One layer for each order of an edge, with the edges of the order, by ascending order. -/
  byOrder : ∃ orders : List Nat, orders.Pairwise (· < ·) ∧ (∀ k, k ∈ orders ↔ ∃ e ∈ g.edges, e.order = k) ∧
    List.Forall₂ (fun k layer => layer.Perm ((g.edges.filter (·.order == k)).map g.pairOf)) orders l.layers
  /-- All layers together have each edge once. -/
  once : l.layers.flatten.Perm (g.edges.map g.pairOf) ∧ (g.edges.map g.pairOf).Nodup
  disjoint : ∀ layer ∈ l.layers, (flattenPairs layer).Nodup
  idle : l.idleData = g.dataQubits.filter fun q => g.edges.all fun e => e.data ≠ q
  supports : ∀ c b, g.role? c = some (.check b) → l.support c = (g.edges.filter (·.check == c)).map (·.data) ∧
    (g.edges.filter (·.check == c)).Pairwise (·.order < ·.order)
  /-- Under `skip` the checks that are not the heaviest of their basis. -/
  skipped : ∀ c, l.isSkipped c = true ↔ policy = .skip ∧
    ∃ b c', g.role? c = some (.check b) ∧ g.role? c' = some (.check b) ∧ g.weight c < g.weight c'

variable {g : IndexedGraph} {bases : List CheckBasis} {policy : BoundaryPolicy} {l : Layout}

theorem mem_checkQubits_graph {b : CheckBasis} {q : Qubit} :
    q ∈ g.graph.checkQubits b ↔ g.role? q = some (.check b) := by
  rw [Graph.mem_checkQubits, ← role?_graph, Graph.role?, Option.map_eq_some_iff]

theorem declares_graph_iff :
    Layout.Declares bases g.graph ↔
      (∀ c, g.role? c ≠ some (.check .y)) ∧ ∀ c b, g.role? c = some (.check b) → b ∈ bases := by
  have hdeclares : Layout.Declares bases g.graph ↔ ∀ c b, g.role? c = some (.check b) → b ≠ .y ∧ b ∈ bases := by
    constructor
    · intro hd c b hrole
      obtain ⟨n, hn, hr⟩ := Graph.mem_checkQubits.mp (mem_checkQubits_graph.mpr hrole)
      exact hd c n b hn hr
    · intro hd q n b hn hr
      exact hd q b (mem_checkQubits_graph.mp (Graph.mem_checkQubits.mpr ⟨n, hn, hr⟩))
  rw [hdeclares]
  constructor
  · intro hd
    exact ⟨fun c hrole => (hd c .y hrole).1 rfl, fun c b hrole => (hd c b hrole).2⟩
  · rintro ⟨hy, hb⟩ c b hrole
    refine ⟨?_, hb c b hrole⟩
    rintro rfl
    exact hy c hrole

section Scheduled

variable (h : g.Agrees) (hs : g.graph.Sound) (hb : bases.Nodup)

include h hs hb

/-- Y checks, undeclared checks and shared data are all that keep a graph from having a layout. -/
theorem scan_total_iff (policy : BoundaryPolicy) :
    (∃ l, Layout.ofIndexed g bases policy = .ok l) ↔ g.Schedulable bases := by
  rw [Layout.ofIndexed_eq h hs]
  constructor
  · rintro ⟨l, hl⟩
    have hf := Layout.ofGraph_ok hl
    obtain ⟨hy, hdeclared⟩ := declares_graph_iff.mp hf.declares
    refine ⟨hy, hdeclared, fun e he e' he' horder hdata => ?_⟩
    rw [← h.edges_graph] at he he'
    exact Layout.check_eq_of_noConflict hs hf.declares hf.noConflict he he' horder hdata
  · rintro ⟨hy, hdeclared, hapart⟩
    have hd := declares_graph_iff.mpr ⟨hy, hdeclared⟩
    refine Layout.ofGraph_total hd (Layout.noConflict_of_reach hs hb ?_) policy
    intro b b' c c' k data hc hc' hlink hlink'
    have he : (⟨c, data, k⟩ : Edge) ∈ g.edges := by
      rw [← h.edges_graph]
      exact Graph.mem_edges.mpr hlink
    have he' : (⟨c', data, k⟩ : Edge) ∈ g.edges := by
      rw [← h.edges_graph]
      exact Graph.mem_edges.mpr hlink'
    exact hapart _ he _ he' rfl rfl

omit h hb in
theorem pair_eq {orders : List Nat} {e : Event} (he : e ∈ Layout.events g.graph bases orders) :
    e.pair = g.pairOf e.edge := by
  obtain ⟨-, -, hcheck, -⟩ := (Layout.mem_events hs).mp he
  have hrole := mem_checkQubits_graph.mp hcheck
  rw [pairOf, show e.edge.check = e.check from rfl, hrole, Event.pair]
  cases e.basis with
  | x => exact (if_pos rfl).symm
  | y => exact (if_neg (by decide)).symm
  | z => exact (if_neg (by decide)).symm

/-- The pairs of events at given orders are those of the edges. -/
theorem pairs_perm (hd : Layout.Declares bases g.graph) {orders : List Nat} (ho : orders.Nodup) :
    ((Layout.events g.graph bases orders).map Event.pair).Perm ((g.edges.filter (·.order ∈ orders)).map g.pairOf) := by
  have hpairs : (Layout.events g.graph bases orders).map Event.pair =
      ((Layout.events g.graph bases orders).map Event.edge).map g.pairOf := by
    rw [List.map_map]
    exact List.map_congr_left fun e he => pair_eq hs he
  rw [hpairs, ← h.edges_graph]
  exact (Layout.events_perm hs hb hd ho).map _

omit hs hb in
theorem pairs_nodup : (g.edges.map g.pairOf).Nodup := by
  refine List.Nodup.map_on (fun e he e' he' hpair => ?_) h.edges_ascend.nodup
  obtain ⟨⟨b, hcheck⟩, hdata, -⟩ := h.edge_ends he
  obtain ⟨⟨b', hcheck'⟩, hdata', -⟩ := h.edge_ends he'
  -- The check of the one is not the data qubit of the other.
  have hcross : e.check ≠ e'.data := fun hsame => not_data_of_check hcheck (hsame ▸ hdata')
  have hcross' : e.data ≠ e'.check := fun hsame => not_data_of_check hcheck' (hsame ▸ hdata)
  rw [pairOf, pairOf] at hpair
  split at hpair
  · split at hpair
    · obtain ⟨hc, hd⟩ := Prod.mk.inj hpair
      exact h.edge_unique he he' hc (.inr hd)
    · exact absurd (Prod.mk.inj hpair).1 hcross
  · split at hpair
    · exact absurd (Prod.mk.inj hpair).1 hcross'
    · obtain ⟨hd, hc⟩ := Prod.mk.inj hpair
      exact h.edge_unique he he' hc (.inr hd)

omit hs hb in
theorem support_length {c : Qubit} (hc : g.role? c ≠ some .data) : (g.graph.support c).length = g.weight c := by
  rw [h.support_graph, h.support_check hc, List.length_map, weight]

/-- The layers are the edges order by order. -/
theorem layers_by_order (hf : Layout.Fits g.graph bases l) :
    List.Forall₂ (fun k layer => layer.Perm ((g.edges.filter (·.order == k)).map g.pairOf)) (Layout.ordersOf g.graph)
      l.layers := by
  rw [hf.layers, List.forall₂_map_right_iff, List.forall₂_same]
  intro k _
  have hfilter : g.edges.filter (·.order ∈ [k]) = g.edges.filter (·.order == k) := by
    refine List.filter_congr fun e _ => ?_
    rw [Bool.eq_iff_iff, decide_eq_true_eq, List.mem_singleton, beq_iff_eq]
  rw [← hfilter]
  exact pairs_perm h hs hb hf.declares (List.nodup_singleton k)

omit hs hb in
theorem skipped_iff (hl : Layout.ofGraph g.graph bases policy = .ok l) (c : Qubit) :
    l.isSkipped c = true ↔ policy = .skip ∧
      ∃ b c', g.role? c = some (.check b) ∧ g.role? c' = some (.check b) ∧ g.weight c < g.weight c' := by
  have hf := Layout.ofGraph_ok hl
  have hweight : ∀ {q b}, g.role? q = some (.check b) → (g.graph.support q).length = g.weight q := by
    intro q b hrole
    exact support_length h (not_data_of_check hrole)
  rw [Layout.isSkipped, List.contains_eq_mem, decide_eq_true_eq]
  cases policy with
  | emit =>
    rw [Layout.skipped_emit hl]
    exact ⟨fun hmem => absurd hmem List.not_mem_nil, fun hskip => nomatch hskip.1⟩
  | skip =>
    rw [Layout.skipped_skip hl, List.mem_flatMap]
    constructor
    · rintro ⟨group, hgroup, hc⟩
      obtain ⟨b, -, rfl⟩ := List.mem_map.mp hgroup
      obtain ⟨hmem, c', hmem', hlt⟩ := Layout.mem_lighterThanHeaviest.mp hc
      have hrole := mem_checkQubits_graph.mp hmem
      have hrole' := mem_checkQubits_graph.mp hmem'
      rw [hweight hrole, hweight hrole'] at hlt
      exact ⟨rfl, b, c', hrole, hrole', hlt⟩
    · rintro ⟨-, b, c', hrole, hrole', hlt⟩
      rw [← hweight hrole, ← hweight hrole'] at hlt
      have hdeclared : b ∈ bases := (declares_graph_iff.mp hf.declares).2 c b hrole
      refine ⟨⟨b, g.graph.checkQubits b⟩, List.mem_map.mpr ⟨b, hdeclared, rfl⟩, ?_⟩
      exact Layout.mem_lighterThanHeaviest.mpr
        ⟨mem_checkQubits_graph.mpr hrole, c', mem_checkQubits_graph.mpr hrole', hlt⟩

theorem scheduledBy (hl : Layout.ofGraph g.graph bases policy = .ok l) : g.ScheduledBy policy l := by
  have hf := Layout.ofGraph_ok hl
  have hlayers := layers_by_order h hs hb hf
  constructor
  case nonempty =>
    intro layer hlayer
    rw [hf.layers] at hlayer
    obtain ⟨k, hk, rfl⟩ := List.mem_map.mp hlayer
    rw [Layout.events_one]
    intro hempty
    have hnone := List.map_eq_nil_iff.mp (List.map_eq_nil_iff.mp hempty)
    exact (Layout.atOrder_eq_nil_iff hs hf.declares k).mp hnone hk
  case byOrder =>
    refine ⟨Layout.ordersOf g.graph, Layout.ordersOf_ascend g.graph, fun k => ?_, hlayers⟩
    rw [Layout.mem_ordersOf_edges, h.edges_graph]
  case once =>
    refine ⟨?_, pairs_nodup h⟩
    have hall : g.edges.filter (·.order ∈ Layout.ordersOf g.graph) = g.edges := by
      refine List.filter_eq_self.mpr fun e he => decide_eq_true ?_
      exact Layout.mem_ordersOf_edges.mpr ⟨e, h.edges_graph ▸ he, rfl⟩
    have hnodup : (Layout.ordersOf g.graph).Nodup := (Layout.ordersOf_ascend g.graph).imp Nat.ne_of_lt
    have hperm := pairs_perm h hs hb hf.declares hnodup
    rwa [hall, ← Layout.layers_flatten hf] at hperm
  case disjoint => exact fun layer hlayer => hf.layer_nodup hs (hf.allChecks_nodup hb) hlayer
  case idle =>
    have hdata : g.graph.dataQubits = g.dataQubits := h.qubitsWhere_graph Role.isData
    rw [hf.idleData, hdata, h.edges_graph]
  case supports =>
    intro c b hrole
    have hdata := not_data_of_check hrole
    refine ⟨?_, h.orders_ascend c⟩
    rw [hf.support (hf.mem_allChecks.mpr ⟨b, mem_checkQubits_graph.mpr hrole⟩), h.links_graph hdata, h.links_check hdata,
      List.map_map]
    rfl
  case skipped => exact skipped_iff h hl

end Scheduled

/-- A graph that calls made has a layout if nothing is wrong with it, and the layout
    schedules all its edges. -/
theorem scan_exact (calls : List GraphCall) (hb : bases.Nodup) (policy : BoundaryPolicy) :
    ((∃ l, Layout.ofIndexed (empty.grown calls) bases policy = .ok l) ↔ (empty.grown calls).Schedulable bases) ∧
    ∀ l, Layout.ofIndexed (empty.grown calls) bases policy = .ok l → (empty.grown calls).ScheduledBy policy l := by
  have h := agrees_empty.grown calls
  have hs := (Graph.built_iff_grown.mpr ⟨calls, rfl⟩).sound
  refine ⟨scan_total_iff h hs hb policy, fun l hl => ?_⟩
  rw [Layout.ofIndexed_eq h hs] at hl
  exact scheduledBy h hs hb hl

/-- The Bell pair by calls. -/
def bellCalls : List GraphCall :=
  [.addQubit .data none none, .addQubit .data none none, .addQubit (.check .z) none none, .addQubit (.check .x) none none,
    .addInteraction 2 0 1, .addInteraction 2 1 2, .addInteraction 3 0 3, .addInteraction 3 1 4]

theorem scan_exact_bellPair :
    (empty.grown bellCalls).Schedulable [.z, .x] ∧ (empty.grown bellCalls).ScheduledBy .skip bellLayout := by
  have hlayout : Layout.ofIndexed (empty.grown bellCalls) [.z, .x] .skip = .ok bellLayout := by rfl
  obtain ⟨htotal, hscheduled⟩ := scan_exact bellCalls (by decide : ([.z, .x] : List CheckBasis).Nodup) .skip
  exact ⟨htotal.mp ⟨bellLayout, hlayout⟩, hscheduled bellLayout hlayout⟩

end IndexedGraph

end QuantumMemory

/-
  QuantumMemory.Proofs.Graph.Reordering — in what order a graph was made does not show.

  That interactions can be added one after the other says nothing of their order: each has
  its ends, and any two, old or new, are apart (`perform_addInteractions_iff`). What a layout
  reads of a graph, are the roles of the qubits and the sorted edges (`ofIndexed_congr`); where
  the qubits stand and how they are called, it does not read at all.

  Main result: `order_immaterial`.
-/

import QuantumMemory.Proofs.Graph.Scan

namespace QuantumMemory

def Edge.joint (e : Edge) : Joint := ⟨e.check, e.data, e.order⟩

namespace IndexedGraph

variable {g g' : IndexedGraph} {es es' : List Edge}

/-! ## Interactions in turn -/

def addInteractions (es : List Edge) : GraphEdit Unit := es.forM fun e => addInteraction e.check e.data e.order

def withEdges (g : IndexedGraph) (es : List Edge) : IndexedGraph := { g with joints := g.joints ++ es.map Edge.joint }

theorem edges_withEdges (g : IndexedGraph) (es : List Edge) :
    (g.withEdges es).joints.map Joint.edge = g.joints.map Joint.edge ++ es := by
  rw [withEdges, List.map_append, List.map_map]
  exact congrArg _ (List.map_id es)

theorem withEdges_cons (g : IndexedGraph) (e : Edge) (es : List Edge) :
    (g.withJoint e.joint).withEdges es = g.withEdges (e :: es) := by
  rw [withEdges, withEdges, withJoint, List.map_cons, List.append_assoc]
  rfl

/-- Whatever graph has the interaction, it was allowed before the ones after it. -/
theorem allow_of_withEdges {e : Edge} (h : g.Agrees) (hall : (g.withEdges (e :: es)).Agrees) :
    g.allow e.check e.data e.order = .ok () := by
  have hmem : e.joint ∈ (g.withEdges (e :: es)).joints := List.mem_append_right _ List.mem_cons_self
  obtain ⟨⟨b, hcheck⟩, hdata, horder⟩ := hall.ends _ hmem
  have hapart := hall.apart
  rw [edges_withEdges, List.pairwise_append] at hapart
  have hnotData : g.role? e.check ≠ some .data := not_data_of_check hcheck
  refine allow_iff.mpr ⟨⟨b, hcheck⟩, hdata, horder, fun l hl => ?_⟩
  obtain ⟨j, hj, hedge⟩ := h.mem_edges.mp ((h.mem_links hnotData).mp hl)
  have hold : (⟨e.check, l.data, l.order⟩ : Edge) ∈ g.joints.map Joint.edge := List.mem_map.mpr ⟨j, hj, hedge⟩
  exact hapart.2.2 _ hold e List.mem_cons_self rfl

/-- Interactions are accepted one after the other if the graph that has them all is in
    agreement, and that is the graph they make. -/
theorem perform_addInteractions_iff (h : g.Agrees) :
    perform g (addInteractions es) = (.ok (), g') ↔ (g.withEdges es).Agrees ∧ g' = g.withEdges es := by
  induction es generalizing g with
  | nil =>
    have hnone : g.withEdges [] = g := by rw [withEdges, List.map_nil, List.append_nil]
    rw [hnone]
    constructor
    · intro hdone
      exact ⟨h, (Prod.mk.inj hdone).2.symm⟩
    · rintro ⟨-, rfl⟩
      rfl
  | cons e rest ih =>
    show perform g (addInteraction e.check e.data e.order >>= fun _ => addInteractions rest) = _ ↔ _
    rw [perform_bind_eq, ← withEdges_cons]
    rcases perform_addInteraction_cases g e.check e.data e.order with ⟨hallow, hdone⟩ | ⟨error, hrefused, hdone⟩
    · rw [hdone]
      exact ih (h.withJoint hallow)
    · rw [hdone]
      constructor
      · intro hfail
        cases (Prod.mk.inj hfail).1
      · rintro ⟨hall, -⟩
        rw [withEdges_cons] at hall
        rw [allow_of_withEdges h hall] at hrefused
        cases hrefused

theorem Agrees.withEdges_perm (hperm : es.Perm es') (hall : (g.withEdges es).Agrees) : (g.withEdges es').Agrees where
  numbered := hall.numbered
  indexed := hall.indexed
  ends j hj := by
    rcases List.mem_append.mp hj with hold | hnew
    · exact hall.ends j (List.mem_append_left _ hold)
    · exact hall.ends j (List.mem_append_right _ ((hperm.map _).mem_iff.mpr hnew))
  apart := by
    have hapart := hall.apart
    rw [edges_withEdges] at hapart ⊢
    exact ((hperm.append_left _).pairwise_iff Edge.Apart.symm).mp hapart

/-- Strictly ascending edges are known from which there are. -/
theorem Agrees.edges_eq_of_mem (h : g.Agrees) (h' : g'.Agrees) (hmem : ∀ e, e ∈ g.edges ↔ e ∈ g'.edges) :
    g.edges = g'.edges :=
  h.edges_ascend.eq_of_mem_iff h'.edges_ascend hmem

theorem withEdges_beq (hperm : es.Perm es') (hall : (g.withEdges es).Agrees) :
    (g.withEdges es == g.withEdges es') = true := by
  have hall' := hall.withEdges_perm hperm
  have hedges : (g.withEdges es).edges = (g.withEdges es').edges := by
    refine hall.edges_eq_of_mem hall' fun e => ?_
    rw [hall.edges_perm.mem_iff, hall'.edges_perm.mem_iff, edges_withEdges, edges_withEdges]
    exact (hperm.append_left _).mem_iff
  show ((g.withEdges es).entries == (g.withEdges es').entries && (g.withEdges es).edges == (g.withEdges es').edges) = true
  rw [hedges, Bool.and_eq_true, beq_iff_eq, beq_iff_eq]
  exact ⟨rfl, rfl⟩

/-! ## What a layout reads -/

section Congruence

variable (h : g.Agrees) (h' : g'.Agrees) (hroles : ∀ q, g.role? q = g'.role? q) (hedges : g.edges = g'.edges)

include h h' hroles hedges

theorem interactions_congr (q : Qubit) : g.interactions q = g'.interactions q := by
  by_cases hdata : g.role? q = some .data
  · rw [h.interactions_data hdata, h'.interactions_data ((hroles q).symm.trans hdata), hedges]
  · rw [h.interactions_check hdata, h'.interactions_check (hroles q ▸ hdata), hedges]

omit hroles in
theorem maxOrder_congr : g.maxOrder = g'.maxOrder := by
  rw [← h.maxOrder_graph, ← h'.maxOrder_graph, Graph.maxOrder, Graph.maxOrder, h.edges_graph, h'.edges_graph, hedges]

omit hedges in
/-- The qubits have the same numbers and roles. -/
theorem roster_congr : (g.entries.map fun n => (n.id, n.role)) = g'.entries.map fun n => (n.id, n.role) := by
  refine List.ext_getElem? fun q => ?_
  have hrole : (g.node? q).map (·.role) = (g'.node? q).map (·.role) := hroles q
  rw [List.getElem?_map, List.getElem?_map]
  show (g.node? q).map _ = (g'.node? q).map _
  cases hn : g.node? q with
  | none =>
    rw [hn] at hrole
    rw [Option.map_eq_none_iff.mp hrole.symm]
  | some n =>
    rw [hn] at hrole
    obtain ⟨n', hn', hsame⟩ := Option.map_eq_some_iff.mp hrole.symm
    rw [hn', Option.map_some, Option.map_some, h.id_eq hn, h'.id_eq hn', hsame]

omit hedges in
theorem qubitsWhere_congr (p : Role → Bool) : g.qubitsWhere p = g'.qubitsWhere p := by
  have hroster : ∀ g : IndexedGraph, g.qubitsWhere p =
      ((g.entries.map fun n => (n.id, n.role)).filter (p ·.2)).map (·.1) := by
    intro g
    rw [qubitsWhere, List.filter_map, List.map_map]
    rfl
  rw [hroster, hroster, roster_congr h h' hroles]

theorem ofIndexed_congr (bases : List CheckBasis) (policy : BoundaryPolicy) :
    Layout.ofIndexed g bases policy = Layout.ofIndexed g' bases policy := by
  have hinteractions := interactions_congr h h' hroles hedges
  have hroster := roster_congr h h' hroles
  have hfaults : ∀ g : IndexedGraph,
      (g.entries.findSome? fun n => Layout.nodeFault? bases ⟨n.role, n.coordinate, n.label, []⟩ n.id) =
        (g.entries.map fun n => (n.id, n.role)).findSome? fun (q, role) =>
          Layout.nodeFault? bases ⟨role, none, none, []⟩ q := by
    intro g
    rw [List.findSome?_map]
    rfl
  have hids : ∀ g : IndexedGraph, g.entries.map (·.id) = (g.entries.map fun n => (n.id, n.role)).map (·.1) := by
    intro g
    rw [List.map_map]
    rfl
  have hvisit : Layout.visit g = Layout.visit g' := by
    funext order basis f check
    rw [Layout.visit, Layout.visit, neighbour?, neighbour?, hinteractions]
  have hgroup : Layout.visitGroup g = Layout.visitGroup g' := by
    funext order f group
    rw [Layout.visitGroup, Layout.visitGroup, hvisit]
  have horder : Layout.visitOrder g = Layout.visitOrder g' := by
    funext groups done order
    rw [Layout.visitOrder, Layout.visitOrder, hgroup]
  have hsupport : g.support = g'.support := by
    funext q
    rw [support, support, hinteractions]
  have hlighter : Layout.lighter g = Layout.lighter g' := by
    funext group
    rw [Layout.lighter, Layout.lighter, hsupport]
  unfold Layout.ofIndexed
  simp only [hfaults, hids, hroster, dataQubits, checkQubits, qubitsWhere_congr h h' hroles,
    maxOrder_congr h h' hedges, horder, hsupport, hlighter]

end Congruence

/-- Interactions that are accepted in one order are in any other, and make an equal graph. And
    graphs with the same roles and the same edges, however they were made and whatever the
    coordinates and labels of their qubits, have one layout and one memory, or fail for one
    reason. -/
theorem order_immaterial :
    (∀ (calls : List GraphCall) (es es' : List Edge) (g : IndexedGraph), es.Perm es' →
      perform (empty.grown calls) (addInteractions es) = (.ok (), g) →
      ∃ g', perform (empty.grown calls) (addInteractions es') = (.ok (), g') ∧ (g == g') = true) ∧
    ∀ calls calls' : List GraphCall, (∀ q, (empty.grown calls).role? q = (empty.grown calls').role? q) →
      (∀ e, e ∈ (empty.grown calls).edges ↔ e ∈ (empty.grown calls').edges) →
      ∀ bases policy, Layout.ofIndexed (empty.grown calls) bases policy = Layout.ofIndexed (empty.grown calls') bases policy ∧
        ∀ name params rounds logical,
          (Layout.ofIndexed (empty.grown calls) bases policy >>= fun l => l.buildMemory name params rounds logical) =
            (Layout.ofIndexed (empty.grown calls') bases policy >>= fun l => l.buildMemory name params rounds logical) := by
  constructor
  · intro calls es es' g hperm hdone
    have h := agrees_empty.grown calls
    obtain ⟨hall, rfl⟩ := (perform_addInteractions_iff h).mp hdone
    refine ⟨(empty.grown calls).withEdges es', ?_, withEdges_beq hperm hall⟩
    exact (perform_addInteractions_iff h).mpr ⟨hall.withEdges_perm hperm, rfl⟩
  · intro calls calls' hroles hmem bases policy
    have h := agrees_empty.grown calls
    have h' := agrees_empty.grown calls'
    have hlayout := ofIndexed_congr h h' hroles (h.edges_eq_of_mem h' hmem) bases policy
    refine ⟨hlayout, fun name params rounds logical => ?_⟩
    rw [hlayout]

def bellQubits : List GraphCall :=
  [.addQubit .data none none, .addQubit .data none none, .addQubit (.check .z) none none, .addQubit (.check .x) none none]

def bellEdges : List Edge := [⟨2, 0, 1⟩, ⟨2, 1, 2⟩, ⟨3, 0, 3⟩, ⟨3, 1, 4⟩]

def bellForwards : List GraphCall := bellQubits ++ bellEdges.map fun e => .addInteraction e.check e.data e.order

/-- The Bell pair with its qubits on a line, joined backwards. -/
def bellLine : List GraphCall :=
  [.addQubit .data (some ⟨0, 0⟩) (some "left"), .addQubit .data (some ⟨4, 0⟩) (some "right"),
    .addQubit (.check .z) (some ⟨2, 0⟩) none, .addQubit (.check .x) (some ⟨6, 0⟩) none] ++
  bellEdges.reverse.map fun e => .addInteraction e.check e.data e.order

theorem order_immaterial_bellPair :
    (∃ g', perform (empty.grown bellQubits) (addInteractions bellEdges.reverse) = (.ok (), g') ∧
      ((empty.grown bellQubits).withEdges bellEdges == g') = true) ∧
    Layout.ofIndexed (empty.grown bellLine) [.z, .x] .skip = .ok bellLayout := by
  obtain ⟨hedges, hlayouts⟩ := order_immaterial
  constructor
  · exact hedges bellQubits bellEdges bellEdges.reverse _ (List.reverse_perm _).symm (by rfl)
  · have hroles : ∀ q, (empty.grown bellLine).role? q = (empty.grown bellForwards).role? q := by
      intro q
      have hlist : (empty.grown bellLine).entries.map (·.role) = (empty.grown bellForwards).entries.map (·.role) := by rfl
      rw [role?, role?, node?, node?, ← List.getElem?_map, ← List.getElem?_map, hlist]
    have hsame : (empty.grown bellLine).edges = (empty.grown bellForwards).edges := by decide +kernel
    have hmem : ∀ e, e ∈ (empty.grown bellLine).edges ↔ e ∈ (empty.grown bellForwards).edges := fun e => by rw [hsame]
    exact (hlayouts bellLine bellForwards hroles hmem [.z, .x] .skip).1.trans (by decide +kernel)

end IndexedGraph

end QuantumMemory

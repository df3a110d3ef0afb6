/-
  QuantumMemory.Proofs.Family.Description — the graph of a lattice that the user describes,
  node by node.

  On the plane, with a step of one half, a description of sites that are all apart gives a
  graph with the data first and the checks after them, each check joined as its own
  permutation plans (`graph_of_sites`). A check that reaches no data would be refused.
-/

import QuantumMemory.Proofs.Family.Construction

namespace QuantumMemory

namespace LatticeSpec

open LatticeBuilder (bare joined place)

/-- A check that is not joined yet. -/
def siteNode (site : CheckSite) : Node := bare (.check site.basis) site.coordinate

/-- The nodes of a description before any are joined. -/
def apart (s : LatticeSpec) : List Node := s.data.map (bare .data) ++ s.checks.map siteNode

/-- A check as its permutation plans to join it. -/
def joinedSite (s : LatticeSpec) (site : CheckSite) : Node :=
  joined ⟨.ofNodes s.apart, .open⟩ (s.directionsOf site) (siteNode site)

/-- A description on the plane whose sites are apart and whose checks all reach data. -/
structure Plain (s : LatticeSpec) : Prop where
  step : s.step2 = .ok 1
  boundary : s.boundary = .open
  places : (s.apart.map (·.coordinate)).Nodup
  directions : ∀ site ∈ s.checks, isPermutation (s.directionsOf site) = true ∧ (s.directionsOf site).Nodup
  reaches : ∀ site ∈ s.checks, (s.joinedSite site).links ≠ []

variable {s : LatticeSpec}

theorem addSites_ok (nodes : List Node) {sites : List CheckSite}
    (h : ((nodes ++ sites.map siteNode).map (·.coordinate)).Nodup) :
    sites.foldlM (fun b site => do return (← b.add (.check site.basis) site.coordinate none).1)
        (⟨.ofNodes nodes, .open⟩ : LatticeBuilder) =
      (.ok ⟨.ofNodes (nodes ++ sites.map siteNode), .open⟩ : Except CodeError LatticeBuilder) := by
  induction sites generalizing nodes with
  | nil =>
    rw [List.map_nil, List.append_nil]
    rfl
  | cons site rest ih =>
    have hfresh : ∀ n ∈ nodes, n.coordinate ≠ some site.coordinate := by
      intro n hn he
      rw [List.map_append] at h
      exact (List.nodup_append.mp h).2.2 _ (List.mem_map_of_mem hn) _ List.mem_cons_self he
    have hrest : (((nodes ++ [siteNode site]) ++ rest.map siteNode).map (·.coordinate)).Nodup := by
      rwa [List.append_assoc]
    have hadd : (⟨.ofNodes nodes, .open⟩ : LatticeBuilder).add (.check site.basis) site.coordinate none =
        .ok (⟨.ofNodes (nodes ++ [siteNode site]), .open⟩, nodes.length) :=
      LatticeBuilder.add_ok (.check site.basis) none rfl hfresh
    rw [List.foldlM_cons, hadd]
    refine (ih _ hrest).trans ?_
    rw [List.append_assoc]
    rfl

theorem joinCheck_of_reaches {pre post : List Node} {site : CheckSite}
    (hdirections : isPermutation (s.directionsOf site) = true ∧ (s.directionsOf site).Nodup)
    (hsame : (pre ++ siteNode site :: post).map place = s.apart.map place) (hreaches : (s.joinedSite site).links ≠ []) :
    s.joinCheck 1 ⟨.ofNodes (pre ++ siteNode site :: post), .open⟩ site pre.length =
      .ok ⟨.ofNodes (pre ++ s.joinedSite site :: post), .open⟩ := by
  have hplan : joined ⟨.ofNodes (pre ++ siteNode site :: post), .open⟩ (s.directionsOf site) (siteNode site) =
      s.joinedSite site := by
    simp only [joinedSite, joined, LatticeBuilder.diagonalPlan_congr hsame]
  have hcheck : (siteNode site).role.isData = false := rfl
  have hjoin := LatticeBuilder.joinDiagonal_ok hdirections.1 hdirections.2 pre post hcheck rfl (Option.some_ne_none _)
  rw [hplan] at hjoin
  have hcount : (s.joinedSite site).links.length ≠ 0 := mt List.eq_nil_of_length_eq_zero hreaches
  simp only [joinCheck, hjoin, bind, Except.bind, if_neg hcount, pure, Except.pure]

/-- Checks that stand in a row in the list of nodes are joined as planned. -/
theorem joinSites_ok (hp : s.Plain) (pre : List Node) {sites : List CheckSite} (hsub : sites ⊆ s.checks) {k : Nat}
    (hk : pre.length = s.data.length + k) (hsame : (pre ++ sites.map siteNode).map place = s.apart.map place) :
    (sites.zipIdx k).foldlM (fun b (site, i) => s.joinCheck 1 b site (s.data.length + i))
        (⟨.ofNodes (pre ++ sites.map siteNode), .open⟩ : LatticeBuilder) =
      (.ok ⟨.ofNodes (pre ++ sites.map s.joinedSite), .open⟩ : Except CodeError LatticeBuilder) := by
  induction sites generalizing pre k with
  | nil => rfl
  | cons site rest ih =>
    obtain ⟨hsite, hrest⟩ := List.cons_subset.mp hsub
    have hjoin := joinCheck_of_reaches (hp.directions site hsite) hsame (hp.reaches site hsite)
    have hsame' : ((pre ++ [s.joinedSite site]) ++ rest.map siteNode).map place = s.apart.map place := by
      rw [← hsame]
      simp [place, joinedSite, joined]
    have hlength : (pre ++ [s.joinedSite site]).length = s.data.length + (k + 1) := by
      rw [List.length_append, List.length_singleton, hk, Nat.add_assoc]
    have hnext := ih (pre ++ [s.joinedSite site]) hrest hlength hsame'
    rw [List.append_assoc, List.append_assoc] at hnext
    rw [hk] at hjoin
    rw [List.zipIdx_cons, List.foldlM_cons]
    show (s.joinCheck 1 ⟨.ofNodes (pre ++ siteNode site :: rest.map siteNode), .open⟩ site (s.data.length + k) >>= _) = _
    rw [hjoin]
    exact hnext

/-- The graph of a description: the data, and the checks as they are planned. -/
theorem graph_of_sites (hp : s.Plain) :
    s.graph = .ok (.ofNodes (s.data.map (bare .data) ++ s.checks.map s.joinedSite)) := by
  have hdata : (⟨.ofNodes [], .open⟩ : LatticeBuilder).addAll .data s.data =
      .ok ⟨.ofNodes (s.data.map (bare .data)), .open⟩ :=
    LatticeBuilder.addAll_ok [] .open .data (fun _ _ => rfl)
      (hp.places.sublist ((List.sublist_append_left _ _).map _))
  have hadd := addSites_ok (s.data.map (bare .data)) hp.places
  have hlength : (s.data.map (bare .data)).length = s.data.length + 0 := by rw [List.length_map, Nat.add_zero]
  have hjoin := joinSites_ok hp (s.data.map (bare .data)) (List.Subset.refl _) hlength rfl
  have hstart : LatticeBuilder.start s.boundary = .ok ⟨.ofNodes [], .open⟩ := by
    rw [hp.boundary]
    rfl
  rw [graph, hp.step]
  show (LatticeBuilder.start s.boundary >>= fun b => b.addAll .data s.data >>= _) = _
  rw [hstart]
  show ((⟨.ofNodes [], .open⟩ : LatticeBuilder).addAll .data s.data >>= _) = _
  rw [hdata]
  simp only [bind, Except.bind, pure, Except.pure] at hadd ⊢
  rw [hadd]
  simp only
  rw [hjoin]

/-- A graph has the sites of a description, in its order, and no other qubits. -/
def Lists (s : LatticeSpec) (g : Graph) : Prop :=
  g.nodes.toList.map place =
    s.data.map (fun c => (.data, some c)) ++ s.checks.map fun site => (.check site.basis, some site.coordinate)

theorem lists_of_sites (s : LatticeSpec) : s.Lists (.ofNodes (s.data.map (bare .data) ++ s.checks.map s.joinedSite)) := by
  show (s.data.map (bare .data) ++ s.checks.map s.joinedSite).map place = _
  rw [List.map_append, List.map_map, List.map_map]
  rfl

theorem find?_of_sites (s : LatticeSpec) (c : Coordinate) :
    (Graph.ofNodes (s.data.map (bare .data) ++ s.checks.map s.joinedSite)).find? c = (Graph.ofNodes s.apart).find? c := by
  refine LatticeBuilder.find?_congr ?_ c
  rw [apart, List.map_append, List.map_append, List.map_map, List.map_map, List.map_map]
  rfl

/-- On the plane the data qubit at a place is the one found there. -/
theorem dataAt_open (hopen : s.boundary = .open) {g : Graph} {c : Coordinate} {q : Qubit} (hfind : g.find? c = some q)
    (hdata : g.isData q = true) : s.dataAt g c = .ok q := by
  have hwrap : (s.boundary.wrap? c).bind g.find? = some q := by
    rw [hopen]
    exact hfind
  simp only [dataAt, hwrap, hdata, if_true]

theorem make_of_sites (hp : s.Plain) {params : CodeParams} (hparams : params.validate = .ok ()) {g : Graph}
    (hg : .ofNodes (s.data.map (bare .data) ++ s.checks.map s.joinedSite) = g) {l : Layout}
    (hl : Layout.ofGraph g s.bases s.policy = .ok l) {logical : List Qubit}
    (hlogical : s.logical.mapM (s.dataAt g) = .ok logical) (hne : logical ≠ []) :
    make params s = .ok ⟨s.name, params, g, l, logical⟩ := by
  have hgraph : s.graph = .ok g := (graph_of_sites hp).trans (congrArg Except.ok hg)
  have hempty : ¬logical.isEmpty = true := by
    rw [List.isEmpty_iff]
    exact hne
  simp only [make, hparams, hgraph, hl, hlogical, if_neg hempty, bind, Except.bind, pure, Except.pure]

end LatticeSpec

end QuantumMemory

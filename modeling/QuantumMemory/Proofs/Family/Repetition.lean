/-
  QuantumMemory.Proofs.Family.Repetition — the graph of the repetition code, written down.

  Everything stands on one diagonal: the data qubit `k` at `(k, k)`, and between it and the
  next a Z check that reaches it first and the next one second. `chain` is the graph with
  these nodes, and building the code's graph makes it (`graph_eq`) as long as the diagonal
  is in range. No two checks reach a data qubit at one order, so the code has a
  layout (`layout_total`).
-/

import QuantumMemory.Proofs.Family.Construction

namespace QuantumMemory

namespace Repetition

open LatticeBuilder (bare)

variable {d : Nat}

/-! ## Nodes -/

/-- The nodes before any are joined. -/
def apart (d : Nat) : List Node := (dataSites d).map (bare .data) ++ (checkSites d).map (bare (.check .z))

def checkNode (k : Nat) : Node := { bare (.check .z) ⟨2 * k + 1, 2 * k + 1⟩ with links := [⟨1, k⟩, ⟨2, k + 1⟩] }

def nodes (d : Nat) : List Node := (dataSites d).map (bare .data) ++ (List.range (d - 1)).map checkNode

def chain (d : Nat) : Graph := .ofNodes (nodes d)

theorem length_dataSites (d : Nat) : (dataSites d).length = d := by rw [dataSites, List.length_map, List.length_range]

theorem length_checkSites (d : Nat) : (checkSites d).length = d - 1 := by
  rw [checkSites, List.length_map, List.length_range]

theorem sites_nodup (d : Nat) : (dataSites d ++ checkSites d).Nodup := by
  refine List.nodup_append.mpr ⟨List.nodup_range.map fun i j he => ?_, List.nodup_range.map fun i j he => ?_,
    fun a ha b hb he => ?_⟩
  · obtain ⟨hx, -⟩ := Coordinate.mk.inj he
    omega
  · obtain ⟨hx, -⟩ := Coordinate.mk.inj he
    omega
  · obtain ⟨i, -, rfl⟩ := List.mem_map.mp ha
    obtain ⟨j, -, rfl⟩ := List.mem_map.mp hb
    obtain ⟨hx, -⟩ := Coordinate.mk.inj he
    omega

theorem places_nodup (d : Nat) : ((apart d).map (·.coordinate)).Nodup := by
  have hmap : (apart d).map (·.coordinate) = (dataSites d ++ checkSites d).map some := by
    simp only [apart, List.map_append, List.map_map]
    rfl
  rw [hmap]
  exact (sites_nodup d).map (Option.some_injective _)

theorem getElem?_apart {k : Nat} (hk : k < d) : (apart d)[k]? = some (bare .data ⟨2 * k, 2 * k⟩) := by
  have hlen : k < ((dataSites d).map (bare .data)).length := by rwa [List.length_map, length_dataSites]
  rw [apart, List.getElem?_append_left hlen, List.getElem?_map, dataSites, List.getElem?_map, List.getElem?_range hk]
  rfl

/-! ## Joining -/

theorem find?_apart {k : Nat} (hk : k < d) : (Graph.ofNodes (apart d)).find? ⟨2 * k, 2 * k⟩ = some k :=
  Graph.find?_eq_some (places_nodup d) (getElem?_apart hk) rfl

/-- Off the diagonal there is nothing. -/
theorem find?_off {x y : Int} (hne : x ≠ y) : (Graph.ofNodes (apart d)).find? ⟨x, y⟩ = none := by
  rw [Graph.find?_ofNodes, List.findIdx?_eq_none_iff]
  intro p hp
  rw [beq_eq_false_iff_ne]
  rintro rfl
  simp only [apart, dataSites, checkSites, List.map_append, List.map_map, List.mem_append, List.mem_map] at hp
  rcases hp with ⟨i, -, he⟩ | ⟨i, -, he⟩
  · obtain ⟨hx, hy⟩ := Coordinate.mk.inj (Option.some.inj he)
    exact hne (hx.symm.trans hy)
  · obtain ⟨hx, hy⟩ := Coordinate.mk.inj (Option.some.inj he)
    exact hne (hx.symm.trans hy)

theorem isData_apart {k : Nat} (hk : k < d) : (Graph.ofNodes (apart d)).isData k = true := by
  rw [Graph.isData_iff]
  refine ⟨bare .data ⟨2 * k, 2 * k⟩, ?_, rfl⟩
  rw [Graph.node?_ofNodes]
  exact getElem?_apart hk

section Joined

variable (hd : d ≤ 2 ^ 29)

include hd

theorem diagonalNeighbours_apart {k : Nat} (hk : k + 1 < d) :
    (⟨Graph.ofNodes (apart d), .open⟩ : LatticeBuilder).diagonalNeighbours ⟨2 * k + 1, 2 * k + 1⟩ 1 =
      [some k, none, none, some (k + 1)] := by
  have hback : (2 * k + 1 + -1 : Int) = 2 * k := by omega
  have hon : (2 * k + 1 + 1 : Int) = 2 * (k + 1 : Nat) := by omega
  rw [LatticeBuilder.diagonalNeighbours_open _ (by simp only; omega) (by simp only; omega)]
  simp only [diagonals, List.map_cons, List.map_nil]
  rw [hback, hon, find?_apart (by omega), find?_apart hk, find?_off (by omega), find?_off (by omega)]

theorem joined_check {k : Nat} (hk : k + 1 < d) :
    LatticeBuilder.joined ⟨Graph.ofNodes (apart d), .open⟩ directions (bare (.check .z) ⟨2 * k + 1, 2 * k + 1⟩) =
      checkNode k := by
  have hplan : (⟨Graph.ofNodes (apart d), .open⟩ : LatticeBuilder).diagonalPlan ⟨2 * k + 1, 2 * k + 1⟩ directions 1 =
      [(1, k), (2, k + 1)] := by
    simp only [LatticeBuilder.diagonalPlan, diagonalNeighbours_apart hd hk]
    simp [directions, List.zipIdx_cons, isData_apart (show k < d by omega), isData_apart hk]
  simp only [LatticeBuilder.joined, bare, hplan]
  rfl

theorem joined_checks :
    ((checkSites d).map (bare (.check .z))).map (LatticeBuilder.joined ⟨Graph.ofNodes (apart d), .open⟩ directions) =
      (List.range (d - 1)).map checkNode := by
  rw [checkSites, List.map_map, List.map_map]
  refine List.map_congr_left fun k hk => ?_
  rw [List.mem_range] at hk
  exact joined_check hd (by omega)

/-- What building the code's graph makes. -/
theorem graph_eq : graph d = .ok (chain d) := by
  have hplaces := places_nodup d
  have hdata : (⟨.ofNodes [], .open⟩ : LatticeBuilder).addAll .data (dataSites d) =
      .ok ⟨.ofNodes ((dataSites d).map (bare .data)), .open⟩ :=
    LatticeBuilder.addAll_ok [] .open .data (fun _ _ => rfl)
      (hplaces.sublist ((List.sublist_append_left _ _).map _))
  have hchecks := LatticeBuilder.addAll_ok _ .open (.check .z) (fun _ _ => rfl) hplaces
  have hbare : ∀ n ∈ (checkSites d).map (bare (.check .z)), n.role.isData = false ∧ n.links = [] ∧ n.coordinate ≠ none := by
    intro n hn
    obtain ⟨c, -, rfl⟩ := List.mem_map.mp hn
    exact ⟨rfl, rfl, Option.some_ne_none c⟩
  have hjoin := LatticeBuilder.joinAll_ok (by decide : isPermutation directions = true) (by decide) (apart d)
    ((dataSites d).map (bare .data)) ((checkSites d).map (bare (.check .z))) [] (by rw [List.append_nil, apart]) hbare
  rw [joined_checks hd, List.length_map, List.length_map, length_dataSites, length_checkSites, List.append_nil,
    List.append_nil] at hjoin
  have hstart : LatticeBuilder.start .open = .ok ⟨.ofNodes [], .open⟩ := rfl
  simp only [graph, hstart, hdata, hchecks, hjoin, bind, Except.bind, pure, Except.pure]
  rfl

theorem chain_built : (chain d).Built := (graph_data (graph_eq hd)).1

end Joined

/-! ## The schedule -/

theorem node_cases {q : Qubit} {n : Node} (h : (chain d).node? q = some n) :
    (n.role = .data ∧ q < d) ∨ ∃ k, q = d + k ∧ k < d - 1 ∧ n = checkNode k := by
  rw [chain, Graph.node?_ofNodes, nodes] at h
  have hlen : ((dataSites d).map (bare .data)).length = d := by rw [List.length_map, length_dataSites]
  rcases Nat.lt_or_ge q d with hlt | hge
  · rw [List.getElem?_append_left (by rwa [hlen]), List.getElem?_map] at h
    obtain ⟨c, -, rfl⟩ := Option.map_eq_some_iff.mp h
    exact .inl ⟨rfl, hlt⟩
  · rw [List.getElem?_append_right (by rwa [hlen]), hlen, List.getElem?_map] at h
    obtain ⟨k, hk, rfl⟩ := Option.map_eq_some_iff.mp h
    obtain ⟨hlt, hget⟩ := List.getElem?_eq_some_iff.mp hk
    rw [List.getElem_range] at hget
    rw [List.length_range, hget] at hlt
    exact .inr ⟨k, by rw [← hget, Nat.add_sub_cancel' hge], hlt, rfl⟩

theorem check_stands {b : CheckBasis} {q : Qubit} (h : q ∈ (chain d).checkQubits b) :
    ∃ k, q = d + k ∧ b = .z ∧ (chain d).links q = [⟨1, k⟩, ⟨2, k + 1⟩] := by
  obtain ⟨n, hn, hr⟩ := Graph.mem_checkQubits.mp h
  rcases node_cases hn with ⟨hdata, -⟩ | ⟨k, hq, -, rfl⟩
  · rw [hr] at hdata
    cases hdata
  · cases hr
    exact ⟨k, hq, rfl, Graph.links_of_node hn⟩

theorem chain_declares : Layout.Declares [.z] (chain d) := by
  intro q n b hn hr
  obtain ⟨k, -, rfl, -⟩ := check_stands (Graph.mem_checkQubits.mpr ⟨n, hn, hr⟩)
  exact ⟨by decide, by decide⟩

theorem chain_noConflict (hs : (chain d).Sound) : Layout.NoConflict (chain d) [.z] := by
  -- Of a check's data qubit and the order it is reached at, each gives the check.
  have hplace : ∀ {i k : Nat} {data : Qubit}, ⟨k, data⟩ ∈ [Link.mk 1 i, Link.mk 2 (i + 1)] → i + k = data + 1 := by
    intro i k data hlink
    simp only [List.mem_cons, Link.mk.injEq, List.not_mem_nil, or_false] at hlink
    rcases hlink with ⟨rfl, rfl⟩ | ⟨rfl, rfl⟩ <;> rfl
  refine Layout.noConflict_of_reach hs (by decide) fun b b' c c' k data hc hc' hlink hlink' => ?_
  obtain ⟨i, rfl, -, hlinks⟩ := check_stands hc
  obtain ⟨j, rfl, -, hlinks'⟩ := check_stands hc'
  rw [hlinks] at hlink
  rw [hlinks'] at hlink'
  rw [Nat.add_right_cancel ((hplace hlink).trans (hplace hlink').symm)]

theorem chain_size (d : Nat) : (chain d).size = d + (d - 1) := by
  rw [chain, Graph.size_ofNodes, nodes, List.length_append, List.length_map, List.length_map, length_dataSites,
    List.length_range]

theorem layout_of_built (hb : (chain d).Built) : ∃ l, Layout.ofGraph (chain d) [.z] .emit = .ok l :=
  Layout.ofGraph_total chain_declares (chain_noConflict hb.sound) .emit

/-- The code has a layout at every distance in range. -/
theorem layout_total (hd : d ≤ 1000000) : ∃ l, Layout.ofGraph (chain d) [.z] .emit = .ok l :=
  layout_of_built (chain_built (by omega))

theorem make_of_graph {params : CodeParams} (hp : params.validate = .ok ()) (h2 : 2 ≤ params.distance)
    (hg : graph params.distance = .ok (chain params.distance)) {l : Layout}
    (hl : Layout.ofGraph (chain params.distance) [.z] .emit = .ok l) :
    make params = .ok ⟨"repetition", params, chain params.distance, l, [0]⟩ := by
  simp only [make, hp, hg, hl, if_neg (Nat.not_lt.mpr h2), bind, Except.bind, pure, Except.pure]

theorem make_eq {params : CodeParams} (hp : params.validate = .ok ()) (h2 : 2 ≤ params.distance)
    (hd : params.distance ≤ 1000000) {l : Layout} (hl : Layout.ofGraph (chain params.distance) [.z] .emit = .ok l) :
    make params = .ok ⟨"repetition", params, chain params.distance, l, [0]⟩ :=
  make_of_graph hp h2 (graph_eq (by omega)) hl

end Repetition

end QuantumMemory

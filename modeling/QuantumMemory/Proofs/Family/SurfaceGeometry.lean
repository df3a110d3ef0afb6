/-
  QuantumMemory.Proofs.Family.SurfaceGeometry — where the qubits of the rotated surface code
  stand, and what its checks share.

  A check is joined to two cells or four around its corner (`weight_eq`), and every cell has
  a check of either basis at one of its corners (`covered`). Corners of an X check and a Z check
  differ in parity, so cells around both lie on the line between two neighbouring
  corners: there are none or two (`around_both`), and the X check reaches both before the Z check
  does or both after it (`shared_turn`).
-/

import QuantumMemory.Proofs.Family.SurfaceBoard
import QuantumMemory.Proofs.Graph.Incidence

namespace QuantumMemory

namespace RotatedSurface

open LatticeBuilder (bare)

variable {d : Nat}

/-! ## Numbers -/

theorem length_xCorners (hodd : d % 2 = 1) : (xCorners d).length = (d * d - 1) / 2 := by
  obtain ⟨m, rfl⟩ : ∃ m, d = 2 * m + 1 := ⟨d / 2, by omega⟩
  have h1 : (2 * m + 1 - 1) / 2 = m := by omega
  have h2 : (2 * m + 1) * (2 * m + 1) = 2 * ((2 * m + 1 + 1) * m) + 1 := by ring
  rw [xCorners, length_grid, h1, h2]
  omega

theorem length_zCorners (hodd : d % 2 = 1) : (zCorners d).length = (d * d - 1) / 2 := by
  obtain ⟨m, rfl⟩ : ∃ m, d = 2 * m + 1 := ⟨d / 2, by omega⟩
  have h1 : (2 * m + 1 + 1) / 2 = m + 1 := by omega
  have h2 : (2 * m + 1) * (2 * m + 1) = 2 * (2 * m * (m + 1)) + 1 := by ring
  rw [zCorners, length_grid, h1, h2, Nat.add_sub_cancel]
  omega

theorem role_data : ∀ n ∈ (dataSites d).map (bare .data), n.role = .data := by
  intro n hn
  obtain ⟨c, -, rfl⟩ := List.mem_map.mp hn
  rfl

theorem role_xNode : ∀ n ∈ (xCorners d).map fun (c, r) => xNode d c r, n.role = .check .x := by
  intro n hn
  obtain ⟨p, -, rfl⟩ := List.mem_map.mp hn
  rfl

theorem role_zNode : ∀ n ∈ (zCorners d).map fun (c, r) => zNode d c r, n.role = .check .z := by
  intro n hn
  obtain ⟨p, -, rfl⟩ := List.mem_map.mp hn
  rfl

theorem dataQubits_surface : (surface d).dataQubits = List.range (d * d) := by
  have hrun : (surface d).dataQubits = _ := Graph.qubitsWhere_run [] _ _ (List.forall_mem_nil _)
    (fun n hn => by rw [role_data n hn]; rfl) fun n hn => by
      rcases List.mem_append.mp hn with h | h
      · rw [role_xNode n h]
        rfl
      · rw [role_zNode n h]
        rfl
  rwa [List.length_map, length_dataSites, List.length_nil, ← List.range_eq_range'] at hrun

theorem xChecks_surface (hodd : d % 2 = 1) :
    (surface d).checkQubits .x = List.range' (d * d) ((d * d - 1) / 2) := by
  have hrun : (surface d).checkQubits .x = _ := Graph.qubitsWhere_run _ _ _ (fun n hn => by rw [role_data n hn]; rfl)
    (fun n hn => by rw [role_xNode n hn]; rfl) fun n hn => by rw [role_zNode n hn]; rfl
  rwa [List.length_map, List.length_map, length_dataSites, length_xCorners hodd] at hrun

theorem zChecks_surface (hodd : d % 2 = 1) :
    (surface d).checkQubits .z = List.range' (d * d + (d * d - 1) / 2) ((d * d - 1) / 2) := by
  have hnodes : nodes d = ((dataSites d).map (bare .data) ++ (xCorners d).map fun (c, r) => xNode d c r) ++
      ((zCorners d).map (fun (c, r) => zNode d c r) ++ []) := by
    rw [nodes, List.append_nil, List.append_assoc]
  rw [surface, hnodes]
  refine (Graph.qubitsWhere_run _ _ _ (fun n hn => ?_) (fun n hn => ?_) (List.forall_mem_nil _)).trans ?_
  · rcases List.mem_append.mp hn with h | h
    · rw [role_data n h]
      rfl
    · rw [role_xNode n h]
      rfl
  · rw [role_zNode n hn]
    rfl
  · rw [List.length_append, List.length_map, List.length_map, List.length_map, length_dataSites, length_xCorners hodd,
      length_zCorners hodd]

/-! ## Weights -/

/-- A check that is joined in two pairs, one of which may be missing. -/
theorem length_pairs {α : Type} {p q : Prop} [Decidable p] [Decidable q] (h : p ∨ q) (x y x' y' : α) :
    ((if p then [x, y] else []) ++ if q then [x', y'] else []).length = 2 ∨
      ((if p then [x, y] else []) ++ if q then [x', y'] else []).length = 4 := by
  by_cases hp : p
  · rw [if_pos hp]
    by_cases hq : q
    · rw [if_pos hq]
      exact .inr rfl
    · rw [if_neg hq]
      exact .inl rfl
  · rw [if_neg hp, if_pos (h.resolve_left hp)]
    exact .inl rfl

theorem weight_eq {b : CheckBasis} {c : Qubit} (hodd : d % 2 = 1) (hc : c ∈ (surface d).checkQubits b) :
    ((surface d).support c).length = 2 ∨ ((surface d).support c).length = 4 := by
  obtain ⟨col, row, hs⟩ := check_stands hc
  rw [Graph.support_check (Graph.not_isData_of_check hc), List.length_map, hs.links]
  cases b with
  | x =>
    obtain ⟨h1, h2, h3, -⟩ := (mem_xCorners hodd).mp hs.corner
    exact length_pairs (by omega) _ _ _ _
  | z =>
    obtain ⟨h1, h2, h3, -⟩ := (mem_zCorners hodd).mp hs.corner
    exact length_pairs (by omega) _ _ _ _
  | y => cases hs.corner

/-- Of the corners of a cell, some X check and some Z check stand at one. -/
theorem exists_corner (hodd : d % 2 = 1) (h3 : 3 ≤ d) {col row : Nat} (hcol : col < d) (hrow : row < d) :
    (∃ c r, (c, r) ∈ corners d .x ∧ Around c r col row) ∧ ∃ c r, (c, r) ∈ corners d .z ∧ Around c r col row := by
  have hx : ∀ c r, (c, r) ∈ corners d .x ↔ _ := fun c r => mem_xCorners hodd
  have hz : ∀ c r, (c, r) ∈ corners d .z ↔ _ := fun c r => mem_zCorners hodd
  simp only [hx, hz, Around]
  by_cases hsame : col % 2 = row % 2
  · refine ⟨?_, ?_⟩
    · by_cases hfirst : col = 0
      · exact ⟨col + 1, row + 1, by omega, by omega⟩
      · exact ⟨col, row, by omega, by omega⟩
    · by_cases hfirst : row = 0
      · exact ⟨col, row + 1, by omega, by omega⟩
      · exact ⟨col + 1, row, by omega, by omega⟩
  · refine ⟨?_, ?_⟩
    · by_cases hfirst : col = 0
      · exact ⟨col + 1, row, by omega, by omega⟩
      · exact ⟨col, row + 1, by omega, by omega⟩
    · by_cases hfirst : row = 0
      · exact ⟨col + 1, row + 1, by omega, by omega⟩
      · exact ⟨col, row, by omega, by omega⟩

/-- Every data qubit is in a check of either basis. -/
theorem covered (hodd : d % 2 = 1) (h3 : 3 ≤ d) {q : Qubit} (hq : q < d * d) :
    (∃ x ∈ (surface d).checkQubits .x, q ∈ (surface d).support x) ∧
      ∃ z ∈ (surface d).checkQubits .z, q ∈ (surface d).support z := by
  obtain ⟨col, row, hcol, hrow, rfl⟩ := exists_cell hq
  obtain ⟨⟨c, r, hc, ha⟩, c', r', hc', ha'⟩ := exists_corner hodd h3 hcol hrow
  obtain ⟨x, hx, hs⟩ := exists_standing hc
  obtain ⟨z, hz, hs'⟩ := exists_standing hc'
  exact ⟨⟨x, hx, (hs.mem_support hodd hcol hrow).mpr ha⟩, z, hz, (hs'.mem_support hodd hcol hrow).mpr ha'⟩

/-! ## What checks share -/

/-- Around two corners of different bases there are no cells or two. -/
theorem around_both (hodd : d % 2 = 1) {c r c' r' : Nat} (hx : (c, r) ∈ corners d .x) (hz : (c', r') ∈ corners d .z) :
    (∀ col row, ¬(Around c r col row ∧ Around c' r' col row)) ∨
      ∃ p p' : Nat × Nat, p ≠ p' ∧ p.1 < d ∧ p.2 < d ∧ p'.1 < d ∧ p'.2 < d ∧
        ∀ col row, Around c r col row ∧ Around c' r' col row ↔ (col, row) = p ∨ (col, row) = p' := by
  obtain ⟨h1, h2, h3, h4⟩ := (mem_xCorners hodd).mp hx
  obtain ⟨h1', h2', h3', h4'⟩ := (mem_zCorners hodd).mp hz
  have hpair : ∀ (col row col' row' : Nat), (col ≠ col' ∨ row ≠ row') → col < d → row < d → col' < d → row' < d →
      (∀ u v, Around c r u v ∧ Around c' r' u v ↔ (u = col ∧ v = row) ∨ u = col' ∧ v = row') →
      ∃ p p' : Nat × Nat, p ≠ p' ∧ p.1 < d ∧ p.2 < d ∧ p'.1 < d ∧ p'.2 < d ∧
        ∀ u v, Around c r u v ∧ Around c' r' u v ↔ (u, v) = p ∨ (u, v) = p' := by
    intro col row col' row' hne hcol hrow hcol' hrow' h
    refine ⟨(col, row), (col', row'), fun he => ?_, hcol, hrow, hcol', hrow', fun u v => ?_⟩
    · obtain ⟨he1, he2⟩ := Prod.mk.inj he
      omega
    · rw [h, Prod.mk.injEq, Prod.mk.injEq]
  unfold Around at hpair ⊢
  by_cases hbelow : c = c' ∧ r' = r + 1
  · exact .inr (hpair (c - 1) r c r (by omega) (by omega) (by omega) (by omega) (by omega) (by omega))
  by_cases habove : c = c' ∧ r = r' + 1
  · exact .inr (hpair (c - 1) (r - 1) c (r - 1) (by omega) (by omega) (by omega) (by omega) (by omega) (by omega))
  by_cases hright : r = r' ∧ c' = c + 1
  · exact .inr (hpair c (r - 1) c r (by omega) (by omega) (by omega) (by omega) (by omega) (by omega))
  by_cases hleft : r = r' ∧ c = c' + 1
  · exact .inr (hpair (c - 1) (r - 1) (c - 1) r (by omega) (by omega) (by omega) (by omega) (by omega) (by omega))
  · exact .inl fun col row h => by omega

section Joined

variable (hodd : d % 2 = 1) (hd : d ≤ 30000)

include hodd hd

theorem mem_shared_cell {x z : Qubit} {c r c' r' : Nat} (hx : x ∈ (surface d).checkQubits .x) (hs : StandsAt d .x x c r)
    (hs' : StandsAt d .z z c' r') {q : Qubit} :
    q ∈ (surface d).shared x z ↔
      ∃ col row, col < d ∧ row < d ∧ q = row * d + col ∧ Around c r col row ∧ Around c' r' col row := by
  rw [Graph.mem_shared]
  constructor
  · intro h
    obtain ⟨col, row, hcol, hrow, rfl⟩ := exists_cell (support_lt hodd hd hx h.1)
    exact ⟨col, row, hcol, hrow, rfl, (hs.mem_support hodd hcol hrow).mp h.1, (hs'.mem_support hodd hcol hrow).mp h.2⟩
  · intro h
    obtain ⟨col, row, hcol, hrow, rfl, ha, ha'⟩ := h
    exact ⟨(hs.mem_support hodd hcol hrow).mpr ha, (hs'.mem_support hodd hcol hrow).mpr ha'⟩

theorem shared_length {x z : Qubit} (hx : x ∈ (surface d).checkQubits .x) (hz : z ∈ (surface d).checkQubits .z) :
    ((surface d).shared x z).length = 0 ∨ ((surface d).shared x z).length = 2 := by
  obtain ⟨c, r, hs⟩ := check_stands hx
  obtain ⟨c', r', hs'⟩ := check_stands hz
  have hmem := @mem_shared_cell d hodd hd x z c r c' r' hx hs hs'
  rcases around_both hodd hs.corner hs'.corner with hnone | ⟨p, p', hne, h1, h2, h1', h2', hboth⟩
  · left
    rw [List.length_eq_zero_iff, List.eq_nil_iff_forall_not_mem]
    intro q hq
    obtain ⟨col, row, -, -, -, ha⟩ := hmem.mp hq
    exact hnone col row ha
  · right
    have hapart : p.2 * d + p.1 ≠ p'.2 * d + p'.1 := by
      intro he
      obtain ⟨hrow, hcol⟩ := (cell_eq h1 h1').mp he
      exact hne (Prod.ext hcol hrow)
    have hperm : ((surface d).shared x z).Perm [p.2 * d + p.1, p'.2 * d + p'.1] := by
      refine (List.perm_ext_iff_of_nodup ((support_nodup hodd hd hx).filter _) (by simp [hapart])).mpr fun q => ?_
      refine hmem.trans ?_
      rw [List.mem_pair]
      constructor
      · intro h
        obtain ⟨col, row, -, -, rfl, ha⟩ := h
        rcases (hboth col row).mp ha with rfl | rfl
        · exact .inl rfl
        · exact .inr rfl
      · intro h
        rcases h with rfl | rfl
        · exact ⟨p.1, p.2, h1, h2, rfl, (hboth p.1 p.2).mpr (.inl rfl)⟩
        · exact ⟨p'.1, p'.2, h1', h2', rfl, (hboth p'.1 p'.2).mpr (.inr rfl)⟩
    exact hperm.length_eq

theorem shared_turn {x z : Qubit} (hx : x ∈ (surface d).checkQubits .x) (hz : z ∈ (surface d).checkQubits .z) :
    (∀ i ∈ (surface d).interactions x, ∀ j ∈ (surface d).interactions z, i.2 = j.2 → i.1 < j.1) ∨
      ∀ i ∈ (surface d).interactions x, ∀ j ∈ (surface d).interactions z, i.2 = j.2 → j.1 < i.1 := by
  obtain ⟨c, r, hs⟩ := check_stands hx
  obtain ⟨c', r', hs'⟩ := check_stands hz
  have horders : ∀ l ∈ (surface d).links x, ∀ l' ∈ (surface d).links z, l.data = l'.data → ∃ col row,
      Around c r col row ∧ Around c' r' col row ∧ l.order = turn .x c r col row ∧ l'.order = turn .z c' r' col row := by
    intro l hl l' hl' he
    have hdata := (surface_built hodd hd).sound.link_isData hl
    obtain ⟨k, q⟩ := l
    obtain ⟨k', q'⟩ := l'
    cases he
    obtain ⟨col, row, hcol, hrow, rfl⟩ := exists_cell (mem_data.mp (Graph.mem_dataQubits.mpr hdata))
    rw [hs.links, link_iff hodd hs.corner hcol hrow] at hl
    rw [hs'.links, link_iff hodd hs'.corner hcol hrow] at hl'
    exact ⟨col, row, hl.1, hl'.1, hl.2, hl'.2⟩
  rw [Graph.interactions_check (Graph.not_isData_of_check hx), Graph.interactions_check (Graph.not_isData_of_check hz)]
  simp only [List.forall_mem_map]
  rcases sameTurn hodd hs.corner hs'.corner with hturn | hturn
  · left
    intro l hl l' hl' he
    obtain ⟨col, row, ha, ha', ho, ho'⟩ := horders l hl l' hl' he
    rw [ho, ho']
    exact hturn col row ha ha'
  · right
    intro l hl l' hl' he
    obtain ⟨col, row, ha, ha', ho, ho'⟩ := horders l hl l' hl' he
    rw [ho, ho']
    exact hturn col row ha ha'

omit hd in
/-- An X check on the diagonal has two of its cells, and any other has none. -/
theorem diagonal_even {x : Qubit} (hx : x ∈ (surface d).checkQubits .x) :
    Even ((logical d).filter (· ∈ (surface d).support x)).length := by
  obtain ⟨c, r, hs⟩ := check_stands hx
  obtain ⟨h1, h2, h3, h4⟩ := (mem_xCorners hodd).mp hs.corner
  have hfilter : ((logical d).filter (· ∈ (surface d).support x)).length =
      ((List.range d).filter fun i => decide (Around c r i i)).length := by
    rw [logical, List.filter_map, List.length_map]
    refine congrArg _ (List.filter_congr fun i hi => ?_)
    have hlt := List.mem_range.mp hi
    simp only [Function.comp_apply, decide_eq_decide, Nat.add_comm i]
    exact hs.mem_support hodd hlt hlt
  rw [hfilter]
  by_cases hdiagonal : c = r
  · have hperm : ((List.range d).filter fun i => decide (Around c r i i)).Perm [c - 1, c] := by
      have hne : c - 1 ≠ c := by omega
      refine (List.perm_ext_iff_of_nodup (List.nodup_range.filter _) (by simp [hne])).mpr fun i => ?_
      rw [List.mem_filter, List.mem_range, decide_eq_true_eq, List.mem_pair]
      unfold Around
      omega
    rw [hperm.length_eq]
    exact even_two
  · have hnil : ((List.range d).filter fun i => decide (Around c r i i)) = [] := by
      rw [List.filter_eq_nil_iff]
      intro i _
      rw [decide_eq_true_eq]
      unfold Around
      omega
    rw [hnil]
    exact Even.zero

end Joined

/-! ## The whole code -/

/-- The qubits of the rotated surface code by their numbers, data, then X checks and then Z
    checks, where the data qubits stand, and how the checks and the logical operator meet. -/
structure Geometry (d : Nat) (g : Graph) (logical : List Qubit) : Prop where
  size : g.size + 1 = 2 * (d * d)
  data : g.dataQubits = List.range (d * d)
  places : ∀ col row, 1 ≤ col → col ≤ d → 1 ≤ row → row ≤ d →
    ∃ n, g.node? ((row - 1) * d + (col - 1)) = some n ∧ n.coordinate = some ⟨2 * col, 2 * row⟩
  xChecks : g.checkQubits .x = List.range' (d * d) ((d * d - 1) / 2)
  zChecks : g.checkQubits .z = List.range' (d * d + (d * d - 1) / 2) ((d * d - 1) / 2)
  weights : ∀ b, ∀ c ∈ g.checkQubits b, (g.support c).Nodup ∧ ((g.support c).length = 2 ∨ (g.support c).length = 4)
  covers : ∀ q ∈ g.dataQubits, (∃ x ∈ g.checkQubits .x, q ∈ g.support x) ∧ ∃ z ∈ g.checkQubits .z, q ∈ g.support z
  shares : ∀ x ∈ g.checkQubits .x, ∀ z ∈ g.checkQubits .z,
    (g.shared x z).length = 0 ∨ (g.shared x z).length = 2 ∧
      ((∀ i ∈ g.interactions x, ∀ j ∈ g.interactions z, i.2 = j.2 → i.1 < j.1) ∨
        ∀ i ∈ g.interactions x, ∀ j ∈ g.interactions z, i.2 = j.2 → j.1 < i.1)
  diagonal : logical = (List.range d).map fun i => i + i * d
  crossings : ∀ x ∈ g.checkQubits .x, Even (logical.filter (· ∈ g.support x)).length

theorem surface_geometry (h3 : 3 ≤ d) (hodd : d % 2 = 1) (hd : d ≤ 30000) :
    Geometry d (surface d) (logical d) where
  size := surface_size hodd
  data := dataQubits_surface
  places := by
    intro col row h1 h2 h1' h2'
    refine ⟨_, node?_cell (by omega) (by omega), ?_⟩
    simp only [bare, dataPlace, Option.some.injEq, Coordinate.mk.injEq]
    omega
  xChecks := xChecks_surface hodd
  zChecks := zChecks_surface hodd
  weights := fun b c hc => ⟨support_nodup hodd hd hc, weight_eq hodd hc⟩
  covers := fun q hq => covered hodd h3 (mem_data.mp hq)
  shares := fun x hx z hz => (shared_length hodd hd hx hz).imp id fun h => ⟨h, shared_turn hodd hd hx hz⟩
  diagonal := rfl
  crossings := fun x hx => diagonal_even hodd hx

/-- At every odd distance the code can be made, and its graph has this geometry. -/
theorem make_geometry {params : CodeParams} (hp : params.validate = .ok ()) (h3 : 3 ≤ params.distance)
    (hodd : params.distance % 2 = 1) (hd : params.distance ≤ 30000) :
    ∃ code, make params = .ok code ∧ Geometry params.distance code.graph code.logical := by
  obtain ⟨l, hl⟩ := layout_total hodd hd
  exact ⟨_, make_eq hp h3 hodd hd hl, surface_geometry h3 hodd hd⟩

/-- At distance 3 an X check of weight 4 and a Z check of weight 2 share data qubits 3 and 0,
    and the X check reaches both first. -/
theorem make_geometry_three :
    ∃ code, make ⟨3, .one, .one⟩ = .ok code ∧ Geometry 3 code.graph code.logical ∧
      code.graph.interactions 10 = [(1, 3), (2, 4), (3, 0), (4, 1)] ∧ code.graph.interactions 13 = [(3, 3), (4, 0)] ∧
      code.graph.shared 10 13 = [3, 0] := by
  obtain ⟨code, hmake, hgeometry⟩ := make_geometry (by rfl : CodeParams.validate ⟨3, .one, .one⟩ = .ok ()) (by decide)
    (by decide) (by decide)
  have hrun : (make ⟨3, .one, .one⟩).toOption.any (fun code =>
      code.graph.interactions 10 = [(1, 3), (2, 4), (3, 0), (4, 1)] ∧ code.graph.interactions 13 = [(3, 3), (4, 0)] ∧
        code.graph.shared 10 13 = [3, 0]) = true := by decide +kernel
  rw [hmake] at hrun
  simp only [Except.toOption, Option.any_some, decide_eq_true_eq] at hrun
  exact ⟨code, hmake, hgeometry, hrun⟩

end RotatedSurface

end QuantumMemory

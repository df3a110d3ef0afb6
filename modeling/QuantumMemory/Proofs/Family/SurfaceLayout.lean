/-
  QuantumMemory.Proofs.Family.SurfaceLayout — the schedule of the rotated surface code.

  Every check of `surface` stands at a corner of its basis (`check_stands`) and is joined to the
  cells around that, in an order that the side of the cell gives (`link_iff`). Corners of an X check
  and a Z check that share a cell are neighbours, and one of the two checks reaches what
  they share before the other does (`sameTurn`); of one basis no two corners reach a cell at one
  order. So no data qubit is used twice (`surface_noConflict`), and the code has a layout
  (`layout_total`).
-/

import QuantumMemory.Proofs.Family.Surface
import QuantumMemory.Proofs.Graph.Layout

namespace QuantumMemory

namespace RotatedSurface

open LatticeBuilder (bare)

variable {d : Nat}

/-! ## Nodes by their numbers -/

theorem node?_surface (d : Nat) (q : Qubit) : (surface d).node? q = (nodes d)[q]? := Graph.node?_ofNodes _ q

theorem node?_cell {col row : Nat} (hcol : col < d) (hrow : row < d) :
    (surface d).node? (row * d + col) = some (bare .data (dataPlace col row)) := by
  have hlen : row * d + col < ((dataSites d).map (bare .data)).length := by
    rw [List.length_map, length_dataSites]
    exact row_lt hcol hrow
  rw [node?_surface, nodes, List.getElem?_append_left hlen, List.getElem?_map, getElem?_dataSites hcol hrow,
    Option.map_some]

theorem surface_size (hodd : d % 2 = 1) : (surface d).size + 1 = 2 * (d * d) := by
  obtain ⟨m, rfl⟩ : ∃ m, d = 2 * m + 1 := ⟨d / 2, by omega⟩
  have h1 : (2 * m + 1 - 1) / 2 = m := by omega
  have h2 : (2 * m + 1 + 1) / 2 = m + 1 := by omega
  have h3 : 2 * m + 1 - 1 = 2 * m := by omega
  rw [surface, Graph.size_ofNodes, nodes, List.length_append, List.length_append, List.length_map, List.length_map,
    List.length_map, length_dataSites, xCorners, zCorners, length_grid, length_grid, h1, h2, h3]
  ring

/-- Every node is a cell or a check at a corner. -/
theorem node_cases {q : Qubit} {n : Node} (h : (surface d).node? q = some n) :
    (n.role = .data ∧ q < d * d) ∨ (∃ c r, (c, r) ∈ xCorners d ∧ n = xNode d c r) ∨
      ∃ c r, (c, r) ∈ zCorners d ∧ n = zNode d c r := by
  rw [node?_surface, nodes] at h
  rcases Nat.lt_or_ge q (d * d) with hlt | hge
  · rw [List.getElem?_append_left (by rwa [List.length_map, length_dataSites]), List.getElem?_map] at h
    obtain ⟨c, -, rfl⟩ := Option.map_eq_some_iff.mp h
    exact .inl ⟨rfl, hlt⟩
  · rw [List.getElem?_append_right (by rwa [List.length_map, length_dataSites])] at h
    rcases List.mem_append.mp (List.mem_of_getElem? h) with hn | hn
    · obtain ⟨⟨c, r⟩, hc, rfl⟩ := List.mem_map.mp hn
      exact .inr (.inl ⟨c, r, hc, rfl⟩)
    · obtain ⟨⟨c, r⟩, hc, rfl⟩ := List.mem_map.mp hn
      exact .inr (.inr ⟨c, r, hc, rfl⟩)

theorem mem_data {q : Qubit} : q ∈ (surface d).dataQubits ↔ q < d * d := by
  rw [Graph.mem_dataQubits, Graph.isData_iff]
  constructor
  · intro h
    obtain ⟨n, hn, hr⟩ := h
    rcases node_cases hn with ⟨-, hlt⟩ | ⟨c, r, -, rfl⟩ | ⟨c, r, -, rfl⟩
    · exact hlt
    · cases hr
    · cases hr
  · intro h
    have hd : 0 < d := Nat.pos_of_ne_zero fun h0 => by subst h0; simp at h
    have hq : q / d * d + q % d = q := by rw [Nat.mul_comm, Nat.div_add_mod]
    have hnode := node?_cell (Nat.mod_lt q hd) (Nat.div_lt_of_lt_mul h)
    rw [hq] at hnode
    exact ⟨_, hnode, rfl⟩

/-! ## Checks at their corners -/

/-- The corners of the checks of a basis. -/
def corners (d : Nat) : CheckBasis → List (Nat × Nat)
  | .x => xCorners d
  | .z => zCorners d
  | .y => []

def cornerLinks (d : Nat) : CheckBasis → Nat → Nat → List Link
  | .x => xLinks d
  | .z => zLinks d
  | .y => fun _ _ => []

def cornerNode (d : Nat) (b : CheckBasis) (c r : Nat) : Node :=
  { bare (.check b) (cornerPlace c r) with links := cornerLinks d b c r }

/-- The qubit is the check of a basis at a corner. -/
structure StandsAt (d : Nat) (b : CheckBasis) (q : Qubit) (c r : Nat) : Prop where
  corner : (c, r) ∈ corners d b
  node : (surface d).node? q = some (cornerNode d b c r)

theorem check_stands {b : CheckBasis} {q : Qubit} (h : q ∈ (surface d).checkQubits b) : ∃ c r, StandsAt d b q c r := by
  obtain ⟨n, hn, hr⟩ := Graph.mem_checkQubits.mp h
  rcases node_cases hn with ⟨hdata, -⟩ | ⟨c, r, hc, rfl⟩ | ⟨c, r, hc, rfl⟩
  · rw [hr] at hdata
    cases hdata
  · cases hr
    exact ⟨c, r, hc, hn⟩
  · cases hr
    exact ⟨c, r, hc, hn⟩

theorem cornerNode_mem {b : CheckBasis} {c r : Nat} (h : (c, r) ∈ corners d b) : cornerNode d b c r ∈ nodes d := by
  cases b with
  | x => exact List.mem_append_right _ (List.mem_append_left _ (List.mem_map.mpr ⟨(c, r), h, rfl⟩))
  | z => exact List.mem_append_right _ (List.mem_append_right _ (List.mem_map.mpr ⟨(c, r), h, rfl⟩))
  | y => cases h

theorem exists_standing {b : CheckBasis} {c r : Nat} (h : (c, r) ∈ corners d b) :
    ∃ q ∈ (surface d).checkQubits b, StandsAt d b q c r := by
  obtain ⟨q, hq⟩ := List.mem_iff_getElem?.mp (cornerNode_mem h)
  rw [← node?_surface] at hq
  exact ⟨q, Graph.mem_checkQubits.mpr ⟨_, hq, rfl⟩, h, hq⟩

theorem StandsAt.links {b : CheckBasis} {q : Qubit} {c r : Nat} (h : StandsAt d b q c r) :
    (surface d).links q = cornerLinks d b c r := Graph.links_of_node h.node

/-! ## Cells around a corner -/

def Around (c r col row : Nat) : Prop := (col = c ∨ col + 1 = c) ∧ (row = r ∨ row + 1 = r)

instance (c r col row : Nat) : Decidable (Around c r col row) := inferInstanceAs (Decidable (_ ∧ _))

/-- The order in which a check at a corner reaches a cell: an X check the lower row first, a Z
    check the left column. -/
def turn : CheckBasis → Nat → Nat → Nat → Nat → Nat
  | .x, c, r, col, row => (if row = r then 0 else 2) + if col = c then 2 else 1
  | .z, c, r, col, row => (if col = c then 2 else 0) + if row = r then 1 else 2
  | .y, _, _, _, _ => 0

theorem turn_x {c r col row : Nat} (h : Around c r col row) : turn .x c r col row + c + 2 * row = 2 * r + 2 + col := by
  unfold Around at h
  simp only [turn]
  split <;> split <;> omega

theorem turn_z {c r col row : Nat} (h : Around c r col row) : turn .z c r col row + 2 * c + row = 2 * col + 3 + r := by
  unfold Around at h
  simp only [turn]
  split <;> split <;> omega

theorem link_iff (hodd : d % 2 = 1) {b : CheckBasis} {c r col row k : Nat} (hc : (c, r) ∈ corners d b) (hcol : col < d)
    (hrow : row < d) :
    ⟨k, row * d + col⟩ ∈ cornerLinks d b c r ↔ Around c r col row ∧ k = turn b c r col row := by
  cases b with
  | x =>
    obtain ⟨h1, h2, h3, -⟩ := (mem_xCorners hodd).mp hc
    obtain ⟨m, rfl⟩ : ∃ m, c = m + 1 := ⟨c - 1, by omega⟩
    simp only [cornerLinks, xLinks, Around, turn, List.mem_append, Nat.add_sub_cancel]
    by_cases hlow : r < d <;> by_cases hup : 1 ≤ r
    all_goals
      simp (disch := omega) only [hlow, hup, if_true, if_false, List.mem_cons, Link.mk.injEq, List.not_mem_nil, or_false,
        false_or, cell_eq]
      split <;> split <;> omega
  | z =>
    obtain ⟨h1, h2, h3, -⟩ := (mem_zCorners hodd).mp hc
    obtain ⟨m, rfl⟩ : ∃ m, r = m + 1 := ⟨r - 1, by omega⟩
    simp only [cornerLinks, zLinks, Around, turn, List.mem_append, Nat.add_sub_cancel]
    by_cases hleft : 1 ≤ c <;> by_cases hright : c < d
    all_goals
      simp (disch := omega) only [hleft, hright, if_true, if_false, List.mem_cons, Link.mk.injEq, List.not_mem_nil,
        or_false, false_or, cell_eq]
      split <;> split <;> omega
  | y => cases hc

/-- An X check and a Z check reach what both are around in an order that only their corners
    decide. -/
theorem sameTurn (hodd : d % 2 = 1) {c r c' r' : Nat} (hx : (c, r) ∈ corners d .x) (hz : (c', r') ∈ corners d .z) :
    (∀ col row, Around c r col row → Around c' r' col row → turn .x c r col row < turn .z c' r' col row) ∨
      ∀ col row, Around c r col row → Around c' r' col row → turn .z c' r' col row < turn .x c r col row := by
  have h := ((mem_xCorners hodd).mp hx).2.2.2
  have h' := ((mem_zCorners hodd).mp hz).2.2.2
  by_cases hearlier : r < r' ∨ c' < c
  · left
    intro col row ha ha'
    have hk := turn_x ha
    have hk' := turn_z ha'
    unfold Around at ha ha'
    omega
  · right
    intro col row ha ha'
    have hk := turn_x ha
    have hk' := turn_z ha'
    unfold Around at ha ha'
    omega

/-- Two corners that reach a cell at one order are one. -/
theorem corner_unique (hodd : d % 2 = 1) {b b' : CheckBasis} {c r c' r' col row : Nat} (hc : (c, r) ∈ corners d b)
    (hc' : (c', r') ∈ corners d b') (ha : Around c r col row) (ha' : Around c' r' col row)
    (ho : turn b c r col row = turn b' c' r' col row) : b = b' ∧ c = c' ∧ r = r' := by
  have hapart : ∀ {c r c' r' : Nat}, (c, r) ∈ corners d .x → (c', r') ∈ corners d .z → Around c r col row →
      Around c' r' col row → turn .x c r col row ≠ turn .z c' r' col row := by
    intro c r c' r' hx hz ha ha'
    rcases sameTurn hodd hx hz with hturn | hturn
    · exact (hturn col row ha ha').ne
    · exact (hturn col row ha ha').ne'
  cases b with
  | x =>
    cases b' with
    | x =>
      have hk := turn_x ha
      have hk' := turn_x ha'
      unfold Around at ha ha'
      exact ⟨rfl, by omega⟩
    | z => exact absurd ho (hapart hc hc' ha ha')
    | y => cases hc'
  | z =>
    cases b' with
    | x => exact absurd ho.symm (hapart hc' hc ha' ha)
    | z =>
      have hk := turn_z ha
      have hk' := turn_z ha'
      unfold Around at ha ha'
      exact ⟨rfl, by omega⟩
    | y => cases hc'
  | y => cases hc

/-! ## The schedule -/

theorem surface_declares : Layout.Declares [.z, .x] (surface d) := by
  intro q n b hn hr
  obtain ⟨c, r, hs⟩ := check_stands (Graph.mem_checkQubits.mpr ⟨n, hn, hr⟩)
  cases b with
  | x => exact ⟨by decide, by decide⟩
  | z => exact ⟨by decide, by decide⟩
  | y => cases hs.corner

/-- Two checks that reach one data qubit at one order are one check. -/
theorem reach_unique (hodd : d % 2 = 1) (hs : (surface d).Sound) {b b' : CheckBasis} {q q' data : Qubit} {k : Nat}
    (hq : q ∈ (surface d).checkQubits b) (hq' : q' ∈ (surface d).checkQubits b') (hlink : ⟨k, data⟩ ∈ (surface d).links q)
    (hlink' : ⟨k, data⟩ ∈ (surface d).links q') : q = q' := by
  obtain ⟨c, r, hc⟩ := check_stands hq
  obtain ⟨c', r', hc'⟩ := check_stands hq'
  obtain ⟨col, row, hcol, hrow, rfl⟩ := exists_cell (mem_data.mp (Graph.mem_dataQubits.mpr (hs.link_isData hlink)))
  rw [hc.links, link_iff hodd hc.corner hcol hrow] at hlink
  rw [hc'.links, link_iff hodd hc'.corner hcol hrow] at hlink'
  obtain ⟨rfl, rfl, rfl⟩ := corner_unique hodd hc.corner hc'.corner hlink.1 hlink'.1 (hlink.2.symm.trans hlink'.2)
  exact hs.placesApart q q' _ _ hc.node hc'.node (Option.some_ne_none _) rfl

theorem surface_noConflict (hodd : d % 2 = 1) (hs : (surface d).Sound) : Layout.NoConflict (surface d) [.z, .x] :=
  Layout.noConflict_of_reach hs (by decide) fun _ _ _ _ _ _ hc hc' hlink hlink' => reach_unique hodd hs hc hc' hlink hlink'

/-- The code has a layout at every odd distance. -/
theorem layout_total (hodd : d % 2 = 1) (hd : d ≤ 30000) : ∃ l, Layout.ofGraph (surface d) [.z, .x] .emit = .ok l :=
  Layout.ofGraph_total surface_declares (surface_noConflict hodd (surface_built hodd hd).sound) .emit

theorem make_eq {params : CodeParams} (hp : params.validate = .ok ()) (h3 : 3 ≤ params.distance)
    (hodd : params.distance % 2 = 1) (hd : params.distance ≤ 30000) {l : Layout}
    (hl : Layout.ofGraph (surface params.distance) [.z, .x] .emit = .ok l) :
    make params = .ok ⟨"rotated-surface", params, surface params.distance, l, logical params.distance⟩ := by
  have hvalid : ¬(params.distance < 3 ∨ params.distance % 2 = 0) := by omega
  simp only [make, hp, graph_eq hodd hd, hl, if_neg hvalid, bind, Except.bind, pure, Except.pure]

theorem layout_inReach (hodd : d % 2 = 1) (hd : d ≤ 30000) {l : Layout} (hf : Layout.Fits (surface d) [.z, .x] l) :
    l.InReach := by
  have hsizes := hf.sizes (hf.allChecks_nodup (by decide))
  have hsize := surface_size hodd
  have hdata : d * d ≤ l.data.length := by
    have hsub : List.range (d * d) ⊆ l.data := by
      intro q hq
      rw [hf.data]
      exact mem_data.mpr (List.mem_range.mp hq)
    simpa using (List.nodup_range.subperm hsub).length_le
  have hbound : d * d ≤ 30000 * 30000 := Nat.mul_le_mul hd hd
  constructor <;> simp only [RecordOffset.reach] <;> omega

end RotatedSurface

end QuantumMemory

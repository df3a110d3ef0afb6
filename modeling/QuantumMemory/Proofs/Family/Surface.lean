/-
  QuantumMemory.Proofs.Family.Surface — the graph of the rotated surface code, written down.

  The data qubits fill `d` rows of `d`. A check stands at a corner `(c, r)` of theirs,
  between the columns `c - 1` and `c` and the rows `r - 1` and `r`: X checks where `c` and
  `r` are of one parity, but not at the left and right ends, and Z checks at the others,
  but not at the upper and lower ends (`mem_xCorners`, `mem_zCorners`). `surface` is the graph
  with these nodes and the links that the corners have (`xLinks`, `zLinks`), and building
  the code's graph makes it (`graph_eq`).
-/

import QuantumMemory.Family.Planar
import QuantumMemory.Proofs.Family.Grid
import QuantumMemory.Proofs.Graph.Builder

namespace QuantumMemory

namespace RotatedSurface

open LatticeBuilder (bare)

/-! ## Places -/

def dataPlace (col row : Nat) : Coordinate := ⟨2 * (col + 1), 2 * (row + 1)⟩

def cornerPlace (c r : Nat) : Coordinate := ⟨2 * c + 1, 2 * r + 1⟩

/-- Columns and rows of the data qubits, row by row. -/
def cells (d : Nat) : List (Nat × Nat) := (List.range d).flatMap fun row => (List.range d).map fun col => (col, row)

/-- The corners of the X checks, row by row. -/
def xCorners (d : Nat) : List (Nat × Nat) :=
  (List.range (d + 1)).flatMap fun i => (List.range ((d - 1) / 2)).map fun k => (2 * k + 2 - i % 2, i)

/-- The corners of the Z checks, row by row. -/
def zCorners (d : Nat) : List (Nat × Nat) :=
  (List.range (d - 1)).flatMap fun i => (List.range ((d + 1) / 2)).map fun k => (2 * k + i % 2, i + 1)

theorem dataSites_eq (d : Nat) : dataSites d = (cells d).map fun (col, row) => dataPlace col row := by
  simp only [dataSites, cells, List.map_flatMap, List.map_map]
  rfl

theorem xSites_eq (d : Nat) : xSites d = (xCorners d).map fun (c, r) => cornerPlace c r := by
  simp only [xSites, xCorners, List.map_flatMap, List.map_map]
  refine List.flatMap_congr fun i _ => List.map_congr_left fun k _ => ?_
  simp only [Function.comp_apply, cornerPlace, Coordinate.mk.injEq]
  rcases Nat.mod_two_eq_zero_or_one i with h | h
  · rw [if_pos (by omega)]
    omega
  · rw [if_neg (by omega)]
    omega

theorem zSites_eq (d : Nat) : zSites d = (zCorners d).map fun (c, r) => cornerPlace c r := by
  simp only [zSites, zCorners, List.map_flatMap, List.map_map]
  refine List.flatMap_congr fun i _ => List.map_congr_left fun k _ => ?_
  simp only [Function.comp_apply, cornerPlace, Coordinate.mk.injEq]
  rcases Nat.mod_two_eq_zero_or_one i with h | h
  · rw [if_neg (by omega)]
    omega
  · rw [if_pos (by omega)]
    omega

theorem mem_cells {d col row : Nat} : (col, row) ∈ cells d ↔ col < d ∧ row < d := by
  simp only [cells, List.mem_flatMap, List.mem_map, List.mem_range, Prod.mk.injEq]
  constructor
  · intro h
    obtain ⟨row', hrow, col', hcol, rfl, rfl⟩ := h
    exact ⟨hcol, hrow⟩
  · intro h
    exact ⟨row, h.2, col, h.1, rfl, rfl⟩

/-- X checks stand at corners of one parity, between two columns. -/
theorem mem_xCorners {d : Nat} (hodd : d % 2 = 1) {c r : Nat} :
    (c, r) ∈ xCorners d ↔ 1 ≤ c ∧ c < d ∧ r ≤ d ∧ c % 2 = r % 2 := by
  simp only [xCorners, List.mem_flatMap, List.mem_map, List.mem_range, Prod.mk.injEq]
  constructor
  · intro h
    obtain ⟨i, hi, k, hk, rfl, rfl⟩ := h
    omega
  · intro h
    exact ⟨r, by omega, (c - 1) / 2, by omega, by omega, rfl⟩

/-- Z checks stand at corners of two parities, between two rows. -/
theorem mem_zCorners {d : Nat} (hodd : d % 2 = 1) {c r : Nat} :
    (c, r) ∈ zCorners d ↔ c ≤ d ∧ 1 ≤ r ∧ r < d ∧ c % 2 ≠ r % 2 := by
  simp only [zCorners, List.mem_flatMap, List.mem_map, List.mem_range, Prod.mk.injEq]
  constructor
  · intro h
    obtain ⟨i, hi, k, hk, rfl, rfl⟩ := h
    omega
  · intro h
    exact ⟨r - 1, by omega, c / 2, by omega, by omega, by omega⟩

theorem cells_nodup (d : Nat) : (cells d).Nodup := by
  refine grid_nodup d d fun i k i' k' h => ?_
  obtain ⟨h1, h2⟩ := Prod.mk.inj h
  omega

theorem xCorners_nodup (d : Nat) : (xCorners d).Nodup := by
  refine grid_nodup _ _ fun i k i' k' h => ?_
  obtain ⟨h1, h2⟩ := Prod.mk.inj h
  omega

theorem zCorners_nodup (d : Nat) : (zCorners d).Nodup := by
  refine grid_nodup _ _ fun i k i' k' h => ?_
  obtain ⟨h1, h2⟩ := Prod.mk.inj h
  omega

/-- Cells in the order of the numbers that their qubits have. -/
theorem cells_eq (d : Nat) : cells d = (List.range (d * d)).map fun q => (q % d, q / d) :=
  grid_eq d d fun row col => (col, row)

theorem getElem?_cells {d col row : Nat} (hcol : col < d) (hrow : row < d) :
    (cells d)[row * d + col]? = some (col, row) := by
  rw [cells_eq, List.getElem?_map, List.getElem?_range (row_lt hcol hrow), Option.map_some, mod_row row hcol,
    div_row row hcol]

/-! ## Nodes -/

/-- The interactions of an X check, along the rows. -/
def xLinks (d c r : Nat) : List Link :=
  (if r < d then [⟨1, r * d + (c - 1)⟩, ⟨2, r * d + c⟩] else []) ++
    if 1 ≤ r then [⟨3, (r - 1) * d + (c - 1)⟩, ⟨4, (r - 1) * d + c⟩] else []

/-- The interactions of a Z check, along the columns. -/
def zLinks (d c r : Nat) : List Link :=
  (if 1 ≤ c then [⟨1, r * d + (c - 1)⟩, ⟨2, (r - 1) * d + (c - 1)⟩] else []) ++
    if c < d then [⟨3, r * d + c⟩, ⟨4, (r - 1) * d + c⟩] else []

def xNode (d c r : Nat) : Node := { bare (.check .x) (cornerPlace c r) with links := xLinks d c r }

def zNode (d c r : Nat) : Node := { bare (.check .z) (cornerPlace c r) with links := zLinks d c r }

/-- The nodes before any are joined. -/
def apart (d : Nat) : List Node :=
  (dataSites d).map (bare .data) ++ ((xSites d).map (bare (.check .x)) ++ (zSites d).map (bare (.check .z)))

def nodes (d : Nat) : List Node :=
  (dataSites d).map (bare .data) ++
    ((xCorners d).map (fun (c, r) => xNode d c r) ++ (zCorners d).map fun (c, r) => zNode d c r)

def surface (d : Nat) : Graph := .ofNodes (nodes d)

theorem dataPlace_inj {col row col' row' : Nat} (h : dataPlace col row = dataPlace col' row') :
    col = col' ∧ row = row' := by
  obtain ⟨h1, h2⟩ := Coordinate.mk.inj h
  omega

theorem cornerPlace_inj {c r c' r' : Nat} (h : cornerPlace c r = cornerPlace c' r') : c = c' ∧ r = r' := by
  obtain ⟨h1, h2⟩ := Coordinate.mk.inj h
  omega

theorem dataPlace_ne_cornerPlace (col row c r : Nat) : dataPlace col row ≠ cornerPlace c r := by
  intro h
  obtain ⟨h1, h2⟩ := Coordinate.mk.inj h
  omega

theorem sites_nodup {d : Nat} (hodd : d % 2 = 1) : (dataSites d ++ (xSites d ++ zSites d)).Nodup := by
  have hcorner : Function.Injective fun p : Nat × Nat => cornerPlace p.1 p.2 := by
    intro p p' he
    obtain ⟨h1, h2⟩ := cornerPlace_inj he
    exact Prod.ext h1 h2
  have hdata : Function.Injective fun p : Nat × Nat => dataPlace p.1 p.2 := by
    intro p p' he
    obtain ⟨h1, h2⟩ := dataPlace_inj he
    exact Prod.ext h1 h2
  rw [dataSites_eq, xSites_eq, zSites_eq, ← List.map_append]
  refine List.nodup_append.mpr ⟨(cells_nodup d).map hdata, List.Nodup.map hcorner (List.nodup_append.mpr
    ⟨xCorners_nodup d, zCorners_nodup d, ?_⟩), ?_⟩
  · intro p hx p' hz he
    subst he
    exact ((mem_zCorners hodd).mp hz).2.2.2 ((mem_xCorners hodd).mp hx).2.2.2
  · intro a ha b hb he
    obtain ⟨p, -, rfl⟩ := List.mem_map.mp ha
    obtain ⟨p', -, rfl⟩ := List.mem_map.mp hb
    exact dataPlace_ne_cornerPlace _ _ _ _ he

/-- All nodes stand apart. -/
theorem places_nodup {d : Nat} (hodd : d % 2 = 1) : ((apart d).map (·.coordinate)).Nodup := by
  have hmap : (apart d).map (·.coordinate) = (dataSites d ++ (xSites d ++ zSites d)).map some := by
    simp only [apart, List.map_append, List.map_map]
    rfl
  rw [hmap]
  exact (sites_nodup hodd).map (Option.some_injective _)

/-! ## Joining -/

/-- The data qubit that ends the column `u` and the row `v`, counted from one. -/
def dataAt? (d u v : Nat) : Option Qubit :=
  if 1 ≤ u ∧ u ≤ d ∧ 1 ≤ v ∧ v ≤ d then some ((v - 1) * d + (u - 1)) else none

theorem length_dataSites (d : Nat) : (dataSites d).length = d * d := by
  rw [dataSites_eq, List.length_map, cells_eq, List.length_map, List.length_range]

theorem getElem?_dataSites {d col row : Nat} (hcol : col < d) (hrow : row < d) :
    (dataSites d)[row * d + col]? = some (dataPlace col row) := by
  rw [dataSites_eq, List.getElem?_map, getElem?_cells hcol hrow, Option.map_some]

theorem getElem?_apart {d col row : Nat} (hcol : col < d) (hrow : row < d) :
    (apart d)[row * d + col]? = some (bare .data (dataPlace col row)) := by
  have hlen : row * d + col < ((dataSites d).map (bare .data)).length := by
    rw [List.length_map, length_dataSites]
    exact row_lt hcol hrow
  rw [apart, List.getElem?_append_left hlen, List.getElem?_map, getElem?_dataSites hcol hrow, Option.map_some]

/-- At even places stand the data qubits and nothing else. -/
theorem find?_apart {d : Nat} (hodd : d % 2 = 1) (u v : Nat) :
    (Graph.ofNodes (apart d)).find? ⟨2 * u, 2 * v⟩ = dataAt? d u v := by
  unfold dataAt?
  split
  · rename_i h
    refine Graph.find?_eq_some (places_nodup hodd) (getElem?_apart (by omega) (by omega)) ?_
    simp only [bare, dataPlace, Option.some.injEq, Coordinate.mk.injEq]
    omega
  · rename_i h
    rw [Graph.find?_ofNodes, List.findIdx?_eq_none_iff]
    intro p hp
    rw [beq_eq_false_iff_ne]
    intro he
    subst he
    simp only [apart, dataSites_eq, xSites_eq, zSites_eq, List.map_append, List.map_map, List.mem_append,
      List.mem_map] at hp
    rcases hp with ⟨⟨col, row⟩, hcell, he⟩ | ⟨⟨c, r⟩, -, he⟩ | ⟨⟨c, r⟩, -, he⟩
    · obtain ⟨hcol, hrow⟩ := mem_cells.mp hcell
      obtain ⟨h1, h2⟩ := Coordinate.mk.inj (Option.some.inj he)
      omega
    · obtain ⟨h1, h2⟩ := Coordinate.mk.inj (Option.some.inj he)
      omega
    · obtain ⟨h1, h2⟩ := Coordinate.mk.inj (Option.some.inj he)
      omega

theorem isData_apart {d u v : Nat} {q : Qubit} (h : dataAt? d u v = some q) :
    (Graph.ofNodes (apart d)).isData q = true := by
  unfold dataAt? at h
  split at h
  · rename_i huv
    cases h
    rw [Graph.isData_iff]
    refine ⟨bare .data (dataPlace (u - 1) (v - 1)), ?_, rfl⟩
    rw [Graph.node?_ofNodes]
    exact getElem?_apart (by omega) (by omega)
  · cases h

/-- The directions of a corner lead to the cells around it. -/
theorem planned?_apart {d : Nat} (hodd : d % 2 = 1) (hd : d ≤ 30000) {c r : Nat} (hc : c ≤ d) (hr : r ≤ d) {a b : Nat}
    (ha : a ≤ 1) (hb : b ≤ 1) (position : Nat) :
    (⟨Graph.ofNodes (apart d), .open⟩ : LatticeBuilder).planned? (cornerPlace c r) (2 * a + b) position =
      (dataAt? d (c + a) (r + b)).map fun q => (position + 1, q) := by
  have hdiagonal : diagonals[2 * a + b]? = some (2 * (a : Int) - 1, 2 * (b : Int) - 1) := by
    rcases Nat.le_one_iff_eq_zero_or_eq_one.mp ha with rfl | rfl
    · rcases Nat.le_one_iff_eq_zero_or_eq_one.mp hb with rfl | rfl <;> rfl
    · rcases Nat.le_one_iff_eq_zero_or_eq_one.mp hb with rfl | rfl <;> rfl
  have hneighbour : ((⟨Graph.ofNodes (apart d), .open⟩ : LatticeBuilder).diagonalNeighbours
      (cornerPlace c r) 1)[2 * a + b]? = some (dataAt? d (c + a) (r + b)) := by
    have hx : ((2 * c + 1 : Int) + (2 * a - 1)) = 2 * (c + a : Nat) := by omega
    have hy : ((2 * r + 1 : Int) + (2 * b - 1)) = 2 * (r + b : Nat) := by omega
    rw [LatticeBuilder.diagonalNeighbours_open _ (by simp only [cornerPlace]; omega) (by simp only [cornerPlace]; omega),
      List.getElem?_map, hdiagonal, Option.map_some]
    simp only [cornerPlace, hx, hy]
    exact congrArg some (find?_apart hodd (c + a) (r + b))
  rw [LatticeBuilder.planned?, hneighbour]
  cases hq : dataAt? d (c + a) (r + b) with
  | none => rfl
  | some q =>
    simp only [isData_apart hq, if_true]
    rfl

theorem dataAt?_in {d u v : Nat} (h : 1 ≤ u ∧ u ≤ d ∧ 1 ≤ v ∧ v ≤ d) : dataAt? d u v = some ((v - 1) * d + (u - 1)) :=
  if_pos h

theorem dataAt?_out {d u v : Nat} (h : u = 0 ∨ d < u ∨ v = 0 ∨ d < v) : dataAt? d u v = none := if_neg (by omega)

section Joined

variable {d : Nat} (hodd : d % 2 = 1) (hd : d ≤ 30000)

include hodd hd

/-- A corner is joined to the cells around it, in the order that they are listed. -/
theorem plan_apart {c r : Nat} (hc : c ≤ d) (hr : r ≤ d) (around : List (Nat × Nat))
    (h : ∀ s ∈ around, s.1 ≤ 1 ∧ s.2 ≤ 1) :
    LatticeBuilder.linksOf ((⟨Graph.ofNodes (apart d), .open⟩ : LatticeBuilder).diagonalPlan (cornerPlace c r)
        (around.map fun s => 2 * s.1 + s.2) 1) =
      around.zipIdx.filterMap fun (s, k) => (dataAt? d (c + s.1) (r + s.2)).map (Link.mk (k + 1)) := by
  rw [LatticeBuilder.diagonalPlan_eq, List.zipIdx_map, List.filterMap_map, LatticeBuilder.linksOf, List.map_filterMap]
  refine List.filterMap_congr fun a ha => ?_
  obtain ⟨s, k⟩ := a
  obtain ⟨ha1, hb1⟩ := h s (List.fst_mem_of_mem_zipIdx ha)
  show ((⟨Graph.ofNodes (apart d), .open⟩ : LatticeBuilder).planned? (cornerPlace c r) (2 * s.1 + s.2) k).map _ = _
  rw [planned?_apart hodd hd hc hr ha1 hb1, Option.map_map]
  rfl

theorem joined_x {c r : Nat} (h : (c, r) ∈ xCorners d) :
    LatticeBuilder.joined ⟨Graph.ofNodes (apart d), .open⟩ xDirections (bare (.check .x) (cornerPlace c r)) =
      xNode d c r := by
  obtain ⟨h1, h2, h3, -⟩ := (mem_xCorners hodd).mp h
  have hlinks : LatticeBuilder.linksOf ((⟨Graph.ofNodes (apart d), .open⟩ : LatticeBuilder).diagonalPlan (cornerPlace c r)
      xDirections 1) = xLinks d c r := by
    refine (plan_apart hodd hd (Nat.le_of_lt h2) h3 [(0, 1), (1, 1), (0, 0), (1, 0)] (by decide)).trans ?_
    simp only [List.zipIdx_cons, List.zipIdx_nil, List.filterMap_cons, List.filterMap_nil, Nat.add_zero, xLinks]
    by_cases hlow : r < d
    · rw [if_pos hlow, dataAt?_in (by omega), dataAt?_in (by omega)]
      by_cases hup : 1 ≤ r
      · rw [if_pos hup, dataAt?_in (by omega), dataAt?_in (by omega)]
        rfl
      · rw [if_neg hup, dataAt?_out (by omega), dataAt?_out (by omega)]
        rfl
    · rw [if_neg hlow, if_pos (by omega), dataAt?_out (by omega), dataAt?_out (by omega), dataAt?_in (by omega),
        dataAt?_in (by omega)]
      rfl
  simp only [LatticeBuilder.joined, bare, xNode, hlinks]

theorem joined_z {c r : Nat} (h : (c, r) ∈ zCorners d) :
    LatticeBuilder.joined ⟨Graph.ofNodes (apart d), .open⟩ zDirections (bare (.check .z) (cornerPlace c r)) =
      zNode d c r := by
  obtain ⟨h1, h2, h3, -⟩ := (mem_zCorners hodd).mp h
  have hlinks : LatticeBuilder.linksOf ((⟨Graph.ofNodes (apart d), .open⟩ : LatticeBuilder).diagonalPlan (cornerPlace c r)
      zDirections 1) = zLinks d c r := by
    refine (plan_apart hodd hd h1 (Nat.le_of_lt h3) [(0, 1), (0, 0), (1, 1), (1, 0)] (by decide)).trans ?_
    simp only [List.zipIdx_cons, List.zipIdx_nil, List.filterMap_cons, List.filterMap_nil, Nat.add_zero, zLinks]
    by_cases hleft : 1 ≤ c
    · rw [if_pos hleft, dataAt?_in (by omega), dataAt?_in (by omega)]
      by_cases hright : c < d
      · rw [if_pos hright, dataAt?_in (by omega), dataAt?_in (by omega)]
        rfl
      · rw [if_neg hright, dataAt?_out (by omega), dataAt?_out (by omega)]
        rfl
    · rw [if_neg hleft, if_pos (by omega), dataAt?_out (by omega), dataAt?_out (by omega), dataAt?_in (by omega),
        dataAt?_in (by omega)]
      rfl
  simp only [LatticeBuilder.joined, bare, zNode, hlinks]

omit hd in
theorem addAll_sites :
    (⟨.ofNodes [], .open⟩ : LatticeBuilder).addAll .data (dataSites d) =
        .ok ⟨.ofNodes ((dataSites d).map (bare .data)), .open⟩ ∧
      (⟨.ofNodes ((dataSites d).map (bare .data)), .open⟩ : LatticeBuilder).addAll (.check .x) (xSites d) =
        .ok ⟨.ofNodes ((dataSites d).map (bare .data) ++ (xSites d).map (bare (.check .x))), .open⟩ ∧
      (⟨.ofNodes ((dataSites d).map (bare .data) ++ (xSites d).map (bare (.check .x))), .open⟩ : LatticeBuilder).addAll
        (.check .z) (zSites d) = .ok ⟨.ofNodes (apart d), .open⟩ := by
  have hplaces := places_nodup hodd
  rw [apart, ← List.append_assoc] at hplaces
  have hxs := hplaces.sublist ((List.sublist_append_left _ _).map _)
  have hds := hxs.sublist ((List.sublist_append_left _ _).map _)
  have hz := LatticeBuilder.addAll_ok _ .open (.check .z) (fun _ _ => rfl) hplaces
  rw [List.append_assoc] at hz
  exact ⟨LatticeBuilder.addAll_ok [] .open .data (fun _ _ => rfl) hds,
    LatticeBuilder.addAll_ok _ .open (.check .x) (fun _ _ => rfl) hxs, hz⟩

theorem joinAll_corners :
    (⟨.ofNodes (apart d), .open⟩ : LatticeBuilder).joinAll xDirections (List.range' (d * d) (xSites d).length) =
        .ok ⟨.ofNodes ((dataSites d).map (bare .data) ++ ((xCorners d).map (fun (c, r) => xNode d c r) ++
          (zSites d).map (bare (.check .z)))), .open⟩ ∧
      (⟨.ofNodes ((dataSites d).map (bare .data) ++ ((xCorners d).map (fun (c, r) => xNode d c r) ++
          (zSites d).map (bare (.check .z)))), .open⟩ : LatticeBuilder).joinAll zDirections
        (List.range' (d * d + (xSites d).length) (zSites d).length) = .ok ⟨surface d, .open⟩ := by
  have hbare : ∀ (basis : CheckBasis) (sites : List Coordinate), ∀ n ∈ sites.map (bare (.check basis)),
      n.role.isData = false ∧ n.links = [] ∧ n.coordinate ≠ none := by
    intro basis sites n hn
    obtain ⟨c, -, rfl⟩ := List.mem_map.mp hn
    exact ⟨rfl, rfl, Option.some_ne_none c⟩
  have hx : ((xSites d).map (bare (.check .x))).map (LatticeBuilder.joined ⟨.ofNodes (apart d), .open⟩ xDirections) =
      (xCorners d).map fun (c, r) => xNode d c r := by
    rw [xSites_eq, List.map_map, List.map_map]
    exact List.map_congr_left fun corner h => joined_x hodd hd h
  have hz : ((zSites d).map (bare (.check .z))).map (LatticeBuilder.joined ⟨.ofNodes (apart d), .open⟩ zDirections) =
      (zCorners d).map fun (c, r) => zNode d c r := by
    rw [zSites_eq, List.map_map, List.map_map]
    exact List.map_congr_left fun corner h => joined_z hodd hd h
  have hjoinx := LatticeBuilder.joinAll_ok (by decide : isPermutation xDirections = true) (by decide) (apart d)
    ((dataSites d).map (bare .data)) ((xSites d).map (bare (.check .x))) ((zSites d).map (bare (.check .z))) rfl
    (hbare .x _)
  have hjoinz := LatticeBuilder.joinAll_ok (by decide : isPermutation zDirections = true) (by decide) (apart d)
    ((dataSites d).map (bare .data) ++ (xCorners d).map fun (c, r) => xNode d c r) ((zSites d).map (bare (.check .z))) []
    (by
      rw [List.append_nil, List.append_assoc, apart, xSites_eq]
      simp only [List.map_append, List.map_map]
      rfl) (hbare .z _)
  rw [hx, List.length_map, length_dataSites, List.length_map] at hjoinx
  rw [hz, List.length_append, List.length_map, length_dataSites, List.length_map, List.length_map, List.append_nil,
    List.append_nil, List.append_assoc, List.append_assoc] at hjoinz
  refine ⟨hjoinx, ?_⟩
  rw [xSites_eq, List.length_map]
  exact hjoinz

/-- What building the code's graph makes. -/
theorem graph_eq : graph d = .ok (surface d) := by
  obtain ⟨hdata, hx, hz⟩ := addAll_sites hodd
  obtain ⟨hjoinx, hjoinz⟩ := joinAll_corners hodd hd
  have hstart : LatticeBuilder.start .open = .ok ⟨.ofNodes [], .open⟩ := rfl
  simp only [graph, hstart, hdata, hx, hz, hjoinx, hjoinz, bind, Except.bind, pure, Except.pure]

omit hodd hd in
/-- Whatever the distance: the graph is built, and its first nodes are the data. -/
theorem graph_data {g : Graph} (h : graph d = .ok g) : g.Built ∧ ∀ q < d * d, g.isData q = true := by
  obtain ⟨b₀, hstart, h⟩ := exists_of_bind h
  obtain ⟨b₁, hdata, h⟩ := exists_of_bind h
  obtain ⟨b₂, hx, h⟩ := exists_of_bind h
  obtain ⟨b₃, hz, h⟩ := exists_of_bind h
  obtain ⟨b₄, hjoinx, h⟩ := exists_of_bind h
  obtain ⟨b₅, hjoinz, h⟩ := exists_of_bind h
  cases h
  obtain ⟨hb₁, -, hfirst⟩ := LatticeBuilder.addAll_data hstart hdata
  rw [length_dataSites] at hfirst
  have kept : ∀ {P : Graph → Prop}, (∀ role, LatticeBuilder.KeptByAdding role P) → LatticeBuilder.KeptByJoining P →
      P b₁.graph → P b₅.graph := by
    intro P hadd hjoin hP
    have hP₃ := LatticeBuilder.addAll_keeps (hadd _) (LatticeBuilder.addAll_keeps (hadd _) hP hx) hz
    exact LatticeBuilder.joinAll_keeps hjoin (LatticeBuilder.joinAll_keeps hjoin hP₃ hjoinx) hjoinz
  exact ⟨kept LatticeBuilder.built_adding LatticeBuilder.built_joining hb₁, fun q hq =>
    kept (LatticeBuilder.isData_adding · q) (LatticeBuilder.isData_joining q) (hfirst q hq)⟩

theorem surface_built : (surface d).Built := (graph_data (graph_eq hodd hd)).1

end Joined

end RotatedSurface

end QuantumMemory

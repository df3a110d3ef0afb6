/-
  QuantumMemory.Proofs.Family.Agreement — the planar families as lattices that the user
  describes.

  `line` describes the repetition code and `board` the rotated surface code, site by site. Both
  are plain, so each check is joined as its permutation plans, which is how the family joins
  it (`line_joined`, `board_x`, `board_z`); the logical sites are found where the family has its logical
  qubits.

  Main result: `described_codes_agree`. Graph, layout and logical qubits are the same, and so
  are the instructions and the ledger of every memory.
-/

import QuantumMemory.Proofs.Family.Description
import QuantumMemory.Proofs.Family.Repetition
import QuantumMemory.Proofs.Family.SurfaceLayout

namespace QuantumMemory

/-- The same code but for its name and its distance: memories of any number of rounds have the
    same instructions and the same ledger. -/
structure PlacedCode.AgreesWith (c c' : PlacedCode) : Prop where
  graph : c.graph = c'.graph
  layout : c.layout = c'.layout
  logical : c.logical = c'.logical
  memory : ∀ rounds, 1 ≤ rounds → ∃ e e', c.layout.buildMemory c.name c.params rounds c.logical = .ok e ∧
    c'.layout.buildMemory c'.name c'.params rounds c'.logical = .ok e' ∧
    e.circuit.instructions = e'.circuit.instructions ∧ e.ledger = e'.ledger

/-- Parameters that add the same noise. -/
structure CodeParams.SameRates (params params' : CodeParams) : Prop where
  depolarize1 : params.depolarize1Rate = params'.depolarize1Rate
  depolarize2 : params.depolarize2Rate = params'.depolarize2Rate

/-- The name and the distance of a consistent code are not in its instructions. -/
theorem PlacedCode.Consistent.agreesWith {c : PlacedCode} (h : c.Consistent) (hreach : c.layout.InReach) (name : String)
    {params : CodeParams} (hrates : c.params.SameRates params) :
    c.AgreesWith ⟨name, params, c.graph, c.layout, c.logical⟩ where
  graph := rfl
  layout := rfl
  logical := rfl
  memory := by
    intro rounds hpos
    obtain ⟨h1, h2⟩ := Layout.usable_of_validate h.params
    have h1' : Memory.Usable params.depolarize1Rate := hrates.depolarize1 ▸ h1
    have h2' : Memory.Usable params.depolarize2Rate := hrates.depolarize2 ▸ h2
    refine ⟨_, _, Layout.buildMemory_eq h.tidy hreach c.name h1 h2 hpos h.logical_data,
      Layout.buildMemory_eq h.tidy hreach name h1' h2' hpos h.logical_data, ?_, rfl⟩
    rw [Layout.instructions_compiled, Layout.instructions_compiled, hrates.depolarize1, hrates.depolarize2]

namespace LatticeSpec

open LatticeBuilder (bare)

theorem step2_half {s : LatticeSpec} (h : s.step = .ofRatio false 1 2) : s.step2 = .ok 1 := by
  have hhalf : Coordinate.exactHalf? (.ofRatio false 1 2) = some 1 := by decide +kernel
  rw [step2, h, hhalf]
  rfl

/-! ## The line -/

/-- Data qubits on a diagonal with a Z check between each two. -/
def line (name : String) (xDirections : List Nat) (d : Nat) : LatticeSpec where
  name
  data := (List.range d).map fun (i : Nat) => ⟨2 * i, 2 * i⟩
  checks := (List.range (d - 1)).map fun (i : Nat) => ⟨.z, ⟨2 * i + 1, 2 * i + 1⟩, none⟩
  bases := [.z]
  xDirections
  zDirections := [0, 3, 1, 2]
  step := .ofRatio false 1 2
  boundary := .open
  logical := [⟨0, 0⟩]
  policy := .emit

section Line

variable {d : Nat} (name : String) (xDirections : List Nat)

theorem line_apart : (line name xDirections d).apart = Repetition.apart d := by
  show (Repetition.dataSites d).map (bare .data) ++ ((List.range (d - 1)).map _).map siteNode = _
  rw [Repetition.apart, Repetition.checkSites, List.map_map, List.map_map]
  rfl

variable (hd : d ≤ 1000000)

include hd

theorem line_joined {k : Nat} (hk : k < d - 1) :
    (line name xDirections d).joinedSite ⟨.z, ⟨2 * k + 1, 2 * k + 1⟩, none⟩ = Repetition.checkNode k := by
  rw [joinedSite, line_apart]
  exact Repetition.joined_check (by omega) (by omega)

theorem line_chain :
    Graph.ofNodes ((line name xDirections d).data.map (bare .data) ++
      (line name xDirections d).checks.map (line name xDirections d).joinedSite) = Repetition.chain d := by
  have hchecks : (line name xDirections d).checks.map (line name xDirections d).joinedSite =
      (List.range (d - 1)).map Repetition.checkNode := by
    show ((List.range (d - 1)).map _).map _ = _
    rw [List.map_map]
    exact List.map_congr_left fun k hk => line_joined name xDirections hd (List.mem_range.mp hk)
  rw [hchecks]
  rfl

theorem line_plain : (line name xDirections d).Plain where
  step := step2_half (by rw [line])
  boundary := rfl
  places := by
    rw [line_apart]
    exact Repetition.places_nodup d
  directions := by
    intro site hsite
    obtain ⟨k, -, rfl⟩ := List.mem_map.mp hsite
    show isPermutation [0, 3, 1, 2] = true ∧ [0, 3, 1, 2].Nodup
    exact ⟨by decide, by decide⟩
  reaches := by
    intro site hsite
    obtain ⟨k, hk, rfl⟩ := List.mem_map.mp hsite
    rw [line_joined name xDirections hd (List.mem_range.mp hk)]
    exact List.cons_ne_nil _ _

theorem line_logical (h2 : 2 ≤ d) :
    (line name xDirections d).logical.mapM ((line name xDirections d).dataAt (Repetition.chain d)) = .ok [0] := by
  have hfind : (Repetition.chain d).find? ⟨0, 0⟩ = some 0 := by
    rw [← line_chain name xDirections hd, find?_of_sites, line_apart]
    exact Repetition.find?_apart (show 0 < d by omega)
  have hdata : (Repetition.chain d).isData 0 = true := (Repetition.graph_data (Repetition.graph_eq (by omega))).2 0 (by omega)
  have horigin : (line name xDirections d).dataAt (Repetition.chain d) ⟨0, 0⟩ = .ok 0 := dataAt_open rfl hfind hdata
  show [(⟨0, 0⟩ : Coordinate)].mapM _ = _
  rw [List.mapM_cons, horigin]
  rfl

end Line

/-! ## The board -/

/-- The sites of the rotated surface code: data, X checks and Z checks as they are numbered. -/
def board (name : String) (d : Nat) : LatticeSpec where
  name
  data := RotatedSurface.dataSites d
  checks := (RotatedSurface.xSites d).map (⟨.x, ·, none⟩) ++ (RotatedSurface.zSites d).map (⟨.z, ·, none⟩)
  bases := [.z, .x]
  xDirections := [1, 3, 0, 2]
  zDirections := [1, 0, 3, 2]
  step := .ofRatio false 1 2
  boundary := .open
  logical := (List.range d).map fun (i : Nat) => ⟨2 * (i + 1), 2 * (i + 1)⟩
  policy := .emit

section Board

open RotatedSurface

theorem xLinks_ne_nil {d c r : Nat} (hodd : d % 2 = 1) (h : (c, r) ∈ xCorners d) : xLinks d c r ≠ [] := by
  obtain ⟨-, -, hr, -⟩ := (mem_xCorners hodd).mp h
  unfold xLinks
  by_cases hlow : r < d
  · rw [if_pos hlow]
    exact List.cons_ne_nil _ _
  · rw [if_neg hlow, if_pos (by omega)]
    exact List.cons_ne_nil _ _

theorem zLinks_ne_nil {d c r : Nat} (hodd : d % 2 = 1) (h : (c, r) ∈ zCorners d) : zLinks d c r ≠ [] := by
  obtain ⟨hc, -, -, -⟩ := (mem_zCorners hodd).mp h
  unfold zLinks
  by_cases hleft : 1 ≤ c
  · rw [if_pos hleft]
    exact List.cons_ne_nil _ _
  · rw [if_neg hleft, if_pos (by omega)]
    exact List.cons_ne_nil _ _

variable {d : Nat} (name : String)

theorem board_apart : (board name d).apart = RotatedSurface.apart d := by
  show (dataSites d).map (bare .data) ++ ((xSites d).map _ ++ (zSites d).map _).map siteNode = _
  rw [List.map_append, List.map_map, List.map_map]
  rfl

variable (hodd : d % 2 = 1) (hd : d ≤ 30000)

include hodd hd

theorem board_x {c r : Nat} (h : (c, r) ∈ xCorners d) :
    (board name d).joinedSite ⟨.x, cornerPlace c r, none⟩ = xNode d c r := by
  rw [joinedSite, board_apart]
  exact joined_x hodd hd h

theorem board_z {c r : Nat} (h : (c, r) ∈ zCorners d) :
    (board name d).joinedSite ⟨.z, cornerPlace c r, none⟩ = zNode d c r := by
  rw [joinedSite, board_apart]
  exact joined_z hodd hd h

theorem board_surface :
    Graph.ofNodes ((board name d).data.map (bare .data) ++ (board name d).checks.map (board name d).joinedSite) =
      surface d := by
  have hx : ((xSites d).map (⟨.x, ·, none⟩)).map (board name d).joinedSite =
      (xCorners d).map fun corner => xNode d corner.1 corner.2 := by
    rw [xSites_eq, List.map_map, List.map_map]
    exact List.map_congr_left fun corner h => board_x name hodd hd h
  have hz : ((zSites d).map (⟨.z, ·, none⟩)).map (board name d).joinedSite =
      (zCorners d).map fun corner => zNode d corner.1 corner.2 := by
    rw [zSites_eq, List.map_map, List.map_map]
    exact List.map_congr_left fun corner h => board_z name hodd hd h
  show Graph.ofNodes ((dataSites d).map (bare .data) ++ ((xSites d).map _ ++ (zSites d).map _).map _) = _
  rw [List.map_append, hx, hz]
  rfl

theorem board_plain : (board name d).Plain where
  step := step2_half (by rw [board])
  boundary := rfl
  places := by
    rw [board_apart]
    exact places_nodup hodd
  directions := by
    intro site hsite
    rcases List.mem_append.mp hsite with hx | hz
    · obtain ⟨c, -, rfl⟩ := List.mem_map.mp hx
      show isPermutation [1, 3, 0, 2] = true ∧ [1, 3, 0, 2].Nodup
      exact ⟨by decide, by decide⟩
    · obtain ⟨c, -, rfl⟩ := List.mem_map.mp hz
      show isPermutation [1, 0, 3, 2] = true ∧ [1, 0, 3, 2].Nodup
      exact ⟨by decide, by decide⟩
  reaches := by
    intro site hsite
    rcases List.mem_append.mp hsite with hx | hz
    · obtain ⟨place, hplace, rfl⟩ := List.mem_map.mp hx
      rw [xSites_eq] at hplace
      obtain ⟨⟨c, r⟩, hcorner, rfl⟩ := List.mem_map.mp hplace
      rw [board_x name hodd hd hcorner]
      exact xLinks_ne_nil hodd hcorner
    · obtain ⟨place, hplace, rfl⟩ := List.mem_map.mp hz
      rw [zSites_eq] at hplace
      obtain ⟨⟨c, r⟩, hcorner, rfl⟩ := List.mem_map.mp hplace
      rw [board_z name hodd hd hcorner]
      exact zLinks_ne_nil hodd hcorner

theorem board_logical :
    (board name d).logical.mapM ((board name d).dataAt (surface d)) = .ok (RotatedSurface.logical d) := by
  have hsites : ∀ i < d, (board name d).dataAt (surface d) ⟨2 * (i + 1), 2 * (i + 1)⟩ = .ok (i + i * d) := by
    intro i hi
    have hfind : (surface d).find? ⟨2 * (i + 1 : Nat), 2 * (i + 1 : Nat)⟩ = some (i * d + i) := by
      rw [← board_surface name hodd hd, find?_of_sites, board_apart, find?_apart hodd, dataAt?_in (by omega)]
      rfl
    have hdata : (surface d).isData (i * d + i) = true := (graph_data (graph_eq hodd hd)).2 _ (row_lt hi hi)
    rw [Nat.add_comm i]
    exact dataAt_open rfl hfind hdata
  show ((List.range d).map _).mapM _ = _
  rw [List.mapM_map]
  exact mapM_all_ok fun i hi => hsites i (List.mem_range.mp hi)

end Board

/-! ## Agreement -/

/-- Described site by site, the repetition code and the rotated surface code are the same codes. -/
theorem described_codes_agree {params params' : CodeParams} (hp : params.validate = .ok ())
    (hp' : params'.validate = .ok ()) (hrates : params.SameRates params') (name : String) :
    (∀ xDirections, 2 ≤ params.distance → params.distance ≤ 1000000 →
      let spec := line name xDirections params.distance
      ∃ c c', Repetition.make params = .ok c ∧ make params' spec = .ok c' ∧ spec.Lists c.graph ∧ c.AgreesWith c') ∧
    (params.distance % 2 = 1 → 3 ≤ params.distance → params.distance ≤ 30000 →
      let spec := board name params.distance
      ∃ c c', RotatedSurface.make params = .ok c ∧ make params' spec = .ok c' ∧ spec.Lists c.graph ∧ c.AgreesWith c') := by
  constructor
  · intro xDirections h2 hd spec
    have hchain := line_chain name xDirections hd
    obtain ⟨l, hl⟩ := Repetition.layout_total hd
    have hmake := Repetition.make_eq hp h2 hd hl
    have hspec := make_of_sites (line_plain name xDirections hd) hp' hchain hl (line_logical name xDirections hd h2)
      (List.cons_ne_nil _ _)
    have hcode := Repetition.make_consistent hmake
    have hsize : (Repetition.chain params.distance).size < 2 ^ 30 := by
      rw [Repetition.chain_size]
      omega
    have hlists := lists_of_sites spec
    rw [hchain] at hlists
    exact ⟨_, _, hmake, hspec, hlists, hcode.agreesWith (hcode.inReach hsize) name hrates⟩
  · intro hodd h3 hd spec
    have hsurface := board_surface name hodd hd
    obtain ⟨l, hl⟩ := RotatedSurface.layout_total hodd hd
    have hmake := RotatedSurface.make_eq hp h3 hodd hd hl
    have hne : RotatedSurface.logical params.distance ≠ [] := by
      intro he
      have hlength := congrArg List.length he
      simp only [RotatedSurface.logical, List.length_map, List.length_range, List.length_nil] at hlength
      omega
    have hspec := make_of_sites (board_plain name hodd hd) hp' hsurface hl (board_logical name hodd hd) hne
    have hcode := RotatedSurface.make_consistent hmake
    have hreach := RotatedSurface.layout_inReach hodd hd (Layout.ofGraph_ok hl)
    have hlists := lists_of_sites spec
    rw [hsurface] at hlists
    exact ⟨_, _, hmake, hspec, hlists, hcode.agreesWith hreach name hrates⟩

/-- At distance 3, with every gate noisy. -/
theorem described_codes_agree_three :
    let params : CodeParams := ⟨3, .one, .one⟩
    (let spec := line "line" [0, 1, 2, 3] 3
      ∃ c c', Repetition.make params = .ok c ∧ make params spec = .ok c' ∧ spec.Lists c.graph ∧ c.AgreesWith c') ∧
    (let spec := board "board" 3
      ∃ c c', RotatedSurface.make params = .ok c ∧ make params spec = .ok c' ∧ spec.Lists c.graph ∧ c.AgreesWith c') := by
  have hp : CodeParams.validate ⟨3, .one, .one⟩ = .ok () := by decide
  exact ⟨(described_codes_agree hp hp ⟨rfl, rfl⟩ "line").1 [0, 1, 2, 3] (by decide) (by decide),
    (described_codes_agree hp hp ⟨rfl, rfl⟩ "board").2 (by decide) (by decide) (by decide)⟩

end LatticeSpec

end QuantumMemory

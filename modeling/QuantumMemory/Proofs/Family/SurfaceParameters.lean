/-
  QuantumMemory.Proofs.Family.SurfaceParameters — rank and distance of the rotated surface
  code.

  A set of data qubits is a board (`marked`), and weights of the checks of a basis are a board
  of their corners (`weightAt`). What a check has of a set is the plaquette of its corner
  (`plaquette_marked`), and what the weights come to on a data qubit is the plaquette of its
  cell (`plaquette_weightAt`). As the corners of a basis are the ones between lines, its
  checks are independent (`rank_surface`). A set of fewer than `d` qubits that meets the checks of a
  basis evenly misses a line, so it is a sum of checks of the other, whose corners are along
  the lines (`sumOf_z`, `sumOf_x`), which the diagonal is not (`diagonal_no_sum`).
-/

import QuantumMemory.Proofs.Family.SurfaceGeometry

namespace QuantumMemory

namespace RotatedSurface

open Checkerboard

variable {d : Nat} {b : CheckBasis}

/-! ## Sets of data qubits as boards -/

def marked (s : Finset Qubit) (q : Qubit) : ZMod 2 := if q ∈ s then 1 else 0

theorem marked_eq_one {s : Finset Qubit} {q : Qubit} : marked s q = 1 ↔ q ∈ s := by
  simp [marked]

theorem marked_eq_zero {s : Finset Qubit} {q : Qubit} (h : q ∉ s) : marked s q = 0 := if_neg h

/-- A check meets a set in the plaquette of its corner. -/
theorem plaquette_marked (hodd : d % 2 = 1) (hd : d ≤ 30000) (s : Finset Qubit) {q : Qubit} {c r : Nat}
    (hs : StandsAt d b q c r) :
    plaquette (board d (marked s)) c r = ({p ∈ s | p ∈ (surface d).support q}.card : ZMod 2) := by
  have hmeet : {p ∈ ((surface d).support q).toFinset | p ∈ s} = {p ∈ s | p ∈ (surface d).support q} := by
    ext p
    rw [Finset.mem_filter, Finset.mem_filter, List.mem_toFinset, and_comm]
  rw [plaquette_board hodd hd hs]
  unfold marked
  rw [Finset.sum_boole, hmeet]

/-! ## Weights of checks as boards of corners -/

/-- The corner that a check stands at. -/
def cornerOf (d : Nat) (q : Qubit) : Nat × Nat :=
  match ((surface d).node? q).bind (·.coordinate) with
  | some place => ((place.x2 / 2).toNat, (place.y2 / 2).toNat)
  | none => (0, 0)

theorem StandsAt.cornerOf_eq {q : Qubit} {c r : Nat} (hs : StandsAt d b q c r) : cornerOf d q = (c, r) := by
  unfold cornerOf
  rw [hs.node]
  show (((2 * c + 1 : Int) / 2).toNat, ((2 * r + 1 : Int) / 2).toNat) = (c, r)
  exact Prod.ext (by omega) (by omega)

theorem check_stands_at {q : Qubit} (h : q ∈ (surface d).checkQubits b) :
    StandsAt d b q (cornerOf d q).1 (cornerOf d q).2 := by
  obtain ⟨c, r, hs⟩ := check_stands h
  rw [hs.cornerOf_eq]
  exact hs

/-- What the checks at a corner weigh together. -/
def weightAt (d : Nat) (b : CheckBasis) (w : Qubit → ZMod 2) (c r : Nat) : ZMod 2 :=
  ∑ q ∈ ((surface d).checkQubits b).toFinset with cornerOf d q = (c, r), w q

section Joined

variable (hodd : d % 2 = 1) (hd : d ≤ 30000)

include hodd

omit hodd in
theorem corner_of_weightAt {w : Qubit → ZMod 2} {c r : Nat} (h : weightAt d b w c r ≠ 0) : (c, r) ∈ corners d b := by
  obtain ⟨q, hq, -⟩ := Finset.exists_ne_zero_of_sum_ne_zero h
  rw [Finset.mem_filter, List.mem_toFinset] at hq
  have hs := (check_stands_at hq.1).corner
  rw [hq.2] at hs
  exact hs

/-- On a cell the weights of the checks come to the plaquette of their corners. -/
theorem plaquette_weightAt (w : Qubit → ZMod 2) {col row : Nat} (hcol : col < d) (hrow : row < d) :
    plaquette (weightAt d b w) col row = (surface d).weightOn b w (row * d + col) := by
  have hsquare : ∀ q ∈ ((surface d).checkQubits b).toFinset,
      row * d + col ∈ (surface d).support q ↔ cornerOf d q ∈ square col row := by
    intro q hq
    rw [(check_stands_at (List.mem_toFinset.mp hq)).mem_support hodd hcol hrow, mem_square]
    unfold Around
    omega
  rw [plaquette_eq_sum, Graph.weightOn, ← Finset.sum_filter, Finset.filter_congr hsquare,
    ← Finset.sum_fiberwise_of_maps_to fun q hq => (Finset.mem_filter.mp hq).2]
  refine Finset.sum_congr rfl fun p hp => Finset.sum_congr ?_ fun _ _ => rfl
  rw [Finset.filter_filter]
  refine Finset.filter_congr fun q _ => ⟨fun h => ⟨?_, h⟩, fun h => h.2⟩
  rw [h]
  exact hp

include hd

theorem corner_inj {q q' : Qubit} (hq : q ∈ (surface d).checkQubits b) (hq' : q' ∈ (surface d).checkQubits b)
    (h : cornerOf d q = cornerOf d q') : q = q' := by
  have hs := check_stands_at hq
  have hs' := check_stands_at hq'
  rw [← h] at hs'
  exact (surface_built hodd hd).sound.placesApart q q' _ _ hs.node hs'.node (Option.some_ne_none _) rfl

theorem weightAt_check (w : Qubit → ZMod 2) {q : Qubit} (hq : q ∈ (surface d).checkQubits b) :
    weightAt d b w (cornerOf d q).1 (cornerOf d q).2 = w q := by
  have honly : {p ∈ ((surface d).checkQubits b).toFinset | cornerOf d p = ((cornerOf d q).1, (cornerOf d q).2)} = {q} := by
    ext p
    rw [Finset.mem_filter, List.mem_toFinset, Finset.mem_singleton]
    constructor
    · intro h
      exact corner_inj hodd hd h.1 hq h.2
    · rintro rfl
      exact ⟨hq, rfl⟩
  rw [weightAt, honly, Finset.sum_singleton]

/-- Weights on corners are weights of the checks there. -/
theorem weightAt_corners {t : Nat → Nat → ZMod 2} (ht : ∀ c r, t c r ≠ 0 → (c, r) ∈ corners d b) :
    weightAt d b (fun q => t (cornerOf d q).1 (cornerOf d q).2) = t := by
  funext c r
  by_cases hc : (c, r) ∈ corners d b
  · obtain ⟨q, hq, hs⟩ := exists_standing hc
    have hw := weightAt_check hodd hd (fun q => t (cornerOf d q).1 (cornerOf d q).2) hq
    rwa [hs.cornerOf_eq] at hw
  · have hzero : t c r = 0 := by
      by_contra hne
      exact hc (ht c r hne)
    rw [hzero]
    by_contra hne
    exact hc (corner_of_weightAt hne)

/-! ## Independence -/

omit hd in
/-- X checks stand between columns and Z checks between rows, so neither have a dependence. -/
theorem corners_independent {t : Nat → Nat → ZMod 2} (ht : ∀ c r, t c r ≠ 0 → (c, r) ∈ corners d b)
    (h : ∀ col row, col < d → row < d → plaquette t col row = 0) : ∀ c r, t c r = 0 := by
  cases b with
  | x =>
    refine independent (d := d) (p := 0) (fun c r hne => ?_) h
    exact (between_x hodd).mp (ht c r hne)
  | z =>
    have hturned := independent (d := d) (p := 1) (t := fun r c => t c r) (fun r c hne => ?_) fun row col hrow hcol => ?_
    · exact fun c r => hturned r c
    · exact (between_z hodd).mp (ht c r hne)
    · rw [← h col row hcol hrow]
      exact plaquette_turned t row col
  | y =>
    intro c r
    by_contra hne
    cases ht c r hne

theorem rank_surface : ((surface d).incidence b).rank = ((surface d).checkQubits b).length := by
  refine Graph.rank_incidence fun w hw q hq => ?_
  rw [← weightAt_check hodd hd w hq]
  refine corners_independent hodd (fun c r => corner_of_weightAt) (fun col row hcol hrow => ?_) _ _
  rw [plaquette_weightAt hodd w hcol hrow]
  exact hw _ (mem_data.mpr (row_lt hcol hrow))

/-! ## Even sets and sums of checks -/

theorem even_board {s : Finset Qubit} (h : (surface d).EvenOn b s) {c r : Nat} (hc : (c, r) ∈ corners d b) :
    plaquette (board d (marked s)) c r = 0 := by
  obtain ⟨q, hq, hs⟩ := exists_standing hc
  rw [plaquette_marked hodd hd s hs, ZMod.natCast_eq_zero_iff_even]
  exact h q hq

theorem sumOf_of_weights {s : Finset Qubit} (hs : ∀ q ∈ s, q < d * d) {t : Nat → Nat → ZMod 2}
    (ht : ∀ c r, t c r ≠ 0 → (c, r) ∈ corners d b)
    (h : ∀ col row, col < d → row < d → plaquette t col row = board d (marked s) (col + 1) (row + 1)) :
    (surface d).SumOf b s := by
  refine Graph.sumOf_iff.mpr ⟨fun q => t (cornerOf d q).1 (cornerOf d q).2, fun q => ?_⟩
  by_cases hq : q < d * d
  · obtain ⟨col, row, hcol, hrow, rfl⟩ := exists_cell hq
    have hcell := h col row hcol hrow
    rw [← weightAt_corners hodd hd ht, plaquette_weightAt hodd _ hcol hrow, board_cell hcol hrow] at hcell
    rw [hcell, marked_eq_one]
  · have hzero : (surface d).weightOn b (fun q => t (cornerOf d q).1 (cornerOf d q).2) q = 0 := by
      refine Finset.sum_eq_zero fun c hc => if_neg fun hsup => hq ?_
      exact support_lt hodd hd (List.mem_toFinset.mp hc) hsup
    rw [hzero]
    exact iff_of_false (fun hmem => hq (hs q hmem)) zero_ne_one

omit hd in
theorem weights_of_sumOf {s : Finset Qubit} (h : (surface d).SumOf b s) :
    ∃ t : Nat → Nat → ZMod 2, (∀ c r, t c r ≠ 0 → (c, r) ∈ corners d b) ∧
      ∀ col row, col < d → row < d → plaquette t col row = board d (marked s) (col + 1) (row + 1) := by
  obtain ⟨w, hw⟩ := Graph.sumOf_iff.mp h
  have hbit : ∀ a : ZMod 2, (if a = 1 then 1 else 0) = a := by decide
  refine ⟨weightAt d b w, fun c r => corner_of_weightAt, fun col row hcol hrow => ?_⟩
  rw [plaquette_weightAt hodd w hcol hrow, board_cell hcol hrow, ← hbit ((surface d).weightOn b w _)]
  exact if_congr (hw _).symm rfl rfl

/-! ## Distance -/

omit hodd hd in
/-- A set of fewer than `d` qubits misses one of `d` lines. -/
theorem exists_missed {s : Finset Qubit} (hfew : s.card < d) (line : Qubit → Nat) : ∃ k < d, ∀ q ∈ s, line q ≠ k := by
  have hcard : (s.image line).card < (Finset.range d).card := by
    rw [Finset.card_range]
    exact Nat.lt_of_le_of_lt Finset.card_image_le hfew
  obtain ⟨k, hk, hmissed⟩ := Finset.exists_mem_notMem_of_card_lt_card hcard
  exact ⟨k, Finset.mem_range.mp hk, fun q hq he => hmissed (Finset.mem_image.mpr ⟨q, hq, he⟩)⟩

/-- A small set that meets the X checks evenly misses a column. -/
theorem sumOf_z {s : Finset Qubit} (hs : ∀ q ∈ s, q < d * d) (heven : (surface d).EvenOn .x s) (hfew : s.card < d) :
    (surface d).SumOf .z s := by
  obtain ⟨k, hk, hmissed⟩ := exists_missed hfew (· % d)
  have hempty : ∀ v, board d (marked s) (k + 1) v = 0 := by
    intro v
    unfold board
    split
    · exact marked_eq_zero fun hmem => hmissed _ hmem (mod_row _ hk)
    · rfl
  have hbetween : ∀ c r, BetweenLines d 0 c r → plaquette (board d (marked s)) c r = 0 := by
    intro c r hb
    exact even_board hodd hd heven ((between_x hodd).mpr hb)
  obtain ⟨t, ht, hspan⟩ := spanned_of_empty (by omega) board_inside hbetween (Nat.succ_pos k) hk hempty
  refine sumOf_of_weights hodd hd hs (fun c r hne => ?_) hspan
  exact (along_z hodd).mpr (ht c r hne)

/-- A small set that meets the Z checks evenly misses a row. -/
theorem sumOf_x {s : Finset Qubit} (hs : ∀ q ∈ s, q < d * d) (heven : (surface d).EvenOn .z s) (hfew : s.card < d) :
    (surface d).SumOf .x s := by
  obtain ⟨k, hk, hmissed⟩ := exists_missed hfew (· / d)
  have hempty : ∀ u, board d (marked s) u (k + 1) = 0 := by
    intro u
    unfold board
    split
    · exact marked_eq_zero fun hmem => hmissed _ hmem (div_row _ (by omega))
    · rfl
  have hbetween : ∀ r c, BetweenLines d 1 r c → plaquette (fun v u => board d (marked s) u v) r c = 0 := by
    intro r c hb
    rw [plaquette_turned]
    exact even_board hodd hd heven ((between_z hodd).mpr hb)
  obtain ⟨t, ht, hspan⟩ := spanned_of_empty (by omega) board_inside.turned hbetween (Nat.succ_pos k) hk hempty
  refine sumOf_of_weights hodd hd hs (t := fun c r => t r c) (fun c r hne => ?_) fun col row hcol hrow => ?_
  · exact (along_x hodd).mpr (ht r c hne)
  · rw [plaquette_turned]
    exact hspan row col hrow hcol

/-! ## The diagonal -/

omit hodd hd in
theorem mem_logical {col row : Nat} (hcol : col < d) (hrow : row < d) :
    row * d + col ∈ (logical d).toFinset ↔ col = row := by
  rw [List.mem_toFinset, logical, List.mem_map]
  constructor
  · intro h
    obtain ⟨i, hi, he⟩ := h
    rw [Nat.add_comm, cell_eq (List.mem_range.mp hi) hcol] at he
    exact he.2.symm.trans he.1
  · rintro rfl
    exact ⟨col, List.mem_range.mpr hcol, Nat.add_comm _ _⟩

omit hodd hd in
theorem logical_nodup (d : Nat) : (logical d).Nodup := by
  refine List.nodup_range.map fun i j he => ?_
  have hd : i * (d + 1) = j * (d + 1) := by
    rw [Nat.mul_succ, Nat.mul_succ, Nat.add_comm, he, Nat.add_comm]
  exact Nat.eq_of_mul_eq_mul_right (Nat.succ_pos d) hd

omit hd in
/-- The diagonal has one cell in the first column, and a sum of Z checks has an even number. -/
theorem diagonal_no_sum (hpos : 0 < d) : ¬(surface d).SumOf .z (logical d).toFinset := by
  intro h
  obtain ⟨t, ht, hspan⟩ := weights_of_sumOf hodd h
  have halong : ∀ c r, t c r ≠ 0 → AlongLines d 0 c r := by
    intro c r hne
    exact (along_z hodd).mp (ht c r hne)
  have hcolumn : upTo (board d (marked (logical d).toFinset)) (0 + 1) d = 1 := by
    have hcell : ∀ row ∈ Finset.range d, board d (marked (logical d).toFinset) (0 + 1) (row + 1) = if 0 = row then 1 else 0 := by
      intro row hrow
      rw [board_cell hpos (Finset.mem_range.mp hrow)]
      exact if_congr (mem_logical hpos (Finset.mem_range.mp hrow)) rfl rfl
    have hedge : board d (marked (logical d).toFinset) (0 + 1) 0 = 0 := if_neg (by omega)
    rw [upTo, Finset.sum_range_succ', hedge, add_zero, Finset.sum_congr rfl hcell, Finset.sum_ite_eq,
      if_pos (Finset.mem_range.mpr hpos)]
  rw [line_of_span board_inside halong hspan hpos] at hcolumn
  exact zero_ne_one hcolumn

omit hd in
theorem diagonal_evenOn : (surface d).EvenOn .x (logical d).toFinset := by
  intro c hc
  have hlength : {q ∈ (logical d).toFinset | q ∈ (surface d).support c}.card =
      ((logical d).filter (· ∈ (surface d).support c)).length := by
    rw [← List.toFinset_card_of_nodup ((logical_nodup d).filter _), List.toFinset_filter]
    simp only [decide_eq_true_eq]
  rw [hlength]
  exact diagonal_even hodd hc

end Joined

/-! ## The whole code -/

/-- The rows of the X checks and of the Z checks are independent and leave one logical qubit,
    whose operators of either kind have at least `d` data qubits. The diagonal is one with as many. -/
structure Parameters (d : Nat) (g : Graph) (logical : List Qubit) : Prop where
  xRank : (g.incidence .x).rank = (d * d - 1) / 2
  zRank : (g.incidence .z).rank = (d * d - 1) / 2
  oneLogical : g.dataQubits.length = (g.incidence .x).rank + (g.incidence .z).rank + 1
  xDistance : ∀ s : Finset Qubit, (∀ q ∈ s, q ∈ g.dataQubits) → g.EvenOn .x s → ¬g.SumOf .z s → d ≤ s.card
  zDistance : ∀ s : Finset Qubit, (∀ q ∈ s, q ∈ g.dataQubits) → g.EvenOn .z s → ¬g.SumOf .x s → d ≤ s.card
  logicalData : ∀ q ∈ logical.toFinset, q ∈ g.dataQubits
  logicalEven : g.EvenOn .x logical.toFinset
  logicalNoSum : ¬g.SumOf .z logical.toFinset
  logicalCard : logical.toFinset.card = d

theorem surface_parameters (h3 : 3 ≤ d) (hodd : d % 2 = 1) (hd : d ≤ 30000) :
    Parameters d (surface d) (logical d) := by
  have hxRank : ((surface d).incidence .x).rank = (d * d - 1) / 2 := by
    rw [rank_surface hodd hd, xChecks_surface hodd, List.length_range']
  have hzRank : ((surface d).incidence .z).rank = (d * d - 1) / 2 := by
    rw [rank_surface hodd hd, zChecks_surface hodd, List.length_range']
  have hsquare : d * d % 2 = 1 := by rw [Nat.mul_mod, hodd]
  refine ⟨hxRank, hzRank, ?_, fun s hs heven hnot => ?_, fun s hs heven hnot => ?_, fun q hq => ?_,
    diagonal_evenOn hodd, diagonal_no_sum hodd (by omega), ?_⟩
  · rw [hxRank, hzRank, dataQubits_surface, List.length_range]
    omega
  · by_contra hfew
    exact hnot (sumOf_z hodd hd (fun q hq => mem_data.mp (hs q hq)) heven (by omega))
  · by_contra hfew
    exact hnot (sumOf_x hodd hd (fun q hq => mem_data.mp (hs q hq)) heven (by omega))
  · obtain ⟨i, hi, rfl⟩ := List.mem_map.mp (List.mem_toFinset.mp hq)
    rw [mem_data, Nat.add_comm]
    exact row_lt (List.mem_range.mp hi) (List.mem_range.mp hi)
  · rw [List.toFinset_card_of_nodup (logical_nodup d), logical, List.length_map, List.length_range]

/-- At every odd distance the code can be made and has these parameters. -/
theorem make_parameters {params : CodeParams} (hp : params.validate = .ok ()) (h3 : 3 ≤ params.distance)
    (hodd : params.distance % 2 = 1) (hd : params.distance ≤ 30000) :
    ∃ code, make params = .ok code ∧ Parameters params.distance code.graph code.logical := by
  obtain ⟨l, hl⟩ := layout_total hodd hd
  exact ⟨_, make_eq hp h3 hodd hd hl, surface_parameters h3 hodd hd⟩

/-- At distance 3 the diagonal is an operator of three data qubits, and no smaller one is there. -/
theorem make_parameters_three :
    ∃ code, make ⟨3, .one, .one⟩ = .ok code ∧ Parameters 3 code.graph code.logical ∧ code.logical = [0, 4, 8] := by
  obtain ⟨code, hmake, hparameters⟩ := make_parameters (by rfl : CodeParams.validate ⟨3, .one, .one⟩ = .ok ()) (by decide)
    (by decide) (by decide)
  have hrun : (make ⟨3, .one, .one⟩).toOption.any (fun code => code.logical = [0, 4, 8]) = true := by decide +kernel
  rw [hmake] at hrun
  simp only [Except.toOption, Option.any_some, decide_eq_true_eq] at hrun
  exact ⟨code, hmake, hparameters, hrun⟩

end RotatedSurface

end QuantumMemory

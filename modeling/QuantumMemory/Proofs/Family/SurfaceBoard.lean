/-
  QuantumMemory.Proofs.Family.SurfaceBoard — the data qubits of the rotated surface code as a
  board.

  Values on the data qubits are a board with columns and rows counted from one (`board`),
  and what a check has of them is the plaquette of its corner (`plaquette_board`). With
  columns for lines X checks stand between lines and Z checks along them, and with rows for
  lines it is the other way round (`between_x`, `along_z`, `between_z`, `along_x`).
-/

import QuantumMemory.Proofs.Family.Checkerboard
import QuantumMemory.Proofs.Family.SurfaceLayout

namespace QuantumMemory

namespace RotatedSurface

open Checkerboard

variable {d : Nat} {b : CheckBasis}

/-! ## Supports -/

theorem StandsAt.mem_support (hodd : d % 2 = 1) {q : Qubit} {c r : Nat} (hs : StandsAt d b q c r) {col row : Nat}
    (hcol : col < d) (hrow : row < d) : row * d + col ∈ (surface d).support q ↔ Around c r col row := by
  have hcheck : q ∈ (surface d).checkQubits b := Graph.mem_checkQubits.mpr ⟨_, hs.node, rfl⟩
  rw [Graph.support_check (Graph.not_isData_of_check hcheck), hs.links, List.mem_map]
  constructor
  · rintro ⟨⟨k, _⟩, hk, rfl⟩
    exact ((link_iff hodd hs.corner hcol hrow).mp hk).1
  · intro h
    exact ⟨_, (link_iff hodd hs.corner hcol hrow).mpr ⟨h, rfl⟩, rfl⟩

section Joined

variable (hodd : d % 2 = 1) (hd : d ≤ 30000)

include hodd hd

theorem support_lt {c q : Qubit} (hc : c ∈ (surface d).checkQubits b) (h : q ∈ (surface d).support c) : q < d * d := by
  rw [Graph.support_check (Graph.not_isData_of_check hc)] at h
  obtain ⟨i, hi, rfl⟩ := List.mem_map.mp h
  exact mem_data.mp (Graph.mem_dataQubits.mpr ((surface_built hodd hd).sound.link_isData hi))

theorem support_nodup {c : Qubit} (hc : c ∈ (surface d).checkQubits b) : ((surface d).support c).Nodup := by
  rw [Graph.support_check (Graph.not_isData_of_check hc)]
  exact (surface_built hodd hd).sound.links_data_nodup c

end Joined

/-! ## Boards -/

/-- The values of the data qubits, columns and rows counted from one. -/
def board (d : Nat) (F : Qubit → ZMod 2) (u v : Nat) : ZMod 2 :=
  if 1 ≤ u ∧ u ≤ d ∧ 1 ≤ v ∧ v ≤ d then F ((v - 1) * d + (u - 1)) else 0

variable {F : Qubit → ZMod 2}

theorem board_inside : Inside d (board d F) := by
  intro u v hne
  by_contra hout
  exact hne (if_neg hout)

theorem board_cell {col row : Nat} (hcol : col < d) (hrow : row < d) :
    board d F (col + 1) (row + 1) = F (row * d + col) := if_pos (by omega)

/-- A check has the plaquette of its corner. -/
theorem plaquette_board (hodd : d % 2 = 1) (hd : d ≤ 30000) {q : Qubit} {c r : Nat} (hs : StandsAt d b q c r) :
    plaquette (board d F) c r = ∑ p ∈ ((surface d).support q).toFinset, F p := by
  have hcheck : q ∈ (surface d).checkQubits b := Graph.mem_checkQubits.mpr ⟨_, hs.node, rfl⟩
  rw [plaquette_eq_sum]
  unfold board
  rw [← Finset.sum_filter]
  refine Finset.sum_nbij' (fun w => (w.2 - 1) * d + (w.1 - 1)) (fun p => (p % d + 1, p / d + 1)) ?_ ?_ ?_ ?_ fun _ _ => rfl
  · intro w hw
    obtain ⟨hsquare, h1, h2, h3, h4⟩ := Finset.mem_filter.mp hw
    rw [List.mem_toFinset, hs.mem_support hodd (by omega) (by omega)]
    have hw := mem_square.mp hsquare
    unfold Around
    omega
  · intro p hp
    rw [List.mem_toFinset] at hp
    obtain ⟨col, row, hcol, hrow, rfl⟩ := exists_cell (support_lt hodd hd hcheck hp)
    have ha := (hs.mem_support hodd hcol hrow).mp hp
    simp only [mod_row row hcol, div_row row hcol]
    unfold Around at ha
    exact Finset.mem_filter.mpr ⟨mem_square.mpr (by omega), by omega⟩
  · intro w hw
    obtain ⟨-, h1, h2, h3, h4⟩ := Finset.mem_filter.mp hw
    have hlt : w.1 - 1 < d := by omega
    simp only [mod_row _ hlt, div_row _ hlt]
    exact Prod.ext (by omega) (by omega)
  · intro p _
    simp only [Nat.add_sub_cancel]
    rw [Nat.mul_comm, Nat.div_add_mod]

/-! ## Corners by their lines -/

section Lines

variable (hodd : d % 2 = 1) {c r : Nat}

include hodd

theorem between_x : (c, r) ∈ corners d .x ↔ BetweenLines d 0 c r := by
  refine (mem_xCorners hodd).trans ?_
  unfold BetweenLines
  omega

theorem along_z : (c, r) ∈ corners d .z ↔ AlongLines d 0 c r := by
  refine (mem_zCorners hodd).trans ?_
  unfold AlongLines
  omega

theorem between_z : (c, r) ∈ corners d .z ↔ BetweenLines d 1 r c := by
  refine (mem_zCorners hodd).trans ?_
  unfold BetweenLines
  omega

theorem along_x : (c, r) ∈ corners d .x ↔ AlongLines d 1 r c := by
  refine (mem_xCorners hodd).trans ?_
  unfold AlongLines
  omega

end Lines

end RotatedSurface

end QuantumMemory

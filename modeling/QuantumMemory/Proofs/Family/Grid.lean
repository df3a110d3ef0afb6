/-
  QuantumMemory.Proofs.Family.Grid — a grid listed row by row, and the number of a cell in
  that list.
-/

import Mathlib.Data.List.Flatten
import Mathlib.Data.List.Nodup
import Mathlib.Tactic.Ring

namespace QuantumMemory

variable {α : Type} {d col : Nat}

theorem div_row (row : Nat) (h : col < d) : (row * d + col) / d = row := by
  rw [Nat.mul_comm, Nat.mul_add_div (Nat.lt_of_le_of_lt (Nat.zero_le col) h), Nat.div_eq_of_lt h, Nat.add_zero]

theorem mod_row (row : Nat) (h : col < d) : (row * d + col) % d = col := by
  rw [Nat.mul_comm, Nat.mul_add_mod, Nat.mod_eq_of_lt h]

theorem row_lt {n row : Nat} (hcol : col < d) (hrow : row < n) : row * d + col < n * d := by
  calc row * d + col < row * d + d := by omega
    _ = (row + 1) * d := by ring
    _ ≤ n * d := Nat.mul_le_mul_right d hrow

theorem cell_eq {row col' row' : Nat} (hcol : col < d) (hcol' : col' < d) :
    row * d + col = row' * d + col' ↔ row = row' ∧ col = col' := by
  constructor
  · intro h
    have hdiv := congrArg (· / d) h
    have hmod := congrArg (· % d) h
    simp only [div_row _ hcol, div_row _ hcol', mod_row _ hcol, mod_row _ hcol'] at hdiv hmod
    exact ⟨hdiv, hmod⟩
  · rintro ⟨rfl, rfl⟩
    rfl

/-- Every number below the size of the grid is that of a cell. -/
theorem exists_cell {n q : Nat} (h : q < n * d) : ∃ col row, col < d ∧ row < n ∧ q = row * d + col := by
  have hd : 0 < d := Nat.pos_of_ne_zero fun h0 => by subst h0; simp at h
  exact ⟨q % d, q / d, Nat.mod_lt q hd, Nat.div_lt_of_lt_mul (Nat.mul_comm n d ▸ h), by rw [Nat.mul_comm, Nat.div_add_mod]⟩

theorem grid_eq (n d : Nat) (f : Nat → Nat → α) :
    ((List.range n).flatMap fun row => (List.range d).map fun col => f row col) =
      (List.range (n * d)).map fun q => f (q / d) (q % d) := by
  induction n with
  | zero => simp
  | succ n ih =>
    rw [List.range_succ, List.flatMap_append, ih, Nat.succ_mul, List.range_add, List.map_append, List.map_map,
      List.flatMap_singleton]
    refine congrArg _ (List.map_congr_left fun col hcol => ?_)
    have hlt := List.mem_range.mp hcol
    rw [Function.comp_apply, mod_row n hlt, div_row n hlt]

theorem length_grid (m n : Nat) (f : Nat → Nat → α) :
    ((List.range m).flatMap fun i => (List.range n).map (f i)).length = m * n := by
  simp [List.length_flatMap]

/-- A grid that names its rows and columns names no place twice. -/
theorem grid_nodup (m n : Nat) {f : Nat → Nat → α} (h : ∀ i k i' k', f i k = f i' k' → i = i' ∧ k = k') :
    ((List.range m).flatMap fun i => (List.range n).map (f i)).Nodup := by
  refine List.nodup_flatMap.mpr ⟨fun i _ => List.nodup_range.map fun k k' he => (h i k i k' he).2, ?_⟩
  refine List.nodup_range.imp fun hne p hp hp' => hne ?_
  obtain ⟨k, -, rfl⟩ := List.mem_map.mp hp
  obtain ⟨k', -, he⟩ := List.mem_map.mp hp'
  exact (h _ k' _ k he).1.symm

end QuantumMemory

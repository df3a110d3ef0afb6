/-
  QuantumMemory.Proofs.Family.SurfaceDistance — the rotated surface memory fails unseen only
  under as many faults as its distance.

  X checks go along a row at a time, so what is left of one reaches one row an odd number
  of times (`hooksInRow`). Where all Z checks are even, so are the plaquettes between rows, and
  all rows and the diagonal, the logical operator, are of one parity (`rowsAgree`). By the count of
  rows it then takes `d` faults (`fault_distance`).
-/

import QuantumMemory.Proofs.Family.SurfaceBoard
import QuantumMemory.Proofs.Memory.DataErrors
import QuantumMemory.Proofs.Memory.Distance

namespace QuantumMemory

namespace RotatedSurface

open Checkerboard

variable {d : Nat}

/-! ## Hooks -/

theorem hooksInRow (hodd : d % 2 = 1) : Layout.HooksInRow (surface d) (· / d) := by
  intro q hq k
  obtain ⟨c, r, hs⟩ := check_stands hq
  obtain ⟨h1, h2, -, -⟩ := (mem_xCorners hodd).mp hs.corner
  have hleft := fun row => div_row row (show c - 1 < d by omega)
  have hright := fun row => div_row row h2
  refine ⟨if k ≤ 2 then r else r - 1, fun ρ hρ => ?_⟩
  rw [Layout.toRow, hs.links, cornerLinks, xLinks, List.map_append, List.sum_append]
  by_cases hk : k ≤ 2
  · -- The lower row is another one, and the upper one is reached twice.
    rw [if_pos hk] at hρ
    have h3 : k ≤ 3 := by omega
    have h4 : k ≤ 4 := by omega
    split <;> split <;> simp [hleft, hright, Ne.symm hρ, h3, h4, CharTwo.add_self_eq_zero]
  · rw [if_neg hk] at hρ
    have h1 : ¬k ≤ 1 := by omega
    split <;> split <;> simp [hleft, hright, Ne.symm hρ, h1, hk]

/-! ## Rows -/

/-- A row of the board, counted from one. -/
theorem upTo_row (F : Qubit → ZMod 2) {ρ n : Nat} (hρ : ρ < d) (hn : n ≤ d) :
    upTo (fun v u => board d F u v) (ρ + 1) n = ∑ col ∈ Finset.range n, F (ρ * d + col) := by
  have hedge : board d F 0 (ρ + 1) = 0 := if_neg (by omega)
  rw [upTo, Finset.sum_range_succ', hedge, add_zero]
  refine Finset.sum_congr rfl fun col hcol => board_cell ?_ hρ
  exact Nat.lt_of_lt_of_le (Finset.mem_range.mp hcol) hn

/-- Where the Z checks are even, all rows have the parity of the diagonal. -/
theorem row_parity {F : Qubit → ZMod 2} (heven : ∀ c r, (c, r) ∈ corners d .z → plaquette (board d F) c r = 0)
    (hodd : d % 2 = 1) {ρ : Nat} (hρ : ρ < d) :
    ∑ col ∈ Finset.range d, F (ρ * d + col) = ∑ k ∈ Finset.range d, F (k * d + k) := by
  have hinside : Inside d fun v u => board d F u v := board_inside.turned
  have hbetween : ∀ r c, BetweenLines d 1 r c → plaquette (fun v u => board d F u v) r c = 0 := by
    intro r c hb
    rw [plaquette_turned]
    exact heven c r ((between_z hodd).mpr hb)
  have hdiagonal := diagonal_eq hinside hbetween rfl d (Nat.le_refl d)
  have hedge : board d F 0 0 = 0 := if_neg (by omega)
  have hcells : ∀ k ∈ Finset.range d, board d F (k + 1) (k + 1) = F (k * d + k) := by
    intro k hk
    exact board_cell (Finset.mem_range.mp hk) (Finset.mem_range.mp hk)
  rw [Finset.sum_range_succ', hedge, add_zero, Finset.sum_congr rfl hcells] at hdiagonal
  rw [hdiagonal, ← upTo_row F hρ (Nat.le_refl d)]
  exact line_eq hinside hbetween (by decide) (Nat.succ_pos ρ) hρ (by omega) (Nat.le_refl d)

/-- Where the Z checks are even, the rows have the parity of the logical operator. -/
theorem rowsAgree (hodd : d % 2 = 1) (hd : d ≤ 30000) {l : Layout} (hf : Layout.Fits (surface d) [.z, .x] l) :
    Layout.RowsAgree l (· / d) d (logical d) := by
  intro F hz ρ hρ
  have heven : ∀ c r, (c, r) ∈ corners d .z → plaquette (board d F) c r = 0 := by
    intro c r h
    obtain ⟨q, hq, hs⟩ := exists_standing h
    have hsum := hz q (by rwa [hf.checks])
    rw [hf.support (hf.check_mem hq), ← Graph.support_check (Graph.not_isData_of_check hq)] at hsum
    rw [plaquette_board hodd hd hs, List.sum_toFinset _ (support_nodup hodd hd hq)]
    exact hsum
  have hrow : (l.rowOf (· / d) ρ).Perm ((List.range d).map fun col => ρ * d + col) := by
    refine (List.perm_ext_iff_of_nodup (hf.data_nodup.filter _) ?_).mpr fun q => ?_
    · exact List.nodup_range.map fun a b h => Nat.add_left_cancel h
    · simp only [List.mem_filter, hf.data, mem_data, List.mem_map, List.mem_range, decide_eq_true_eq]
      constructor
      · intro h
        obtain ⟨-, rfl⟩ := h
        exact ⟨q % d, Nat.mod_lt q (by omega), by rw [Nat.mul_comm, Nat.div_add_mod]⟩
      · intro h
        obtain ⟨col, hcol, rfl⟩ := h
        exact ⟨row_lt hcol hρ, div_row ρ hcol⟩
  have hlogical : (logical d).map F = (List.range d).map fun k => F (k * d + k) := by
    rw [logical, List.map_map]
    exact List.map_congr_left fun k _ => congrArg F (Nat.add_comm k (k * d))
  rw [(hrow.map F).sum_eq, List.map_map, hlogical]
  calc (((List.range d).map (F ∘ fun col => ρ * d + col)).sum : ZMod 2)
      = ∑ col ∈ Finset.range d, F (ρ * d + col) := rfl
    _ = ∑ k ∈ Finset.range d, F (k * d + k) := row_parity heven hodd hρ
    _ = ((List.range d).map fun k => F (k * d + k)).sum := rfl

/-! ## The memory -/

/-- The memory can be built at every odd distance, and fewer faults than that, anywhere in its
    noise, either fire a detector or leave the observable as it is. -/
theorem fault_distance {params : CodeParams} (hp : params.validate = .ok ()) (h3 : 3 ≤ params.distance)
    (hodd : params.distance % 2 = 1) (hd : params.distance ≤ 30000) {rounds : Nat} (hpos : 1 ≤ rounds) :
    ∃ code e, make params = .ok code ∧ (Code.placed code).buildMemory rounds = .ok e ∧
      ∀ faults : List Fault, faults.length < params.distance → (∀ fault ∈ faults, e.circuit.CanFail fault) →
        (∀ a ∈ e.circuit.detectorFlips (errorsOf faults), a = 0) →
        e.circuit.observableFlips (errorsOf faults) = [(0, 0)] := by
  obtain ⟨l, hl⟩ := layout_total hodd hd
  have hf := Layout.ofGraph_ok hl
  have hs := (surface_built hodd hd).sound
  have hreach := layout_inReach hodd hd hf
  obtain ⟨h1, h2⟩ := Layout.usable_of_validate hp
  have hlog : ∀ q ∈ logical params.distance, q ∈ l.data := by
    intro q hq
    obtain ⟨k, hk, rfl⟩ := List.mem_map.mp hq
    rw [hf.data, Nat.add_comm]
    exact mem_data.mpr (row_lt (List.mem_range.mp hk) (List.mem_range.mp hk))
  have hne : logical params.distance ≠ [] := by
    intro he
    have hlen := congrArg List.length he
    simp only [logical, List.length_map, List.length_range, List.length_nil] at hlen
    omega
  refine ⟨_, _, make_eq hp h3 hodd hd hl, Layout.buildMemory_eq (hf.tidy hs (by decide)) hreach _ h1 h2 hpos hlog, ?_⟩
  intro faults hfew hfaults hsilent
  by_contra hflip
  have hmany := Layout.rows_le_faults hf hs (by decide) hreach (Layout.skipped_emit hl) (hooksInRow hodd) hlog hne
    (rowsAgree hodd hd hf) _ params hpos hfaults hsilent hflip
  omega

/-- At distance 3, X on both data qubits of an X check at the edge: two faults that no
    detector sees. -/
theorem fault_distance_three :
    ∃ code e, make ⟨3, .one, .one⟩ = .ok code ∧ (Code.placed code).buildMemory 1 = .ok e ∧
      (∀ fault ∈ [(⟨1, .xOn {1}⟩ : Fault), ⟨1, .xOn {2}⟩], e.circuit.CanFail fault) ∧
      (∀ a ∈ e.circuit.detectorFlips (errorsOf [⟨1, .xOn {1}⟩, ⟨1, .xOn {2}⟩]), a = 0) ∧
      e.circuit.observableFlips (errorsOf [⟨1, .xOn {1}⟩, ⟨1, .xOn {2}⟩]) = [(0, 0)] := by
  obtain ⟨code, e, hmake, hbuild, hunseen⟩ := fault_distance (by rfl : CodeParams.validate ⟨3, .one, .one⟩ = .ok ())
    (by decide) (by decide) (by decide) (by decide : 1 ≤ 1)
  have hrun : ((make ⟨3, .one, .one⟩).toOption.bind fun code => ((Code.placed code).buildMemory 1).toOption).any (fun e =>
      e.circuit.instructions[1]? = some (.noise (.depolarize1 .one) (List.range 17)) ∧
        ∀ a ∈ e.circuit.detectorFlips (errorsOf [⟨1, .xOn {1}⟩, ⟨1, .xOn {2}⟩]), a = 0) = true := by decide +kernel
  simp only [hmake, hbuild, Except.toOption, Option.bind_some, Option.any_some, decide_eq_true_eq] at hrun
  obtain ⟨hnoise, hsilent⟩ := hrun
  have hfault : ∀ q, q < 17 → e.circuit.CanFail ⟨1, .xOn {q}⟩ := by
    intro q hq
    refine ⟨_, hnoise, fun h0 => ?_, q, List.mem_range.mpr hq, fun q' hq' => ?_⟩
    · have hx := congrArg (fun p : Pauli => p.x q) h0
      simp [Pauli.xOn] at hx
    · have hne : q' ∉ ({q} : Finset Qubit) := by simpa using hq'
      exact ⟨if_neg hne, rfl⟩
  have hfaults : ∀ fault ∈ [(⟨1, .xOn {1}⟩ : Fault), ⟨1, .xOn {2}⟩], e.circuit.CanFail fault :=
    List.forall_mem_cons.mpr ⟨hfault 1 (by decide), List.forall_mem_singleton.mpr (hfault 2 (by decide))⟩
  exact ⟨code, e, hmake, hbuild, hfaults, hsilent, hunseen _ (by decide) hfaults hsilent⟩

end RotatedSurface

end QuantumMemory

/-
  QuantumMemory.Proofs.Family.RepetitionDistance — the repetition memory fails unseen only
  under as many faults as its distance.

  Every data qubit is a row of its own. There are no X checks, so no fault is handed on from a
  check to data (`hooksInRow`). Where all checks are even, neighbours have the same final outcome,
  and so all data qubits have that of the first, the logical operator (`rowsAgree`). By the count
  of rows it then takes `d` faults (`repetition_fault_distance`).
-/

import QuantumMemory.Proofs.Family.Repetition
import QuantumMemory.Proofs.Memory.DataErrors
import QuantumMemory.Proofs.Memory.Distance

namespace QuantumMemory

namespace Repetition

variable {d : Nat}

/-! ## The line -/

/-- The check between a data qubit and the next. -/
theorem exists_check {k : Nat} (hk : k + 1 < d) :
    d + k ∈ (chain d).checkQubits .z ∧ (chain d).links (d + k) = [⟨1, k⟩, ⟨2, k + 1⟩] := by
  have hnode : (chain d).node? (d + k) = some (checkNode k) := by
    rw [chain, Graph.node?_ofNodes, nodes, List.getElem?_append_right (by simp [length_dataSites]), List.length_map,
      length_dataSites, Nat.add_sub_cancel_left, List.getElem?_map, List.getElem?_range (by omega)]
    rfl
  exact ⟨Graph.mem_checkQubits.mpr ⟨_, hnode, rfl⟩, Graph.links_of_node hnode⟩

theorem mem_data {q : Qubit} : q ∈ (chain d).dataQubits ↔ q < d := by
  rw [Graph.mem_dataQubits, Graph.isData_iff]
  constructor
  · intro h
    obtain ⟨n, hn, hr⟩ := h
    rcases node_cases hn with ⟨-, hlt⟩ | ⟨k, -, -, rfl⟩
    · exact hlt
    · cases hr
  · intro h
    refine ⟨LatticeBuilder.bare .data ⟨2 * q, 2 * q⟩, ?_, rfl⟩
    rw [chain, Graph.node?_ofNodes, nodes, List.getElem?_append_left (by simpa [length_dataSites] using h),
      List.getElem?_map, dataSites, List.getElem?_map, List.getElem?_range h]
    rfl

theorem hooksInRow : Layout.HooksInRow (chain d) id := by
  intro q hq
  obtain ⟨k, -, hb, -⟩ := check_stands hq
  cases hb

/-! ## One final outcome for all -/

/-- Where the checks are even, all data qubits have the parity of the first. -/
theorem rowsAgree {l : Layout} (hf : Layout.Fits (chain d) [.z] l) : Layout.RowsAgree l id d [0] := by
  intro F heven ρ hρ
  have hstep : ∀ k, k + 1 < d → F (k + 1) = F k := by
    intro k hk
    obtain ⟨hmem, hlinks⟩ := exists_check hk
    have hsum := heven (d + k) (by rwa [hf.checks])
    rw [hf.support (hf.check_mem hmem), hlinks] at hsum
    simp only [List.map_cons, List.map_nil, List.sum_cons, List.sum_nil, add_zero] at hsum
    exact (CharTwo.add_eq_zero.mp hsum).symm
  have hfirst : ∀ k < d, F k = F 0 := by
    intro k
    induction k with
    | zero => exact fun _ => rfl
    | succ k ih => exact fun hk => (hstep k hk).trans (ih (by omega))
  have hrow : l.rowOf id ρ = [ρ] := by
    have hcount : (l.data.filter fun q => id q = ρ) = List.replicate (l.data.count ρ) ρ := List.filter_eq ρ
    have hone : l.data.count ρ = 1 := List.count_eq_one_of_mem hf.data_nodup (by rw [hf.data]; exact mem_data.mpr hρ)
    rw [Layout.rowOf, hcount, hone]
    rfl
  rw [hrow]
  exact congrArg (fun a => [a].sum) (hfirst ρ hρ)

/-! ## The memory -/

/-- The memory can be built at every distance below 2^29 and for any number of rounds, and fewer
    faults than the distance, anywhere in its noise, either fire a detector or leave the
    observable as it is. -/
theorem repetition_fault_distance {params : CodeParams} (hp : params.validate = .ok ()) (h2 : 2 ≤ params.distance)
    (hd : params.distance < 2 ^ 29) {rounds : Nat} (hpos : 1 ≤ rounds) :
    ∃ code e, make params = .ok code ∧ (Code.placed code).buildMemory rounds = .ok e ∧
      ∀ faults : List Fault, faults.length < params.distance → (∀ fault ∈ faults, e.circuit.CanFail fault) →
        (∀ a ∈ e.circuit.detectorFlips (errorsOf faults), a = 0) →
        e.circuit.observableFlips (errorsOf faults) = [(0, 0)] := by
  have hbuilt := chain_built (Nat.le_of_lt hd)
  obtain ⟨l, hl⟩ := layout_of_built hbuilt
  have hmake := make_of_graph hp h2 (graph_eq (Nat.le_of_lt hd)) hl
  have hcode := make_consistent hmake
  have hsize : (chain params.distance).size < 2 ^ 30 := by
    rw [chain_size]
    omega
  have hf := Layout.ofGraph_ok hl
  have hlog : ∀ q ∈ [0], q ∈ l.data := by
    intro q hq
    rw [List.mem_singleton.mp hq, hf.data, mem_data]
    exact Nat.lt_of_lt_of_le Nat.zero_lt_two h2
  refine ⟨_, _, hmake, hcode.buildMemory_eq hsize hpos, fun faults hfew hfaults hsilent => ?_⟩
  by_contra hflip
  have hmany := Layout.rows_le_faults hf hbuilt.sound (by decide) (hcode.inReach hsize) (Layout.skipped_emit hl) hooksInRow
    hlog (List.cons_ne_nil _ _) (rowsAgree hf) _ params hpos hfaults hsilent hflip
  omega

/-- At distance 3, X on a data qubit after its reset, and X on both qubits of its first
    interaction: two faults that take each other back. -/
theorem repetition_fault_distance_three :
    ∃ code e, make ⟨3, .one, .one⟩ = .ok code ∧ (Code.placed code).buildMemory 2 = .ok e ∧
      (∀ fault ∈ [(⟨1, .xOn {1}⟩ : Fault), ⟨3, .xOn {1, 4}⟩], e.circuit.CanFail fault) ∧
      (∀ a ∈ e.circuit.detectorFlips (errorsOf [⟨1, .xOn {1}⟩, ⟨3, .xOn {1, 4}⟩]), a = 0) ∧
      e.circuit.observableFlips (errorsOf [⟨1, .xOn {1}⟩, ⟨3, .xOn {1, 4}⟩]) = [(0, 0)] := by
  obtain ⟨code, e, hmake, hbuild, hunseen⟩ := repetition_fault_distance
    (by rfl : CodeParams.validate ⟨3, .one, .one⟩ = .ok ()) (by decide) (by decide) (by decide : 1 ≤ 2)
  have hrun : ((make ⟨3, .one, .one⟩).toOption.bind fun code => ((Code.placed code).buildMemory 2).toOption).any (fun e =>
      e.circuit.instructions[1]? = some (.noise (.depolarize1 .one) (List.range 5)) ∧
        e.circuit.instructions[3]? = some (.noise (.depolarize2 .one) [0, 3, 1, 4]) ∧
        ∀ a ∈ e.circuit.detectorFlips (errorsOf [⟨1, .xOn {1}⟩, ⟨3, .xOn {1, 4}⟩]), a = 0) = true := by decide +kernel
  simp only [hmake, hbuild, Except.toOption, Option.bind_some, Option.any_some, decide_eq_true_eq] at hrun
  obtain ⟨hone, htwo, hsilent⟩ := hrun
  have hne : ∀ S : Finset Qubit, 1 ∈ S → Pauli.xOn S ≠ 0 := by
    intro S hS h0
    have hx := congrArg (fun p : Pauli => p.x 1) h0
    simp [Pauli.xOn, hS] at hx
  have hfirst : e.circuit.CanFail ⟨1, .xOn {1}⟩ :=
    ⟨_, hone, hne _ (by decide), 1, by decide, fun q hq => ⟨if_neg (by simpa using hq), rfl⟩⟩
  have hsecond : e.circuit.CanFail ⟨3, .xOn {1, 4}⟩ :=
    ⟨_, htwo, hne _ (by decide), (1, 4), by decide, fun q hq => ⟨if_neg (by simpa using hq), rfl⟩⟩
  have hfaults : ∀ fault ∈ [(⟨1, .xOn {1}⟩ : Fault), ⟨3, .xOn {1, 4}⟩], e.circuit.CanFail fault :=
    List.forall_mem_cons.mpr ⟨hfirst, List.forall_mem_singleton.mpr hsecond⟩
  exact ⟨code, e, hmake, hbuild, hfaults, hsilent, hunseen _ (by decide) hfaults hsilent⟩

end Repetition

end QuantumMemory

/-
  QuantumMemory.Proofs.Pauli.Faults — faults in the noise of a circuit.

  A fault is an operator other than the identity on one target of noise on single qubits, or
  on one pair of noise on pairs (`CanFail`). Faults add up to an error at each place of a
  circuit, and each of them changes a sum of outcomes by its pairing with what the sum
  measures there (`weigh_faults`). Where every fault changes at most one of several sums
  (`Narrow`), changing `d` of them takes `d` faults (`le_length_of_narrow`).
-/

import Mathlib.Data.List.Perm.Subperm
import QuantumMemory.Proofs.Memory.Readings

namespace QuantumMemory

namespace Pauli

/-- The operator is nothing away from the listed qubits. -/
def OnlyOn (f : Pauli) (qubits : List Qubit) : Prop := ∀ q, q ∉ qubits → f.x q = 0 ∧ f.z q = 0

variable {n : Nat} {f p : Pauli}

theorem pairing_apart {qubits : List Qubit} (hf : f.OnlyOn qubits) (hp : ∀ q ∈ qubits, p.x q = 0 ∧ p.z q = 0) :
    pairing n f p = 0 := by
  refine Finset.sum_eq_zero fun q _ => ?_
  by_cases hq : q ∈ qubits
  · obtain ⟨hx, hz⟩ := hp q hq
    rw [hx, hz, mul_zero, mul_zero, add_zero]
  · obtain ⟨hx, hz⟩ := hf q hq
    rw [hx, hz, zero_mul, zero_mul, add_zero]

theorem pairing_pair {a b : Qubit} (hne : a ≠ b) (ha : a < n) (hb : b < n) (hf : f.OnlyOn [a, b]) :
    pairing n f p = (f.x a * p.z a + f.z a * p.x a) + (f.x b * p.z b + f.z b * p.x b) := by
  have hsub : {a, b} ⊆ Finset.range n := by
    intro q hq
    rw [Finset.mem_insert, Finset.mem_singleton] at hq
    rw [Finset.mem_range]
    rcases hq with rfl | rfl
    · exact ha
    · exact hb
  rw [pairing, ← Finset.sum_subset hsub, Finset.sum_pair hne]
  intro q _ hq
  have hq' : q ∉ [a, b] := by simpa using hq
  obtain ⟨hx, hz⟩ := hf q hq'
  rw [hx, hz, zero_mul, zero_mul, add_zero]

end Pauli

/-- What noise can do in one place: an operator other than the identity on one target, or on
    one pair of targets. -/
def Instruction.CanFail (i : Instruction) (f : Pauli) : Prop :=
  match i.kind with
  | .noise (.depolarize1 _) => f ≠ 0 ∧ ∃ q ∈ i.qubits, f.OnlyOn [q]
  | .noise (.depolarize2 _) => f ≠ 0 ∧ ∃ pair ∈ i.pairs, f.OnlyOn [pair.1, pair.2]
  | _ => False

/-- An operator at the instruction of a number. -/
structure Fault where
  place : Nat
  error : Pauli

def Circuit.CanFail (c : Circuit) (fault : Fault) : Prop :=
  ∃ i, c.instructions[fault.place]? = some i ∧ i.CanFail fault.error

/-- All faults together, by the number of their instruction. -/
def errorsOf (faults : List Fault) (k : Nat) : Pauli := (faults.map fun fault => errorAt fault.place fault.error k).sum

theorem Instruction.CanFail.isNoise {i : Instruction} {f : Pauli} (h : i.CanFail f) : i.kind.isNoise = true := by
  unfold Instruction.CanFail at h
  split at h
  · rename_i hk
    rw [hk]
    rfl
  · rename_i hk
    rw [hk]
    rfl
  · cases h

/-- Noise neither measures nor moves an operator. -/
theorem Instruction.pull_noise {i : Instruction} (h : i.kind.isNoise = true) (w : List (ZMod 2)) (p : Pauli) :
    i.pull w p = p ∧ i.measurements = 0 := by
  unfold pull measurements Kind.measures
  cases hk : i.kind with
  | noise c => exact ⟨rfl, rfl⟩
  | _ => rw [hk] at h; cases h

/-- Faults change a sum of outcomes by their pairings with what it measures at their places. -/
theorem weigh_faults {n : Nat} {is : List Instruction} (h : ∀ i ∈ is, ∀ q ∈ i.qubits, q < n) (w : List (ZMod 2))
    {faults : List Fault} (hplace : ∀ fault ∈ faults, fault.place < is.length) :
    weigh w (flips is (errorsOf faults) 0) = (faults.map fun fault => Pauli.pairing n fault.error
      (pull (is.drop fault.place) (w.drop (Circuit.measurementsOf (is.take fault.place))) 0)).sum := by
  rw [weigh_flips h, Pauli.pairing_zero_left, zero_add]
  induction faults with
  | nil =>
    refine Finset.sum_eq_zero fun k _ => ?_
    exact Pauli.pairing_zero_left _
  | cons fault rest ih =>
    obtain ⟨hfault, hrest⟩ := List.forall_mem_cons.mp hplace
    rw [List.map_cons, List.sum_cons, ← ih hrest]
    have hsplit : ∀ k, errorsOf (fault :: rest) k = errorAt fault.place fault.error k + errorsOf rest k := fun k => rfl
    simp only [hsplit, Pauli.pairing_add_left, Finset.sum_add_distrib]
    congr 1
    rw [Finset.sum_eq_single_of_mem fault.place (Finset.mem_range.mpr hfault) fun k _ hk => by
      rw [errorAt, if_neg hk, Pauli.pairing_zero_left], errorAt, if_pos rfl]

/-! ## Noise along a circuit -/

section Along

variable {ι : Type} {P : Instruction → (ι → Pauli) → Prop} {is : List Instruction} {w : ι → List (ZMod 2)}
  {p : ι → Pauli}

theorem along_of_forall (h : ∀ i ∈ is, ∀ ops, P i ops) : Along P is w p := by
  induction is generalizing w with
  | nil => exact trivial
  | cons i rest ih =>
    obtain ⟨hi, hrest⟩ := List.forall_mem_cons.mp h
    exact ⟨hi _, ih hrest⟩

/-- What holds along a circuit, at one instruction of it. -/
theorem Along.at (h : Along P is w p) {k : Nat} {i : Instruction} (hk : is[k]? = some i) :
    P i fun j => pull (is.drop (k + 1)) ((w j).drop (Circuit.measurementsOf (is.take (k + 1)))) (p j) := by
  induction is generalizing k w with
  | nil => cases hk
  | cons i' rest ih =>
    cases k with
    | zero =>
      cases hk
      simpa using h.1
    | succ k =>
      have hrest := ih h.2 hk
      simpa only [List.drop_succ_cons, List.take_succ_cons, Circuit.measurementsOf_cons, List.drop_drop] using hrest

end Along

/-- No fault at the instruction meets two of the operators. -/
def Narrow (n : Nat) (i : Instruction) (ops : Nat → Pauli) : Prop :=
  ∀ f, i.CanFail f → ∃ k₀, ∀ k, k ≠ k₀ → Pauli.pairing n f (ops k) = 0

theorem narrow_of_quiet {n : Nat} {i : Instruction} (h : i.kind.isNoise = false) (ops : Nat → Pauli) : Narrow n i ops := by
  intro f hf
  rw [hf.isNoise] at h
  cases h

/-- Sums of which no fault changes two: to change `d` of them takes `d` faults. -/
theorem le_length_of_narrow {n : Nat} {is : List Instruction} (h : ∀ i ∈ is, ∀ q ∈ i.qubits, q < n)
    {w : Nat → List (ZMod 2)} (hnarrow : Along (Narrow n) is w fun _ => 0) {faults : List Fault}
    (hfaults : ∀ fault ∈ faults, ∃ i, is[fault.place]? = some i ∧ i.CanFail fault.error) {d : Nat}
    (hodd : ∀ k < d, weigh (w k) (flips is (errorsOf faults) 0) ≠ 0) : d ≤ faults.length := by
  have hplace : ∀ fault ∈ faults, fault.place < is.length := by
    intro fault hmem
    obtain ⟨i, hi, -⟩ := hfaults fault hmem
    exact (List.getElem?_eq_some_iff.mp hi).1
  -- The one sum that each fault can change.
  have hone : ∀ fault, ∃ k₀, fault ∈ faults → ∀ k, k ≠ k₀ → Pauli.pairing n fault.error
      (pull (is.drop fault.place) ((w k).drop (Circuit.measurementsOf (is.take fault.place))) 0) = 0 := by
    intro fault
    by_cases hmem : fault ∈ faults
    · obtain ⟨i, hi, hfail⟩ := hfaults fault hmem
      obtain ⟨k₀, hk₀⟩ := hnarrow.at hi fault.error hfail
      refine ⟨k₀, fun _ k hk => ?_⟩
      obtain ⟨hlt, hget⟩ := List.getElem?_eq_some_iff.mp hi
      have hzero := hk₀ k hk
      have hmeasured := (Instruction.pull_noise hfail.isNoise [] 0).2
      rw [List.take_add_one, hi, Option.toList_some, Circuit.measurementsOf_append, Circuit.measurementsOf_cons, hmeasured,
        Circuit.measurementsOf_nil, Nat.add_zero, Nat.add_zero] at hzero
      rw [List.drop_eq_getElem_cons hlt, hget, pull, (Instruction.pull_noise hfail.isNoise _ _).1, hmeasured,
        List.drop_zero]
      exact hzero
    · exact ⟨0, fun hno => absurd hno hmem⟩
  choose target htarget using hone
  have hsub : List.range d ⊆ faults.map target := by
    intro k hk
    by_contra hno
    refine hodd k (List.mem_range.mp hk) ?_
    rw [weigh_faults h _ hplace]
    refine List.sum_eq_zero fun a ha => ?_
    obtain ⟨fault, hmem, rfl⟩ := List.mem_map.mp ha
    refine htarget fault hmem k fun he => hno ?_
    exact he ▸ List.mem_map_of_mem hmem
  have hlen := (List.nodup_range.subperm hsub).length_le
  rwa [List.length_range, List.length_map] at hlen

end QuantumMemory

/-
  QuantumMemory.Proofs.Pauli.Round — what the outcomes of a memory measure at the start of
  each round.

  Outcomes are weighted by the term they stand for. Pulled back over a round, the weights of
  its checks come in where they are measured, the X checks turn into the X basis, and the
  interactions pass bits on: `roundOp`. `startOp` is the operator at the start of any round,
  and `pull_rest` says that it is what the circuit from there on measures.
-/

import QuantumMemory.Proofs.Graph.Layout
import QuantumMemory.Proofs.Pauli.Relay

namespace QuantumMemory

namespace Pauli

/-- The bits of one kind: X for the basis X, Z for any other. -/
def bits (p : Pauli) (b : CheckBasis) : Qubit → ZMod 2 :=
  match b with
  | .x => p.x
  | _ => p.z

/-- X and Z exchanged on some qubits. -/
def turn (p : Pauli) (qubits : List Qubit) : Pauli where
  x q := if q ∈ qubits then p.z q else p.x q
  z q := if q ∈ qubits then p.x q else p.z q

/-- The operator with Z of the given weights, and nothing else, on some qubits. -/
def measuring (p : Pauli) (qubits : List Qubit) (s : Qubit → ZMod 2) : Pauli where
  x q := if q ∈ qubits then 0 else p.x q
  z q := if q ∈ qubits then s q else p.z q

theorem turn_cons {q : Qubit} {rest : List Qubit} (h : q ∉ rest) (p : Pauli) :
    p.turn (q :: rest) = (p.turn rest).hadamard q := by
  ext q'
  · by_cases hq : q' = q
    · subst hq
      simp [turn, hadamard, h]
    · simp [turn, hadamard, hq]
  · by_cases hq : q' = q
    · subst hq
      simp [turn, hadamard, h]
    · simp [turn, hadamard, hq]

theorem ungate_h {qubits : List Qubit} (h : qubits.Nodup) (p : Pauli) : p.ungate .h qubits = p.turn qubits := by
  induction qubits with
  | nil => simp [ungate, turn]
  | cons q rest ih =>
    obtain ⟨hq, hrest⟩ := List.nodup_cons.mp h
    rw [turn_cons hq, ← ih hrest]
    rfl

theorem z_weighted {qubits : List Qubit} (h : qubits.Nodup) (s : Qubit → ZMod 2) (more : List (ZMod 2)) (q : Qubit) :
    (weighted qubits (qubits.map s ++ more)).z q = if q ∈ qubits then s q else 0 := by
  induction qubits with
  | nil => simp [weighted]
  | cons q' rest ih =>
    obtain ⟨hq, hrest⟩ := List.nodup_cons.mp h
    have hsplit : (weighted (q' :: rest) ((q' :: rest).map s ++ more)).z q =
        (if q' = q then s q' else 0) + (weighted rest (rest.map s ++ more)).z q := by
      simp [weighted]
    rw [hsplit, ih hrest]
    by_cases he : q' = q
    · subst he
      simp [hq]
    · simp [he, Ne.symm he]

theorem clear_weighted {qubits : List Qubit} (h : qubits.Nodup) (p : Pauli) (s : Qubit → ZMod 2)
    (more : List (ZMod 2)) :
    p.clear qubits + weighted qubits (qubits.map s ++ more) = p.measuring qubits s := by
  ext q
  · by_cases hq : q ∈ qubits <;> simp [clear, weighted, measuring, hq]
  · rw [z_add, z_weighted h]
    by_cases hq : q ∈ qubits <;> simp [clear, measuring, hq]

end Pauli

/-! ## Pulling back over what a memory is made of -/

theorem pull_kept (i : Instruction) (w : List (ZMod 2)) (p : Pauli) : pull i.kept w p = i.pull w p := by
  unfold Instruction.kept
  split
  · rename_i h
    simp only [Bool.and_eq_true, List.isEmpty_iff] at h
    unfold Instruction.pull
    cases i.kind with
    | gate g => cases g <;> simp [pull, Pauli.ungate, pairUp, h.1]
    | reset => simp [pull, h.1]
    | measure => simp [pull, h.1]
    | measureReset => simp [pull, h.1]
    | noise c => rfl
    | detector => rfl
    | observable k => rfl
    | tick => rfl
  · rfl

theorem pull_noise1 (r : Binary64) (qubits : List Qubit) (w : List (ZMod 2)) (p : Pauli) :
    pull (Memory.noise1 r qubits) w p = p := by
  unfold Memory.noise1
  split
  · exact pull_kept _ w p
  · rfl

theorem pull_noise2 (r : Binary64) (pairs : List (Qubit × Qubit)) (w : List (ZMod 2)) (p : Pauli) :
    pull (Memory.noise2 r pairs) w p = p := by
  unfold Memory.noise2
  split
  · exact pull_kept _ w p
  · rfl

namespace Layout

theorem pull_layerProgram (p2 : Binary64) (pairs : List (Qubit × Qubit)) (w : List (ZMod 2)) (p : Pauli) :
    pull (layerProgram p2 pairs) w p = pairs.foldr (fun pair p => p.cx pair) p := by
  rw [layerProgram, pull_append, pull_append, pull_noise2, pull_kept]
  show p.ungate .cx (flattenPairs pairs) = _
  rw [Pauli.ungate, pairUp_flattenPairs]

theorem pull_layers (p2 : Binary64) (layers : List (List (Qubit × Qubit))) (w : List (ZMod 2)) (p : Pauli) :
    pull (layers.flatMap (layerProgram p2)) w p = layers.flatten.foldr (fun pair p => p.cx pair) p := by
  induction layers generalizing w with
  | nil => rfl
  | cons pairs rest ih =>
    rw [List.flatMap_cons, pull_append, ih, pull_layerProgram, List.flatten_cons, List.foldr_append]

theorem pull_detectorsFor (ledger : Ledger) (terms : List (List Term)) (w : List (ZMod 2)) (p : Pauli) :
    pull (detectorsFor ledger terms) w p = p := by
  induction terms generalizing w with
  | nil => rfl
  | cons ts rest ih =>
    rw [detectorsFor, List.flatMap_cons, pull_append, pull_kept]
    exact ih _

variable (l : Layout)

/-- The operator before the interactions. -/
def interact (pairs : List (Qubit × Qubit)) (p : Pauli) : Pauli := pairs.foldr (fun pair p => p.cx pair) p

/-- The operator after the interactions of a round, from the one after the round. -/
def opened (s : Qubit → ZMod 2) (p : Pauli) : Pauli := (p.measuring l.allChecks s).turn (l.checks .x)

/-- The operator before a round whose checks have weights, from the one after. -/
def roundOp (s : Qubit → ZMod 2) (p : Pauli) : Pauli :=
  (interact l.layers.flatten (l.opened s p)).turn (l.checks .x)

/-- A round and what follows the last one, from round `r` on, with `j` rounds to go. -/
def rest (p1 p2 : Binary64) (rounds : Nat) (logical : List Qubit) (r : Nat) : Nat → List Instruction
  | 0 => l.readout p1 rounds logical
  | j + 1 => l.roundProgram p1 p2 r ++ rest p1 p2 rounds logical (r + 1) j

/-- The weights of the outcomes from round `r` on, with `j` rounds to go. -/
def weights (ω : Term → ZMod 2) (rounds r : Nat) : Nat → List (ZMod 2)
  | 0 => l.data.map fun q => ω (q, rounds)
  | j + 1 => (l.allChecks.map fun c => ω (c, r)) ++ weights ω rounds (r + 1) j

/-- What weighted outcomes measure before round `r`, with `j` rounds to go. -/
def startOp (ω : Term → ZMod 2) (rounds r : Nat) : Nat → Pauli
  | 0 => (0 : Pauli).measuring l.data fun q => ω (q, rounds)
  | j + 1 => l.roundOp (fun c => ω (c, r)) (startOp ω rounds (r + 1) j)

variable {l}

theorem measurementsOf_noise1 (p1 : Binary64) (qubits : List Qubit) :
    Circuit.measurementsOf (Memory.noise1 p1 qubits) = 0 := by
  rw [← length_measuredBy, measuredBy_noise1]
  rfl

theorem measurementsOf_first (p1 : Binary64) (checks : List Qubit) (round : Nat) :
    Circuit.measurementsOf (if round = 0 then [] else Memory.noise1 p1 checks) = 0 := by
  split
  · rfl
  · exact measurementsOf_noise1 _ _

theorem measurementsOf_gate (g : Gate) (qubits : List Qubit) :
    Circuit.measurementsOf (Instruction.gate g qubits).kept = 0 := by
  rw [← length_measuredBy, measuredBy_kept]
  rfl

theorem measurementsOf_layers (p2 : Binary64) (layers : List (List (Qubit × Qubit))) :
    Circuit.measurementsOf (layers.flatMap (layerProgram p2)) = 0 := by
  rw [← length_measuredBy, measuredBy_layers]
  rfl

theorem pull_turn (ht : l.Tidy) (w : List (ZMod 2)) (p : Pauli) :
    pull (Instruction.gate .h (l.checks .x)).kept w p = p.turn (l.checks .x) := by
  rw [pull_kept]
  exact Pauli.ungate_h ht.xChecks p

theorem pull_measureReset (ht : l.Tidy) (s : Qubit → ZMod 2) (more : List (ZMod 2)) (p : Pauli) :
    pull (Instruction.measureReset l.allChecks).kept (l.allChecks.map s ++ more) p = p.measuring l.allChecks s := by
  rw [pull_kept]
  exact Pauli.clear_weighted ht.allChecks p s more

theorem pull_extraction (ht : l.Tidy) (p1 p2 : Binary64) (round : Nat) (s : Qubit → ZMod 2) (more : List (ZMod 2))
    (p : Pauli) : pull (l.extraction p1 p2 round) (l.allChecks.map s ++ more) p = l.roundOp s p := by
  have h0 : ∀ w p, pull (if round = 0 then [] else Memory.noise1 p1 l.allChecks) w p = p := by
    intro w p
    split
    · rfl
    · exact pull_noise1 _ _ _ _
  simp only [extraction, pull_append, Circuit.measurementsOf_append, h0, measurementsOf_first, pull_turn ht,
    measurementsOf_gate, measurementsOf_noise1, measurementsOf_layers, pull_noise1, pull_layers, Nat.add_zero,
    List.drop_zero, pull_measureReset ht, roundOp, opened, interact]

theorem pull_readout (ht : l.Tidy) (p1 : Binary64) (rounds : Nat) (logical : List Qubit) (s : Qubit → ZMod 2) :
    pull (l.readout p1 rounds logical) (l.data.map s) 0 = (0 : Pauli).measuring l.data s := by
  have hm : ∀ w p, pull (Instruction.measure l.data).kept w p = p + .weighted l.data w := fun w p => pull_kept _ w p
  have hobs : ∀ w p, pull (Instruction.observable 0 ((l.finalLedger rounds).offsets (logical.map (·, rounds)))).kept w p =
      p := fun w p => pull_kept _ w p
  have hclear : (0 : Pauli).clear l.data = 0 := by ext q <;> simp [Pauli.clear]
  have hw := Pauli.clear_weighted ht.data 0 s []
  rw [hclear, List.append_nil] at hw
  simp only [readout, pull_append, Circuit.measurementsOf_append, measurementsOf_noise1, hobs, pull_detectorsFor, hm,
    pull_noise1, List.drop_zero, hw]

theorem weights_drop (l : Layout) (ω : Term → ZMod 2) (rounds r j : Nat) :
    (l.weights ω rounds r (j + 1)).drop l.allChecks.length = l.weights ω rounds (r + 1) j := by
  rw [weights, List.drop_append_of_le_length (by simp), List.drop_eq_nil_of_le (by simp), List.nil_append]

/-- What follows measures the operator at its start. -/
theorem pull_rest (ht : l.Tidy) (p1 p2 : Binary64) (rounds : Nat) (logical : List Qubit) (ω : Term → ZMod 2) (r j : Nat) :
    pull (l.rest p1 p2 rounds logical r j) (l.weights ω rounds r j) 0 = l.startOp ω rounds r j := by
  induction j generalizing r with
  | zero => exact pull_readout ht p1 rounds logical _
  | succ j ih =>
    rw [rest, roundProgram, pull_append, pull_append, Circuit.measurementsOf_append, measurementsOf_extraction,
      measurementsOf_detectorsFor, pull_detectorsFor]
    simp only [Nat.add_zero, weights_drop, ih]
    exact pull_extraction ht p1 p2 r _ _ _

/-- The circuit up to a round and from there on. -/
theorem program_rest (p1 p2 : Binary64) (rounds : Nat) (logical : List Qubit) {r j : Nat} (h : r + j = rounds) :
    l.program p1 p2 rounds ++ l.readout p1 rounds logical =
      l.program p1 p2 r ++ l.rest p1 p2 rounds logical r j := by
  induction j generalizing r with
  | zero => subst h; rfl
  | succ j ih =>
    rw [ih (r := r + 1) (by omega), program, rest, List.append_assoc]

theorem weights_rest (ω : Term → ZMod 2) (rounds : Nat) {r j : Nat} (h : r + j = rounds) :
    ((l.finalLedger rounds).terms.map ω).drop (l.ledgerAfter r).length = l.weights ω rounds r j := by
  have hsplit : ∀ r j, r + j = rounds → (l.finalLedger rounds).terms.map ω =
      (l.ledgerAfter r).terms.map ω ++ l.weights ω rounds r j := by
    intro r j
    induction j generalizing r with
    | zero =>
      intro h
      subst h
      rw [finalLedger, Ledger.terms_enter, List.map_append, dataMeasurements, List.map_map, List.map_map]
      rfl
    | succ j ih =>
      intro h
      rw [ih (r + 1) (by omega), ledgerAfter, Ledger.terms_enter, List.map_append, checkMeasurements, List.map_map,
        List.map_map, List.append_assoc]
      rfl
  rw [hsplit r j h, List.drop_append_of_le_length (by simp [Ledger.length_terms]),
    List.drop_eq_nil_of_le (by simp [Ledger.length_terms]), List.nil_append]

end Layout

end QuantumMemory

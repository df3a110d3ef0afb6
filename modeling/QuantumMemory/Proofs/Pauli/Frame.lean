/-
  QuantumMemory.Proofs.Pauli.Frame — errors carried through a circuit, forwards and
  backwards.

  An error is a Pauli operator up to its phase. Forwards (`push`, `flips`) it moves through
  the gates and flips the outcomes of the measurements it meets. Backwards (`pull`) a sum of
  outcomes becomes the operator that it measures at an earlier place. The two are adjoint:
  how an error changes a sum of outcomes is its `pairing` with the operator pulled back to
  where it happens (`weigh_flips`).
-/

import Mathlib.Algebra.BigOperators.Ring.Finset
import Mathlib.Tactic.LinearCombination
import Mathlib.Tactic.Ring
import QuantumMemory.Proofs.Circuit.Reference

namespace QuantumMemory

/-- A Pauli operator up to its phase: on each qubit, whether it has an X and whether a Z. -/
@[ext] structure Pauli where
  x : Qubit → ZMod 2
  z : Qubit → ZMod 2

namespace Pauli

instance : Zero Pauli := ⟨⟨0, 0⟩⟩

instance : Add Pauli := ⟨fun p p' => ⟨p.x + p'.x, p.z + p'.z⟩⟩

@[simp] theorem x_zero (q : Qubit) : (0 : Pauli).x q = 0 := rfl
@[simp] theorem z_zero (q : Qubit) : (0 : Pauli).z q = 0 := rfl
@[simp] theorem x_add (p p' : Pauli) (q : Qubit) : (p + p').x q = p.x q + p'.x q := rfl
@[simp] theorem z_add (p p' : Pauli) (q : Qubit) : (p + p').z q = p.z q + p'.z q := rfl

@[simp] protected theorem add_zero (p : Pauli) : p + 0 = p := by ext q <;> simp

/-! ## Gates -/

def hadamard (p : Pauli) (q : Qubit) : Pauli where
  x := Function.update p.x q (p.z q)
  z := Function.update p.z q (p.x q)

/-- X is copied from the control to the target, Z from the target to the control. -/
def cx (p : Pauli) (pair : Qubit × Qubit) : Pauli where
  x q := p.x q + if q = pair.2 then p.x pair.1 else 0
  z q := p.z q + if q = pair.1 then p.z pair.2 else 0

def cz (p : Pauli) (pair : Qubit × Qubit) : Pauli where
  x := p.x
  z q := p.z q + ((if q = pair.1 then p.x pair.2 else 0) + if q = pair.2 then p.x pair.1 else 0)

/-- The operator away from some qubits. -/
def clear (p : Pauli) (qubits : List Qubit) : Pauli where
  x q := if q ∈ qubits then 0 else p.x q
  z q := if q ∈ qubits then 0 else p.z q

/-- The operator after a gate. -/
def gate (p : Pauli) (g : Gate) (qubits : List Qubit) : Pauli :=
  match g with
  | .x | .z => p
  | .h => qubits.foldl hadamard p
  | .cx => (pairUp qubits).foldl cx p
  | .cz => (pairUp qubits).foldl cz p

/-- The operator before a gate; each of the gates is its own inverse. -/
def ungate (p : Pauli) (g : Gate) (qubits : List Qubit) : Pauli :=
  match g with
  | .x | .z => p
  | .h => qubits.foldr (fun q p => p.hadamard q) p
  | .cx => (pairUp qubits).foldr (fun pair p => p.cx pair) p
  | .cz => (pairUp qubits).foldr (fun pair p => p.cz pair) p

/-- Z on the listed qubits, with a weight each. -/
def weighted (qubits : List Qubit) (w : List (ZMod 2)) : Pauli where
  x := 0
  z q := ((qubits.zip w).map fun (q', a) => if q' = q then a else 0).sum

@[simp] theorem clear_nil (p : Pauli) : p.clear [] = p := by simp [clear]

@[simp] theorem weighted_nil (w : List (ZMod 2)) : weighted [] w = 0 := rfl

theorem weighted_apart {q : Qubit} {qubits : List Qubit} (h : q ∉ qubits) (w : List (ZMod 2)) :
    (weighted qubits w).z q = 0 := by
  refine List.sum_eq_zero fun a ha => ?_
  obtain ⟨⟨q', a'⟩, hmem, rfl⟩ := List.mem_map.mp ha
  exact if_neg fun (he : q' = q) => h (he ▸ (List.of_mem_zip hmem).1)

/-! ## Anticommuting -/

/-- One if the operators anticommute on the first qubits. -/
def pairing (n : Nat) (f p : Pauli) : ZMod 2 := ∑ q ∈ Finset.range n, (f.x q * p.z q + f.z q * p.x q)

variable {n : Nat} (f f' p p' : Pauli)

@[simp] theorem pairing_zero_left : pairing n 0 p = 0 := by simp [pairing]

@[simp] theorem pairing_zero_right : pairing n f 0 = 0 := by simp [pairing]

theorem pairing_add_left : pairing n (f + f') p = pairing n f p + pairing n f' p := by
  rw [pairing, pairing, pairing, ← Finset.sum_add_distrib]
  refine Finset.sum_congr rfl fun q _ => ?_
  rw [x_add, z_add]
  ring

theorem pairing_add_right : pairing n f (p + p') = pairing n f p + pairing n f p' := by
  rw [pairing, pairing, pairing, ← Finset.sum_add_distrib]
  refine Finset.sum_congr rfl fun q _ => ?_
  rw [x_add, z_add]
  ring

theorem pairing_hadamard (q : Qubit) : pairing n (f.hadamard q) p = pairing n f (p.hadamard q) := by
  refine Finset.sum_congr rfl fun q' _ => ?_
  by_cases h : q' = q
  · subst h
    simp only [hadamard, Function.update_self]
    ring
  · simp only [hadamard, Function.update_of_ne h]

theorem pairing_clear (qubits : List Qubit) : pairing n (f.clear qubits) p = pairing n f (p.clear qubits) := by
  refine Finset.sum_congr rfl fun q _ => ?_
  by_cases h : q ∈ qubits <;> simp [clear, h]

/-- A value at one of the first qubits, as a sum over them. -/
theorem sum_at {q : Qubit} (h : q < n) (a : Qubit → ZMod 2) :
    (∑ q' ∈ Finset.range n, if q' = q then a q' else 0) = a q := by
  rw [Finset.sum_ite_eq', if_pos (Finset.mem_range.mpr h)]

theorem pairing_cx {pair : Qubit × Qubit} (hc : pair.1 < n) (ht : pair.2 < n) :
    pairing n (f.cx pair) p = pairing n f (p.cx pair) := by
  have hleft : pairing n (f.cx pair) p = pairing n f p + (f.x pair.1 * p.z pair.2 + f.z pair.2 * p.x pair.1) := by
    rw [← sum_at ht fun q => f.x pair.1 * p.z q, ← sum_at hc fun q => f.z pair.2 * p.x q, pairing, pairing,
      ← Finset.sum_add_distrib, ← Finset.sum_add_distrib]
    refine Finset.sum_congr rfl fun q _ => ?_
    simp only [cx, add_mul, ite_mul, zero_mul]
    ring
  have hright : pairing n f (p.cx pair) = pairing n f p + (f.x pair.1 * p.z pair.2 + f.z pair.2 * p.x pair.1) := by
    rw [← sum_at hc fun q => f.x q * p.z pair.2, ← sum_at ht fun q => f.z q * p.x pair.1, pairing, pairing,
      ← Finset.sum_add_distrib, ← Finset.sum_add_distrib]
    refine Finset.sum_congr rfl fun q _ => ?_
    simp only [cx, mul_add, mul_ite, mul_zero]
    ring
  rw [hleft, hright]

theorem pairing_cz {pair : Qubit × Qubit} (ha : pair.1 < n) (hb : pair.2 < n) :
    pairing n (f.cz pair) p = pairing n f (p.cz pair) := by
  have hleft : pairing n (f.cz pair) p = pairing n f p + (f.x pair.2 * p.x pair.1 + f.x pair.1 * p.x pair.2) := by
    rw [← sum_at ha fun q => f.x pair.2 * p.x q, ← sum_at hb fun q => f.x pair.1 * p.x q, pairing, pairing,
      ← Finset.sum_add_distrib, ← Finset.sum_add_distrib]
    refine Finset.sum_congr rfl fun q _ => ?_
    simp only [cz, add_mul, ite_mul, zero_mul]
    ring
  have hright : pairing n f (p.cz pair) = pairing n f p + (f.x pair.2 * p.x pair.1 + f.x pair.1 * p.x pair.2) := by
    rw [← sum_at hb fun q => f.x q * p.x pair.1, ← sum_at ha fun q => f.x q * p.x pair.2, pairing, pairing,
      ← Finset.sum_add_distrib, ← Finset.sum_add_distrib]
    refine Finset.sum_congr rfl fun q _ => ?_
    simp only [cz, mul_add, mul_ite, mul_zero]
    ring
  rw [hleft, hright]

/-- Adjoint steps compose to adjoint folds. -/
theorem pairing_foldl {α : Type} {step : Pauli → α → Pauli} {xs : List α}
    (h : ∀ a ∈ xs, ∀ f p, pairing n (step f a) p = pairing n f (step p a)) :
    pairing n (xs.foldl step f) p = pairing n f (xs.foldr (fun a p => step p a) p) := by
  induction xs generalizing f with
  | nil => rfl
  | cons a rest ih =>
    rw [List.foldl_cons, List.foldr_cons, ih _ fun b hb => h b (List.mem_cons_of_mem _ hb), h a List.mem_cons_self]

theorem mem_of_mem_pairUp {qubits : List Qubit} {pair : Qubit × Qubit} (h : pair ∈ pairUp qubits) :
    pair.1 ∈ qubits ∧ pair.2 ∈ qubits := by
  induction qubits using pairUp.induct with
  | case1 a b rest ih =>
    rw [pairUp, List.mem_cons] at h
    rcases h with rfl | h
    · exact ⟨by simp, by simp⟩
    · exact ⟨List.mem_cons_of_mem _ (List.mem_cons_of_mem _ (ih h).1),
        List.mem_cons_of_mem _ (List.mem_cons_of_mem _ (ih h).2)⟩
  | case2 qubits hne =>
    rw [pairUp] at h
    · cases h
    · exact hne

theorem pairing_gate (g : Gate) {qubits : List Qubit} (h : ∀ q ∈ qubits, q < n) :
    pairing n (f.gate g qubits) p = pairing n f (p.ungate g qubits) := by
  cases g with
  | x => rfl
  | z => rfl
  | h => exact pairing_foldl f p fun q _ f p => pairing_hadamard f p q
  | cx => exact pairing_foldl f p fun pair hp f p =>
      pairing_cx f p (h _ (mem_of_mem_pairUp hp).1) (h _ (mem_of_mem_pairUp hp).2)
  | cz => exact pairing_foldl f p fun pair hp f p =>
      pairing_cz f p (h _ (mem_of_mem_pairUp hp).1) (h _ (mem_of_mem_pairUp hp).2)

end Pauli

/-! ## Outcomes -/

/-- The sum of the outcomes of some weights. -/
def weigh (w outcomes : List (ZMod 2)) : ZMod 2 := (List.zipWith (· * ·) w outcomes).sum

@[simp] theorem weigh_nil (w : List (ZMod 2)) : weigh w [] = 0 := by simp [weigh]

theorem weigh_append (w as bs : List (ZMod 2)) : weigh w (as ++ bs) = weigh w as + weigh (w.drop as.length) bs := by
  induction as generalizing w with
  | nil => simp
  | cons a rest ih =>
    cases w with
    | nil => simp [weigh]
    | cons b w =>
      have hrest := ih w
      simp only [weigh, List.cons_append, List.zipWith_cons_cons, List.sum_cons, List.length_cons, List.drop_succ_cons] at *
      rw [hrest, add_assoc]

theorem pairing_weighted {n : Nat} (f : Pauli) {qubits : List Qubit} (h : ∀ q ∈ qubits, q < n) (w : List (ZMod 2)) :
    Pauli.pairing n f (.weighted qubits w) = weigh w (qubits.map f.x) := by
  induction qubits generalizing w with
  | nil => simp [Pauli.pairing, Pauli.weighted, weigh]
  | cons q rest ih =>
    obtain ⟨hq, hrest⟩ := List.forall_mem_cons.mp h
    cases w with
    | nil => simp [Pauli.pairing, Pauli.weighted, weigh]
    | cons a w =>
      have hsplit : Pauli.pairing n f (.weighted (q :: rest) (a :: w)) =
          (∑ q' ∈ Finset.range n, if q' = q then f.x q' * a else 0) + Pauli.pairing n f (.weighted rest w) := by
        rw [Pauli.pairing, Pauli.pairing, ← Finset.sum_add_distrib]
        refine Finset.sum_congr rfl fun q' _ => ?_
        simp only [Pauli.weighted, List.zip_cons_cons, List.map_cons, List.sum_cons, mul_add, Pi.zero_apply, mul_zero,
          add_zero, eq_comm (a := q), mul_ite]
      rw [hsplit, Pauli.sum_at hq fun q' => f.x q' * a, ih hrest]
      simp [weigh, mul_comm]

namespace Instruction

/-- The error after an instruction, and which of its outcomes are flipped. -/
def push (i : Instruction) (f : Pauli) : Pauli × List (ZMod 2) :=
  match i.kind with
  | .gate g => (f.gate g i.qubits, [])
  | .reset => (f.clear i.qubits, [])
  | .measure => (f, i.qubits.map f.x)
  | .measureReset => (f.clear i.qubits, i.qubits.map f.x)
  | _ => (f, [])

/-- The operator before an instruction, given weights for its outcomes and the operator after. -/
def pull (i : Instruction) (w : List (ZMod 2)) (p : Pauli) : Pauli :=
  match i.kind with
  | .gate g => p.ungate g i.qubits
  | .reset => p.clear i.qubits
  | .measure => p + .weighted i.qubits w
  | .measureReset => p.clear i.qubits + .weighted i.qubits w
  | _ => p

theorem length_push (i : Instruction) (f : Pauli) : (i.push f).2.length = i.measurements := by
  unfold push measurements
  cases i.kind <;> simp [Kind.measures]

theorem pairing_push {n : Nat} {i : Instruction} (h : ∀ q ∈ i.qubits, q < n) (f p : Pauli) (w : List (ZMod 2)) :
    Pauli.pairing n (i.push f).1 p + weigh w (i.push f).2 = Pauli.pairing n f (i.pull w p) := by
  unfold push pull
  cases i.kind with
  | gate g => simp only [weigh_nil, Pauli.pairing_gate f p g h, add_zero]
  | reset => simp only [weigh_nil, Pauli.pairing_clear, add_zero]
  | measure => simp only [Pauli.pairing_add_right, pairing_weighted f h]
  | measureReset => simp only [Pauli.pairing_add_right, pairing_weighted f h, Pauli.pairing_clear]
  | noise c => simp only [weigh_nil, add_zero]
  | detector => simp only [weigh_nil, add_zero]
  | observable k => simp only [weigh_nil, add_zero]
  | tick => simp only [weigh_nil, add_zero]

end Instruction

/-- The outcomes flipped by the error `f` and those that happen just before the instructions
    of the given numbers. -/
def flips : List Instruction → (Nat → Pauli) → Pauli → List (ZMod 2)
  | [], _, _ => []
  | i :: rest, error, f =>
    (i.push (f + error 0)).2 ++ flips rest (fun k => error (k + 1)) (i.push (f + error 0)).1

/-- The outcomes of a circuit that errors flip; error `k` happens just before instruction `k`. -/
def Circuit.flips (c : Circuit) (error : Nat → Pauli) : List (ZMod 2) := QuantumMemory.flips c.instructions error 0

/-- The operator that weighted outcomes, and an operator at the end, measure before the instructions. -/
def pull : List Instruction → List (ZMod 2) → Pauli → Pauli
  | [], _, p => p
  | i :: rest, w, p => i.pull w (pull rest (w.drop i.measurements) p)

/-- What holds of every instruction and the operators that the instructions after it measure. -/
def Along {ι : Type} (P : Instruction → (ι → Pauli) → Prop) : List Instruction → (ι → List (ZMod 2)) → (ι → Pauli) → Prop
  | [], _, _ => True
  | i :: rest, w, p => P i (fun k => pull rest ((w k).drop i.measurements) (p k)) ∧
      Along P rest (fun k => (w k).drop i.measurements) p

theorem length_flips (is : List Instruction) (error : Nat → Pauli) (f : Pauli) :
    (flips is error f).length = Circuit.measurementsOf is := by
  induction is generalizing error f with
  | nil => rfl
  | cons i rest ih => rw [flips, List.length_append, Instruction.length_push, ih, Circuit.measurementsOf_cons]

theorem pull_append (is js : List Instruction) (w : List (ZMod 2)) (p : Pauli) :
    pull (is ++ js) w p = pull is w (pull js (w.drop (Circuit.measurementsOf is)) p) := by
  induction is generalizing w with
  | nil => rfl
  | cons i rest ih => rw [List.cons_append, pull, pull, ih, List.drop_drop, Circuit.measurementsOf_cons]

theorem along_append {ι : Type} {P : Instruction → (ι → Pauli) → Prop} {is js : List Instruction}
    {w : ι → List (ZMod 2)} {p : ι → Pauli} :
    Along P (is ++ js) w p ↔ Along P is w (fun k => pull js ((w k).drop (Circuit.measurementsOf is)) (p k)) ∧
      Along P js (fun k => (w k).drop (Circuit.measurementsOf is)) p := by
  induction is generalizing w with
  | nil => simp [Along]
  | cons i rest ih =>
    simp only [List.cons_append, Along, ih, pull_append, List.drop_drop, Circuit.measurementsOf_cons, and_assoc]

theorem along_kept {ι : Type} {P : Instruction → (ι → Pauli) → Prop} {i : Instruction} {w : ι → List (ZMod 2)}
    {p : ι → Pauli} (h : P i p) : Along P i.kept w p := by
  unfold Instruction.kept
  split
  · exact trivial
  · exact ⟨h, trivial⟩

/-- Errors change a sum of outcomes by their pairings with the operators that it measures. -/
theorem weigh_flips {n : Nat} {is : List Instruction} (h : ∀ i ∈ is, ∀ q ∈ i.qubits, q < n) (w : List (ZMod 2))
    (error : Nat → Pauli) (f : Pauli) :
    weigh w (flips is error f) = Pauli.pairing n f (pull is w 0) +
      ∑ k ∈ Finset.range is.length,
        Pauli.pairing n (error k) (pull (is.drop k) (w.drop (Circuit.measurementsOf (is.take k))) 0) := by
  induction is generalizing w error f with
  | nil => simp [flips, pull]
  | cons i rest ih =>
    obtain ⟨hi, hrest⟩ := List.forall_mem_cons.mp h
    have hstep := Instruction.pairing_push hi (f + error 0) (pull rest (w.drop i.measurements) 0) w
    rw [Pauli.pairing_add_left] at hstep
    rw [flips, weigh_append, Instruction.length_push, ih hrest, List.length_cons, Finset.sum_range_succ', List.drop_zero,
      List.take_zero, Circuit.measurementsOf_nil, List.drop_zero, pull]
    simp only [List.drop_succ_cons, List.take_succ_cons, Circuit.measurementsOf_cons, ← List.drop_drop]
    linear_combination hstep

end QuantumMemory

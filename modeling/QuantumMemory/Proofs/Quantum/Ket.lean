/-
  QuantumMemory.Proofs.Quantum.Ket — states of qubits, and the gates and measurements on
  them.

  A state gives each assignment of values to the qubits its amplitude. A Pauli operator acts
  on it with Z to the left of X (`Pauli.act`), so CX carries operators to operators with no
  sign; the Hadamard gate has one for Y, and the other gates for what they anticommute with.
-/

import Mathlib.Analysis.SpecialFunctions.Sqrt
import Mathlib.Data.Complex.Basic
import QuantumMemory.Proofs.Pauli.Frame

namespace QuantumMemory

/-- Amplitudes of the assignments of values to qubits. -/
abbrev Ket := (Qubit → ZMod 2) → ℂ

/-! ## Signs -/

def sign (a : ZMod 2) : ℂ := if a = 0 then 1 else -1

@[simp] theorem sign_zero : sign 0 = 1 := if_pos rfl

@[simp] theorem sign_one : sign 1 = -1 := if_neg (by decide)

theorem bit_cases (a : ZMod 2) : a = 0 ∨ a = 1 := by
  revert a
  decide

theorem sign_add (a b : ZMod 2) : sign (a + b) = sign a * sign b := by
  rcases bit_cases a with rfl | rfl
  · simp
  · rcases bit_cases b with rfl | rfl
    · simp
    · have h : (1 + 1 : ZMod 2) = 0 := by decide
      simp [h]

theorem sign_mul_self (a : ZMod 2) : sign a * sign a = 1 := by
  rcases bit_cases a with rfl | rfl <;> simp

theorem sign_eq_one {a : ZMod 2} (h : sign a = 1) : a = 0 := by
  rcases bit_cases a with rfl | rfl
  · rfl
  · rw [sign_one] at h
    norm_num at h

namespace Ket

/-! ## Gates and measurements -/

noncomputable def hadamard (ψ : Ket) (q : Qubit) : Ket := fun b =>
  (ψ (Function.update b q 0) + sign (b q) * ψ (Function.update b q 1)) / (√2 : ℝ)

/-- X on a qubit if the bit is one. -/
def flip (ψ : Ket) (q : Qubit) (a : ZMod 2) : Ket := fun b => ψ (Function.update b q (b q + a))

/-- Z on a qubit. -/
def phase (ψ : Ket) (q : Qubit) : Ket := fun b => sign (b q) * ψ b

def cx (ψ : Ket) (pair : Qubit × Qubit) : Ket := fun b => ψ (Function.update b pair.2 (b pair.2 + b pair.1))

def cz (ψ : Ket) (pair : Qubit × Qubit) : Ket := fun b => sign (b pair.1 * b pair.2) * ψ b

noncomputable def gate (ψ : Ket) (g : Gate) (qubits : List Qubit) : Ket :=
  match g with
  | .x => qubits.foldl (fun ψ q => ψ.flip q 1) ψ
  | .z => qubits.foldl phase ψ
  | .h => qubits.foldl hadamard ψ
  | .cx => (pairUp qubits).foldl cx ψ
  | .cz => (pairUp qubits).foldl cz ψ

/-- What is left when the qubit is found to have the value. -/
def project (ψ : Ket) (q : Qubit) (m : ZMod 2) : Ket := fun b => if b q = m then ψ b else 0

/-- What is left, with the qubit reset. -/
def restored (ψ : Ket) (q : Qubit) (m : ZMod 2) : Ket := (ψ.project q m).flip q m

end Ket

/-! ## Operators on states -/

namespace Pauli

/-- The sign that the Z part gives an assignment of the first qubits. -/
def overlap (n : Nat) (z b : Qubit → ZMod 2) : ZMod 2 := ∑ q ∈ Finset.range n, z q * b q

/-- An assignment moved by the X part on the first qubits. -/
def shift (n : Nat) (x b : Qubit → ZMod 2) : Qubit → ZMod 2 := fun q => b q + if q < n then x q else 0

/-- The operator on the first qubits, Z to the left of X. -/
def act (n : Nat) (p : Pauli) (ψ : Ket) : Ket := fun b => sign (overlap n p.z b) * ψ (shift n p.x b)

variable {n : Nat}

theorem overlap_update {q : Qubit} (hq : q < n) (z b : Qubit → ZMod 2) (v : ZMod 2) :
    overlap n z (Function.update b q v) = overlap n z b + z q * (v + b q) := by
  have hterm : ∀ q' ∈ Finset.range n, z q' * Function.update b q v q' =
      z q' * b q' + if q' = q then z q' * (v + b q') else 0 := by
    intro q' _
    by_cases h : q' = q
    · subst h
      have htwice := CharTwo.add_self_eq_zero (z q' * b q')
      rw [Function.update_self, if_pos rfl, mul_add]
      linear_combination -htwice
    · rw [Function.update_of_ne h, if_neg h, add_zero]
  rw [overlap, Finset.sum_congr rfl hterm, Finset.sum_add_distrib, sum_at hq fun q' => z q' * (v + b q'), overlap]

theorem overlap_add (z z' b : Qubit → ZMod 2) : overlap n (z + z') b = overlap n z b + overlap n z' b := by
  simp only [overlap, Pi.add_apply, add_mul, Finset.sum_add_distrib]

theorem overlap_at {q : Qubit} (hq : q < n) (a : ZMod 2) (b : Qubit → ZMod 2) :
    overlap n (fun q' => if q' = q then a else 0) b = a * b q := by
  simp only [overlap, ite_mul, zero_mul]
  exact sum_at hq fun q' => a * b q'

theorem overlap_comm (z b : Qubit → ZMod 2) : overlap n z b = overlap n b z :=
  Finset.sum_congr rfl fun _ _ => mul_comm _ _

theorem shift_apply {q : Qubit} (hq : q < n) (x b : Qubit → ZMod 2) : shift n x b q = b q + x q := by
  rw [shift, if_pos hq]

theorem shift_update {q : Qubit} (hq : q < n) (x b : Qubit → ZMod 2) (v : ZMod 2) :
    shift n x (Function.update b q v) = Function.update (shift n x b) q (v + x q) := by
  funext q'
  by_cases h : q' = q
  · subst h
    simp [shift, hq]
  · simp [shift, h]

theorem act_flip {q : Qubit} (hq : q < n) (p : Pauli) (ψ : Ket) (a : ZMod 2) :
    p.act n (ψ.flip q a) = sign (p.z q * a) • (p.act n ψ).flip q a := by
  funext b
  have hbit : b q + a + b q = a := by
    have htwice := CharTwo.add_self_eq_zero (b q)
    linear_combination htwice
  have hcomm : b q + p.x q + a = b q + a + p.x q := add_right_comm _ _ _
  have hsign := sign_mul_self (p.z q * a)
  simp only [act, Ket.flip, Pi.smul_apply, smul_eq_mul, shift_apply hq, shift_update hq, overlap_update hq, hbit,
    hcomm, sign_add]
  linear_combination (-(sign (overlap n p.z b) * ψ (Function.update (shift n p.x b) q (b q + a + p.x q)))) * hsign

theorem act_phase {q : Qubit} (hq : q < n) (p : Pauli) (ψ : Ket) :
    p.act n (ψ.phase q) = sign (p.x q) • (p.act n ψ).phase q := by
  funext b
  simp only [act, Ket.phase, Pi.smul_apply, smul_eq_mul, shift_apply hq, sign_add]
  ring

theorem act_cx {pair : Qubit × Qubit} (hc : pair.1 < n) (ht : pair.2 < n) (hne : pair.1 ≠ pair.2) (p : Pauli) (ψ : Ket) :
    p.act n (ψ.cx pair) = ((p.cx pair).act n ψ).cx pair := by
  funext b
  have hz : (p.cx pair).z = p.z + fun q => if q = pair.1 then p.z pair.2 else 0 := rfl
  have htwice := CharTwo.add_self_eq_zero (p.z pair.2 * b pair.1)
  have hbit := CharTwo.add_self_eq_zero (b pair.2)
  have hoverlap : overlap n (p.cx pair).z (Function.update b pair.2 (b pair.2 + b pair.1)) = overlap n p.z b := by
    rw [hz, overlap_add, overlap_update ht, overlap_at hc, Function.update_of_ne hne]
    linear_combination htwice + p.z pair.2 * hbit
  have hshift : shift n (p.cx pair).x (Function.update b pair.2 (b pair.2 + b pair.1)) =
      Function.update (shift n p.x b) pair.2 (shift n p.x b pair.2 + shift n p.x b pair.1) := by
    funext q
    by_cases h : q = pair.2
    · subst h
      simp only [shift, cx, Function.update_self, if_pos hc, if_pos ht, if_true]
      ring
    · simp [shift, cx, h]
  simp only [act, Ket.cx, hoverlap, hshift]

theorem act_cz {pair : Qubit × Qubit} (ha : pair.1 < n) (hb : pair.2 < n) (p : Pauli) (ψ : Ket) :
    p.act n (ψ.cz pair) = sign (p.x pair.1 * p.x pair.2) • ((p.cz pair).act n ψ).cz pair := by
  funext b
  have hz : (p.cz pair).z = p.z + ((fun q => if q = pair.1 then p.x pair.2 else 0) +
      fun q => if q = pair.2 then p.x pair.1 else 0) := rfl
  have hx : (p.cz pair).x = p.x := rfl
  have hoverlap : overlap n (p.cz pair).z b =
      overlap n p.z b + (p.x pair.2 * b pair.1 + p.x pair.1 * b pair.2) := by
    rw [hz, overlap_add, overlap_add, overlap_at ha, overlap_at hb]
  have hprod : (b pair.1 + p.x pair.1) * (b pair.2 + p.x pair.2) = p.x pair.1 * p.x pair.2 + b pair.1 * b pair.2 +
      (p.x pair.2 * b pair.1 + p.x pair.1 * b pair.2) := by ring
  simp only [act, Ket.cz, Pi.smul_apply, smul_eq_mul, shift_apply ha, shift_apply hb, hprod, hoverlap, hx, sign_add]
  ring

theorem act_project {q : Qubit} (hq : q < n) {p : Pauli} (hx : p.x q = 0) (ψ : Ket) (m : ZMod 2) :
    p.act n (ψ.project q m) = (p.act n ψ).project q m := by
  funext b
  simp only [act, Ket.project, shift_apply hq, hx, add_zero, mul_ite, mul_zero]

/-- The Hadamard gate exchanges X and Z. -/
theorem act_hadamard {q : Qubit} (hq : q < n) {p : Pauli} (hy : p.x q * p.z q = 0) (ψ : Ket) :
    p.act n (ψ.hadamard q) = ((p.hadamard q).act n ψ).hadamard q := by
  funext b
  have htwice := CharTwo.add_self_eq_zero (p.x q * b q)
  have hoverlap : ∀ v, overlap n (p.hadamard q).z (Function.update b q v) =
      overlap n p.z b + p.z q * b q + p.x q * v := by
    intro v
    have hz : (p.hadamard q).z = Function.update p.z q (p.x q) := rfl
    rw [hz, overlap_update hq, overlap_comm, overlap_update hq, overlap_comm, Function.update_self]
    linear_combination htwice
  have hshift : ∀ v, shift n (p.hadamard q).x (Function.update b q v) =
      Function.update (shift n p.x b) q (v + p.z q) := by
    intro v
    funext q'
    by_cases h : q' = q
    · subst h
      simp [shift, hadamard, hq]
    · simp [shift, hadamard, h]
  have htwo : (1 + 1 : ZMod 2) = 0 := by decide
  simp only [act, Ket.hadamard, shift_apply hq, hoverlap, hshift, sign_add]
  -- Z alone, or X alone, or neither
  rcases bit_cases (p.z q) with hz | hz
  · rw [hz]
    simp only [zero_mul, add_zero, sign_zero, mul_zero, mul_one]
    ring
  · rw [hz, mul_one] at hy
    have hsign := sign_mul_self (b q)
    rw [hz, hy]
    simp only [one_mul, zero_mul, sign_zero, mul_one, zero_add, htwo]
    linear_combination (-(sign (overlap n p.z b) * ψ (Function.update (shift n p.x b) q 0) / (√2 : ℝ))) * hsign

end Pauli

end QuantumMemory

/-
  QuantumMemory.Proofs.Graph.Incidence — the checks of a basis as rows modulo two.

  The rows of `incidence` are the supports of the checks; those of two bases are orthogonal
  if their checks share even numbers of data qubits (`incidence_orthogonal`). A set of qubits can meet all of
  them evenly (`EvenOn`), and it can be a sum of some (`SumOf`), which is what weights of the
  checks come to on the qubits (`sumOf_iff`). The rank is the number of checks if
  only zero weights come to zero on every data qubit (`rank_incidence`).
-/

import Mathlib.Algebra.Field.ZMod
import Mathlib.LinearAlgebra.Matrix.Rank
import QuantumMemory.Proofs.Graph.Views

namespace QuantumMemory

namespace Graph

variable {g : Graph} {b : CheckBasis}

/-- The data qubits that two checks share. -/
def shared (g : Graph) (c c' : Qubit) : List Qubit := (g.support c).filter (· ∈ g.support c')

theorem mem_shared {c c' q : Qubit} : q ∈ g.shared c c' ↔ q ∈ g.support c ∧ q ∈ g.support c' := by
  rw [shared, List.mem_filter, decide_eq_true_eq]

/-- The checks of a basis by data qubits: one where the data qubit is in the support of the check. -/
def incidence (g : Graph) (b : CheckBasis) :
    Matrix { c // c ∈ g.checkQubits b } { q // q ∈ g.dataQubits } (ZMod 2) :=
  Matrix.of fun c q => if q.1 ∈ g.support c.1 then 1 else 0

/-- Every check of the basis has an even number of these qubits. -/
def EvenOn (g : Graph) (b : CheckBasis) (s : Finset Qubit) : Prop :=
  ∀ c ∈ g.checkQubits b, Even {q ∈ s | q ∈ g.support c}.card

/-- These qubits are the ones that an odd number of some checks of the basis have. -/
def SumOf (g : Graph) (b : CheckBasis) (s : Finset Qubit) : Prop :=
  ∃ t : Finset Qubit, (∀ c ∈ t, c ∈ g.checkQubits b) ∧ ∀ q, q ∈ s ↔ Odd {c ∈ t | q ∈ g.support c}.card

/-- What weights of the checks come to on a data qubit. -/
def weightOn (g : Graph) (b : CheckBasis) (w : Qubit → ZMod 2) (q : Qubit) : ZMod 2 :=
  ∑ c ∈ (g.checkQubits b).toFinset, if q ∈ g.support c then w c else 0

/-- Where checks of two bases share even numbers of data qubits, their rows are orthogonal. -/
theorem incidence_orthogonal (hs : g.Sound) {b b' : CheckBasis}
    (h : ∀ c ∈ g.checkQubits b, ∀ c' ∈ g.checkQubits b', Even (g.shared c c').length) :
    g.incidence b * (g.incidence b').transpose = 0 := by
  ext c c'
  have hnodup : (g.shared c.1 c'.1).Nodup := by
    rw [shared, support_check (not_isData_of_check c.2)]
    exact (hs.links_data_nodup c.1).filter _
  have hdata : ∀ q ∈ g.shared c.1 c'.1, q ∈ g.dataQubits := by
    intro q hq
    have hsup := (mem_shared.mp hq).1
    rw [support_check (not_isData_of_check c.2)] at hsup
    obtain ⟨i, hi, rfl⟩ := List.mem_map.mp hsup
    exact mem_dataQubits.mpr (hs.link_isData hi)
  have hcard : ∑ q ∈ g.dataQubits.toFinset, (if q ∈ g.shared c.1 c'.1 then 1 else 0) =
      ((g.shared c.1 c'.1).length : ZMod 2) := by
    rw [Finset.sum_boole, ← List.toFinset_card_of_nodup hnodup]
    congr 2
    ext q
    rw [Finset.mem_filter, List.mem_toFinset, List.mem_toFinset]
    exact ⟨fun hq => hq.2, fun hq => ⟨hdata q hq, hq⟩⟩
  rw [ZMod.natCast_eq_zero_iff_even.mpr (h c.1 c.2 c'.1 c'.2), Finset.sum_subtype _ fun q => List.mem_toFinset] at hcard
  rw [Matrix.mul_apply, Matrix.zero_apply, ← hcard]
  refine Finset.sum_congr rfl fun q _ => ?_
  rw [Matrix.transpose_apply, incidence, incidence, Matrix.of_apply, Matrix.of_apply]
  by_cases h1 : q.1 ∈ g.support c.1
  · by_cases h2 : q.1 ∈ g.support c'.1
    · simp [mem_shared, h1, h2]
    · simp [mem_shared, h1, h2]
  · simp [mem_shared, h1]

theorem weightOn_indicator {t : Finset Qubit} (ht : ∀ c ∈ t, c ∈ g.checkQubits b) (q : Qubit) :
    g.weightOn b (fun c => if c ∈ t then 1 else 0) q = ({c ∈ t | q ∈ g.support c}.card : ZMod 2) := by
  have hsame : {c ∈ (g.checkQubits b).toFinset | q ∈ g.support c ∧ c ∈ t} = {c ∈ t | q ∈ g.support c} := by
    ext c
    rw [Finset.mem_filter, Finset.mem_filter, List.mem_toFinset]
    exact ⟨fun h => ⟨h.2.2, h.2.1⟩, fun h => ⟨ht c h.1, h.2, h.1⟩⟩
  rw [weightOn, ← hsame, ← Finset.sum_boole]
  refine Finset.sum_congr rfl fun c _ => ?_
  rw [ite_and]

/-- Sums of checks are what weights come to. -/
theorem sumOf_iff {s : Finset Qubit} : g.SumOf b s ↔ ∃ w : Qubit → ZMod 2, ∀ q, q ∈ s ↔ g.weightOn b w q = 1 := by
  constructor
  · intro h
    obtain ⟨t, ht, hodd⟩ := h
    refine ⟨fun c => if c ∈ t then 1 else 0, fun q => ?_⟩
    rw [hodd, weightOn_indicator ht, ZMod.natCast_eq_one_iff_odd]
  · intro h
    obtain ⟨w, hw⟩ := h
    have hchecks : ∀ c ∈ (g.checkQubits b).toFinset.filter (w · = 1), c ∈ g.checkQubits b := fun c hc =>
      List.mem_toFinset.mp (Finset.mem_filter.mp hc).1
    have hbit : ∀ a : ZMod 2, (if a = 1 then 1 else 0) = a := by decide
    refine ⟨_, hchecks, fun q => ?_⟩
    rw [hw, ← ZMod.natCast_eq_one_iff_odd, ← weightOn_indicator hchecks, weightOn, weightOn]
    refine iff_of_eq (congrArg (· = 1) (Finset.sum_congr rfl fun c hc => ?_))
    simp only [Finset.mem_filter, hc, true_and, hbit]

theorem rank_incidence (h : ∀ w : Qubit → ZMod 2, (∀ q ∈ g.dataQubits, g.weightOn b w q = 0) →
    ∀ c ∈ g.checkQubits b, w c = 0) : (g.incidence b).rank = (g.checkQubits b).length := by
  have hrows : LinearIndependent (ZMod 2) (g.incidence b).row := by
    rw [Fintype.linearIndependent_iff]
    intro w hw c
    have hextend : ∀ c : { c // c ∈ g.checkQubits b }, Function.extend Subtype.val w 0 c.1 = w c :=
      Subtype.val_injective.extend_apply w 0
    rw [← hextend]
    refine h _ (fun q hq => ?_) c.1 c.2
    have hcolumn := congrFun hw ⟨q, hq⟩
    rw [Finset.sum_apply] at hcolumn
    rw [weightOn, Finset.sum_subtype _ fun c => List.mem_toFinset]
    refine Eq.trans (Finset.sum_congr rfl fun c _ => ?_) hcolumn
    rw [hextend]
    simp [incidence]
  refine hrows.rank_matrix.trans ?_
  rw [Fintype.card_of_subtype _ fun c => List.mem_toFinset, List.toFinset_card_of_nodup (checkQubits_nodup b)]

end Graph

end QuantumMemory

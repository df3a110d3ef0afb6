/-
  QuantumMemory.Proofs.Linear.Canonical — the reduced row echelon form belongs to the space.

  A pivot is where some vector of the space has its first one, and every such place is a pivot
  (`Echelon.pivot_of_first`), so two echelon forms of one space have the same pivots; rows with the
  same pivot then differ by a sum of rows that is nothing at the pivots (`Echelon.unique`). The rows
  are independent (`Echelon.finrank_eq`).

  - `rref_canonical`: what elimination returns is in reduced form and spans what the rows did;
    the rank is the dimension, reducing again changes nothing, and matrices of one width have
    one reduced form just if they have one row space.
-/

import Mathlib.Data.List.Sort
import Mathlib.LinearAlgebra.Dimension.Constructions
import QuantumMemory.Proofs.Linear.Kernel

namespace QuantumMemory

namespace BitMatrix

namespace Echelon

variable {cols : Nat} {reduced other : List (Nat × Nat)}

/-- Where a vector of the space has its first one there is a pivot. -/
theorem pivot_of_first (h : Echelon cols reduced) {x : Entries} (hx : x ∈ rowSpace (reduced.map Prod.snd)) {c : Nat}
    (hone : x c = 1) (hbefore : ∀ k < c, x k = 0) : ∃ e ∈ reduced, e.1 = c := by
  by_contra hnone
  have hterm : ∀ e ∈ reduced.toFinset, x e.1 * entries e.2 c = 0 := by
    intro e he
    have hmem := List.mem_toFinset.mp he
    rcases Nat.lt_trichotomy e.1 c with hlt | heq | hgt
    · rw [hbefore e.1 hlt, zero_mul]
    · exact absurd ⟨e, hmem, heq⟩ hnone
    · rw [h.start e hmem c hgt, mul_zero]
  have hzero : x c = 0 := by
    rw [congrFun (h.coordinates hx) c, Finset.sum_apply]
    exact Finset.sum_eq_zero hterm
  rw [hzero] at hone
  exact absurd hone (by decide)

/-- Each row of one echelon form of a space is in every other. -/
theorem subset_of_rowSpace_eq (h : Echelon cols reduced) (h' : Echelon cols other)
    (hspace : rowSpace (reduced.map Prod.snd) = rowSpace (other.map Prod.snd)) {e : Nat × Nat} (he : e ∈ reduced) :
    e ∈ other := by
  have hpivots : ∀ r ∈ reduced, ∃ r' ∈ other, r'.1 = r.1 := by
    intro r hr
    have hmem : entries r.2 ∈ rowSpace (other.map Prod.snd) := hspace ▸ entries_mem (List.mem_map_of_mem hr)
    exact h'.pivot_of_first hmem (h.own r hr) (h.start r hr)
  obtain ⟨e', he', hpivot⟩ := hpivots e he
  have hdiff : entries e.2 - entries e'.2 ∈ rowSpace (reduced.map Prod.snd) :=
    Submodule.sub_mem _ (entries_mem (List.mem_map_of_mem he)) (hspace ▸ entries_mem (List.mem_map_of_mem he'))
  have hzero : entries e.2 - entries e'.2 = 0 := by
    refine h.eq_zero hdiff fun r hr => ?_
    rw [Pi.sub_apply]
    by_cases hr' : r.1 = e.1
    · rw [hr', h.own e he, ← hpivot, h'.own e' he', sub_self]
    · obtain ⟨r', hmem, heq⟩ := hpivots r hr
      rw [h.others e he r hr hr', ← heq, h'.others e' he' r' hmem (by rwa [heq, hpivot]), sub_self]
  have hrow : e.2 = e'.2 := entries_inj.mp (sub_eq_zero.mp hzero)
  rw [show e = e' from Prod.ext hpivot.symm hrow]
  exact he'

/-- A space has one echelon form. -/
theorem unique (h : Echelon cols reduced) (h' : Echelon cols other)
    (hspace : rowSpace (reduced.map Prod.snd) = rowSpace (other.map Prod.snd)) : reduced = other := by
  have hirrefl : Std.Irrefl fun e e' : Nat × Nat => e.1 < e'.1 := ⟨fun e => Nat.lt_irrefl e.1⟩
  have hantisymm : Std.Antisymm fun e e' : Nat × Nat => e.1 < e'.1 :=
    ⟨fun e e' hlt hgt => absurd hgt (Nat.lt_asymm hlt)⟩
  refine List.Pairwise.eq_of_mem_iff (List.pairwise_map.mp h.ascend) (List.pairwise_map.mp h'.ascend) fun e => ?_
  exact ⟨h.subset_of_rowSpace_eq h' hspace, h'.subset_of_rowSpace_eq h hspace.symm⟩

/-- The reduced rows are a basis of their space. -/
theorem finrank_eq (h : Echelon cols reduced) :
    Module.finrank (ZMod 2) (rowSpace (reduced.map Prod.snd)) = reduced.length := by
  have hindependent : LinearIndependent (ZMod 2) fun i => entries (reduced.get i).2 := by
    refine Fintype.linearIndependent_iff.mpr fun g hg i => ?_
    have hi := congrFun hg (reduced.get i).1
    rw [Finset.sum_apply, Finset.sum_eq_single i] at hi
    · rwa [Pi.smul_apply, h.own _ (List.get_mem reduced i), smul_eq_mul, mul_one] at hi
    · intro j _ hne
      have hpivots : (reduced.get i).1 ≠ (reduced.get j).1 := by
        intro heq
        have hsame := h.pivot_inj (List.get_mem reduced i) (List.get_mem reduced j) heq
        exact hne ((List.Nodup.of_map _ h.nodup).get_inj_iff.mp hsame).symm
      rw [Pi.smul_apply, h.others _ (List.get_mem reduced j) _ (List.get_mem reduced i) hpivots, smul_zero]
    · exact fun hnot => absurd (Finset.mem_univ i) hnot
  have hrange : Set.range (fun i => entries (reduced.get i).2) = entries '' {row | row ∈ reduced.map Prod.snd} := by
    ext x
    simp only [Set.mem_range, Set.mem_image, Set.mem_ofPred_eq, List.mem_map]
    constructor
    · rintro ⟨i, rfl⟩
      exact ⟨_, ⟨_, List.get_mem reduced i, rfl⟩, rfl⟩
    · rintro ⟨row, ⟨e, he, rfl⟩, rfl⟩
      obtain ⟨i, rfl⟩ := List.get_of_mem he
      exact ⟨i, rfl⟩
  rw [rowSpace, ← hrange, finrank_span_eq_card hindependent, Fintype.card_fin]

end Echelon

/-! ## The reduced form of a matrix -/

/-- A matrix in reduced row echelon form, with its pivot columns. -/
structure Reduced (m : BitMatrix) (pivots : List Nat) : Prop where
  ascend : pivots.Pairwise (· < ·)
  within : ∀ p ∈ pivots, p < m.cols
  count : m.rows.length = pivots.length
  first : ∀ (i row p : Nat), m.rows[i]? = some row → pivots[i]? = some p →
    row.testBit p = true ∧ ∀ c < p, row.testBit c = false
  single : ∀ i p : Nat, pivots[i]? = some p → ∀ j row : Nat, m.rows[j]? = some row → (row.testBit p = true ↔ j = i)

variable {m : BitMatrix}

theorem reduced_rref (m : BitMatrix) : Reduced m.rref.1 m.rref.2 := by
  have h := echelon_echelon m
  have hrow : ∀ {j row : Nat}, m.rref.1.rows[j]? = some row → ∃ e, m.echelon[j]? = some e ∧ e.2 = row := by
    intro j row hj
    exact Option.map_eq_some_iff.mp ((List.getElem?_map ..).symm.trans hj)
  have hpivot : ∀ {i p : Nat}, m.rref.2[i]? = some p → ∃ e, m.echelon[i]? = some e ∧ e.1 = p := by
    intro i p hi
    exact Option.map_eq_some_iff.mp ((List.getElem?_map ..).symm.trans hi)
  refine ⟨h.ascend, fun p hp => ?_, by simp [rref], fun i row p hi hp => ?_, fun i p hp j row hj => ?_⟩
  · obtain ⟨e, he, rfl⟩ := List.mem_map.mp hp
    exact h.before e he
  · obtain ⟨e, he, rfl⟩ := hrow hi
    obtain ⟨e', he', rfl⟩ := hpivot hp
    cases he.symm.trans he'
    have hmem := List.mem_of_getElem? he
    exact ⟨entries_eq_one.mp (h.own e hmem), fun c hc => entries_eq_zero.mp (h.start e hmem c hc)⟩
  · obtain ⟨e, he, rfl⟩ := hpivot hp
    obtain ⟨e', he', rfl⟩ := hrow hj
    constructor
    · intro hbit
      by_contra hne
      have hdistinct : e.1 ≠ e'.1 := by
        intro heq
        have hsame := h.pivot_inj (List.mem_of_getElem? he) (List.mem_of_getElem? he') heq
        rw [← hsame, ← he] at he'
        have hlt : j < m.echelon.length := (List.getElem?_eq_some_iff.mp (he'.trans he)).1
        exact hne ((List.getElem?_inj hlt (List.Nodup.of_map _ h.nodup)).mp he')
      rw [entries_eq_zero.mp (h.others e' (List.mem_of_getElem? he') e (List.mem_of_getElem? he) hdistinct)] at hbit
      cases hbit
    · rintro rfl
      cases he.symm.trans he'
      exact entries_eq_one.mp (h.own e (List.mem_of_getElem? he))

theorem rref_inRange (h : m.InRange) : m.rref.1.InRange := by
  intro row hrow
  have hmem : entries row ∈ rowSpace m.rows := rowSpace_echelon h ▸ entries_mem hrow
  exact entries_within.mp (h.rowSpace_le hmem)

/-- Matrices of one width have one echelon form just if they have one row space. -/
theorem rref_eq_iff {n : BitMatrix} (h : m.InRange) (h' : n.InRange) (hcols : n.cols = m.cols) :
    m.rref = n.rref ↔ rowSpace m.rows = rowSpace n.rows := by
  constructor
  · intro heq
    have hrows : m.echelon.map Prod.snd = n.echelon.map Prod.snd := congrArg (fun r => r.1.rows) heq
    rw [← rowSpace_echelon h, hrows, rowSpace_echelon h']
  · intro hspace
    have hechelon : m.echelon = n.echelon := by
      refine (echelon_echelon m).unique (hcols ▸ echelon_echelon n) ?_
      rw [rowSpace_echelon h, rowSpace_echelon h', hspace]
    rw [rref, rref, hechelon, hcols]

/-- Elimination returns the one reduced form of the row space, with as many rows as the space
    has dimensions. -/
theorem rref_canonical (h : m.InRange) :
    (m.rref.1.cols = m.cols ∧ m.rref.1.InRange ∧ Reduced m.rref.1 m.rref.2) ∧
      rowSpace m.rref.1.rows = rowSpace m.rows ∧
      m.rank = Module.finrank (ZMod 2) (rowSpace m.rows) ∧
      m.rref.1.rref = m.rref ∧
      ∀ n : BitMatrix, n.InRange → n.cols = m.cols → (m.rref = n.rref ↔ rowSpace m.rows = rowSpace n.rows) := by
  have hspace : rowSpace m.rref.1.rows = rowSpace m.rows := rowSpace_echelon h
  refine ⟨⟨rfl, rref_inRange h, reduced_rref m⟩, hspace, ?_, ?_, fun n h' hcols => rref_eq_iff h h' hcols⟩
  · rw [← rowSpace_echelon h, (echelon_echelon m).finrank_eq]
    rfl
  · exact (rref_eq_iff (rref_inRange h) h rfl).mpr hspace

/-- Of three rows the third is the sum of the others; the pivots are the first and the last
    column, and the one of two equal rows alone has another form. -/
theorem rref_canonical_dependent :
    (⟨3, [0b110, 0b011, 0b101]⟩ : BitMatrix).InRange ∧ (⟨3, [0b011, 0b011]⟩ : BitMatrix).InRange ∧
      (⟨3, [0b110, 0b011, 0b101]⟩ : BitMatrix).rref = (⟨3, [0b101, 0b110]⟩, [0, 1]) ∧
      Module.finrank (ZMod 2) (rowSpace [0b110, 0b011, 0b101]) = 2 ∧
      rowSpace [0b110, 0b011, 0b101] ≠ rowSpace [0b011, 0b011] := by
  have hall : (⟨3, [0b110, 0b011, 0b101]⟩ : BitMatrix).InRange := by unfold InRange; decide
  have hone : (⟨3, [0b011, 0b011]⟩ : BitMatrix).InRange := by unfold InRange; decide
  obtain ⟨-, -, hrank, -, hsame⟩ := rref_canonical hall
  exact ⟨hall, hone, by decide, hrank.symm, fun h => absurd ((hsame _ hone rfl).mpr h) (by decide)⟩

end BitMatrix

end QuantumMemory

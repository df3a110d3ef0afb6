/-
  QuantumMemory.Proofs.Lab.Rates — rates by distance, as entries are put in.

  Entries ascend (`insertRates_ascend`). A new one is found under its distance and leaves those
  of other distances alone (`find?_insertRates`); behind smaller distances it becomes the last
  (`insertRates_of_lt`).
-/

import Mathlib.Tactic.Common
import QuantumMemory.Lab.Threshold

namespace QuantumMemory

namespace ThresholdStats

/-- Rates by distance. -/
abbrev Entries := List (Nat × List Binary64)

variable {d : Nat} {rates : List Binary64} {entries : Entries}

theorem mem_insertRates {entry : Nat × List Binary64} (h : entry ∈ insertRates d rates entries) :
    entry = (d, rates) ∨ entry ∈ entries := by
  induction entries with
  | nil => exact .inl (List.mem_singleton.mp h)
  | cons first rest ih =>
    rw [insertRates] at h
    split at h
    · exact List.mem_cons.mp h
    · split at h
      · exact (List.mem_cons.mp h).imp_right (List.mem_cons_of_mem _)
      · rcases List.mem_cons.mp h with rfl | h
        · exact .inr List.mem_cons_self
        · exact (ih h).imp_right (List.mem_cons_of_mem _)

theorem mem_insertRates_keys {e : Nat} :
    e ∈ (insertRates d rates entries).map Prod.fst ↔ e = d ∨ e ∈ entries.map Prod.fst := by
  induction entries with
  | nil => simp [insertRates]
  | cons first rest ih =>
    rw [insertRates]
    split
    · simp
    · split
      · rename_i heq
        simp [heq]
      · simp only [List.map_cons, List.mem_cons, ih]
        exact or_left_comm

theorem insertRates_ascend (h : (entries.map Prod.fst).Pairwise (· < ·)) :
    ((insertRates d rates entries).map Prod.fst).Pairwise (· < ·) := by
  induction entries with
  | nil => exact List.pairwise_singleton _ _
  | cons first rest ih =>
    obtain ⟨hfirst, hrest⟩ := List.pairwise_cons.mp h
    rw [insertRates]
    split
    · rename_i hlt
      refine List.pairwise_cons.mpr ⟨fun e he => ?_, h⟩
      rcases List.mem_cons.mp he with rfl | he
      · exact hlt
      · exact Nat.lt_trans hlt (hfirst e he)
    · split
      · rename_i heq
        exact List.pairwise_cons.mpr ⟨heq ▸ hfirst, hrest⟩
      · refine List.pairwise_cons.mpr ⟨fun e he => ?_, ih hrest⟩
        rcases mem_insertRates_keys.mp he with rfl | he
        · omega
        · exact hfirst e he

theorem find?_insertRates (e : Nat) :
    (insertRates d rates entries).find? (·.1 == e) =
      if e = d then some (d, rates) else entries.find? (·.1 == e) := by
  induction entries with
  | nil =>
    rw [insertRates]
    by_cases he : e = d
    · simp [he]
    · simp [he, Ne.symm he]
  | cons first rest ih =>
    rw [insertRates]
    by_cases he : e = d
    · subst he
      rw [if_pos rfl] at ih ⊢
      split
      · simp
      · split
        · simp
        · rename_i hne
          rw [List.find?_cons_of_neg (by simpa using Ne.symm hne), ih]
    · rw [if_neg he] at ih ⊢
      split
      · simp [Ne.symm he]
      · split
        · rename_i heq
          simp [← heq, Ne.symm he]
        · rw [List.find?_cons, List.find?_cons, ih]

theorem insertRates_of_lt (h : ∀ e ∈ entries.map Prod.fst, e < d) :
    insertRates d rates entries = entries ++ [(d, rates)] := by
  induction entries with
  | nil => rfl
  | cons first rest ih =>
    obtain ⟨hfirst, hrest⟩ := List.forall_mem_cons.mp h
    rw [insertRates, if_neg (Nat.lt_asymm hfirst), if_neg (Nat.ne_of_gt hfirst), ih hrest]
    rfl

end ThresholdStats

end QuantumMemory

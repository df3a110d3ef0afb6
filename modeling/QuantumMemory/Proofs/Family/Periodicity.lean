/-
  QuantumMemory.Proofs.Family.Periodicity — the memories of all codes repeat their rounds.

  A memory of a layout and a Shor memory are both periodic streams, so of whatever code, for
  every number of rounds, a memory is put together from the same four lists of instructions
  (`memory_periodic`).
-/

import QuantumMemory.Proofs.Family.Construction
import QuantumMemory.Proofs.Memory.Periodicity
import QuantumMemory.Proofs.Shor.Addressing

namespace QuantumMemory

namespace ShorCode

open Layout Memory

variable {c : ShorCode}

/-- A Shor memory is periodic. -/
theorem periodic (hr : c.register.InReach) (hblocks : 1 ≤ c.blocks) (p1 p2 : Binary64) :
    c.register.Periodic (c.extraction p1 p2) c.roundTerms c.readoutTerms logical where
  extraction_eq k := rfl
  terms_eq k := by
    simp [roundTerms, delayed, Nat.add_comm]
  closing_eq k := by
    have hclosing : ∀ b, c.closingTerms (k + 1) b = (c.closingTerms 1 b).map (delayed k) := by
      intro b
      rw [closingTerms, closingTerms, List.map_append (f := delayed k), map_delayed, Nat.add_comm 1 k]
      simp [delayed]
    simp [readoutTerms, hclosing]
  closing_reach := readoutTerms_reach hr (Nat.le_refl 1)
  logical_reach := logical_reach hr hblocks (Nat.le_refl 1)

theorem compiled_repeatsRounds (hr : c.register.InReach) (hblocks : 1 ≤ c.blocks) :
    c.register.RepeatsRounds fun rounds => (c.compiled rounds).circuit.instructions := by
  have hdata : measuredBy (noise1 c.params.depolarize1Rate c.dataQubits ++ (Instruction.gate .h c.dataQubits).kept ++
      (Instruction.measure c.dataQubits).kept) = c.register.data := by
    rw [measuredBy_append, measuredBy_append, measuredBy_noise1, measuredBy_kept, measuredBy_kept]
    rfl
  have hround : ∀ r, measuredBy (c.extraction c.params.depolarize1Rate c.params.depolarize2Rate r) =
      c.register.allChecks := by
    intro r
    rw [measuredBy_extraction, register_allChecks]
  simp only [instructions_compiled, readout_eq]
  exact (periodic hr hblocks _ _).repeatsRounds (program_rounds hr _ _) (c.measuredBy_encoding _ _) hround hdata

end ShorCode

namespace Code

/-- What a memory of the code measures: checks in its rounds, data in the end. -/
def register : Code → Layout
  | placed c => c.layout
  | shor c => c.register

theorem Made.repeatsRounds {code : Code} (h : code.Made) (hsize : code.numQubits < 2 ^ 30) :
    code.register.RepeatsRounds fun rounds => (code.compiled rounds).circuit.instructions := by
  have hc := h.consistent
  cases code with
  | placed c => exact Layout.compiled_repeatsRounds hc.tidy (hc.inReach hsize) c.name c.params hc.logical_data
  | shor c =>
    have hqubits : 6 * c.blocks - 1 < 2 ^ 30 := hsize
    exact ShorCode.compiled_repeatsRounds (c.register_inReach (by omega)) hc.2

/-- Below 2^30 qubits four lists of instructions make up the memories of a code for all numbers
    of rounds but zero. One is the start, which measures nothing, the next the first round and
    another every later round, which measure the checks, and the last what measures the data. -/
theorem memory_periodic {code : Code} (h : code.Made) (hsize : code.numQubits < 2 ^ 30) :
    ∃ start first later last, measuredBy start = [] ∧ measuredBy first = code.register.allChecks ∧
      measuredBy later = code.register.allChecks ∧ measuredBy last = code.register.data ∧
      ∀ rounds, 1 ≤ rounds → ∃ e, code.buildMemory rounds = .ok e ∧
        e.circuit.instructions = start ++ first ++ (List.replicate (rounds - 1) later).flatten ++ last := by
  obtain ⟨start, first, later, last, hstart, hfirst, hlater, hlast, hstream⟩ := h.repeatsRounds hsize
  refine ⟨start, first, later, last, hstart, hfirst, hlater, hlast, fun rounds hpos => ?_⟩
  exact ⟨_, h.buildMemory_eq hsize hpos, hstream rounds hpos⟩

/-- Shor's code at distance 3: eight ancillas in every round, nine data qubits in the end. -/
theorem memory_periodic_shor : (shor ⟨⟨3, .one, .one⟩⟩).Made ∧ (shor ⟨⟨3, .one, .one⟩⟩).numQubits < 2 ^ 30 ∧
    ∃ start first later last, measuredBy start = [] ∧ measuredBy first = List.range' 9 8 ∧
      measuredBy later = List.range' 9 8 ∧ measuredBy last = List.range 9 ∧
      ∀ rounds, 1 ≤ rounds → ∃ e, (shor ⟨⟨3, .one, .one⟩⟩).buildMemory rounds = .ok e ∧
        e.circuit.instructions = start ++ first ++ (List.replicate (rounds - 1) later).flatten ++ last := by
  have hmade : (shor ⟨⟨3, .one, .one⟩⟩).Made :=
    .builtIn (by rfl : CodeKind.shor.build ⟨3, .one, .one⟩ = .ok (shor ⟨⟨3, .one, .one⟩⟩))
  exact ⟨hmade, by decide, memory_periodic hmade (by decide)⟩

end Code

end QuantumMemory

/-
  QuantumMemory.Proofs.Memory.Periodicity — every round after the first is the same.

  A reference counts back from the end of the ledger, so all that matters is how the ledger
  ends. Some rounds later it ends with the same outcomes, each of them as many rounds later
  (`Resumes`), and a term that it finds is found at the same place when it is asked for as
  much later (`lookup?_resumed`). Detectors over terms of later rounds therefore keep their
  references (`detectorsFor_resumed`).

  A stream is `Periodic` where the terms of its rounds and of its end move along with the
  rounds. Then each round after the second is the second one again, and the end does not
  depend on how many there are (`Periodic.stream_eq`, `RepeatsRounds`).
-/

import QuantumMemory.Proofs.Memory.Addressing

namespace QuantumMemory

/-- The same measurement, `k` rounds later. -/
def Measurement.delay (k : Nat) (m : Measurement) : Measurement := { m with round := m.round + k }

/-- The outcome of the same qubit, `k` rounds later. -/
def Memory.delayed (k : Nat) (t : Term) : Term := (t.1, t.2 + k)

theorem Memory.map_delayed (k r : Nat) (qubits : List Qubit) :
    (qubits.map (·, r)).map (delayed k) = qubits.map (·, r + k) := by
  simp [delayed]

open Memory (delayed map_delayed noise1)

namespace Ledger

/-- The second ledger ends as the first one does, `k` rounds later. -/
def Resumes (k : Nat) (l later : Ledger) : Prop :=
  ∃ older, later.latestFirst = l.latestFirst.map (Measurement.delay k) ++ older

namespace Resumes

variable {k : Nat} {l later : Ledger} (h : l.Resumes k later)

include h

theorem enter (ms : List Measurement) : (l.enter ms).Resumes k (later.enter (ms.map (Measurement.delay k))) := by
  obtain ⟨older, he⟩ := h
  refine ⟨older, ?_⟩
  show (ms.map (Measurement.delay k)).reverse ++ later.latestFirst =
    (ms.reverse ++ l.latestFirst).map (Measurement.delay k) ++ older
  rw [he, List.map_append, List.map_reverse, List.append_assoc]

/-- What is found is found at the same place. -/
theorem lookup?_resumed {q : Qubit} {r : Nat} (ht : l.Reaches (q, r)) : later.lookup? q (r + k) = l.lookup? q r := by
  obtain ⟨older, he⟩ := h
  obtain ⟨offset, ho⟩ := lookup?_of_reaches ht
  obtain ⟨n, hn, -⟩ := Option.bind_eq_some_iff.mp ho
  have hsame : (·.isOf q (r + k)) ∘ Measurement.delay k = fun m => m.isOf q r := by
    funext m
    apply Bool.eq_iff_iff.mpr
    simp [Measurement.isOf, Measurement.delay]
  have hlater : later.later? q (r + k) = l.later? q r := by
    rw [later?] at hn
    rw [later?, later?, he, List.findIdx?_append, List.findIdx?_map, hsame, hn]
    rfl
  rw [lookup?, lookup?, hlater]

theorem offsets_resumed {ts : List Term} (ht : ∀ t ∈ ts, l.Reaches t) :
    later.offsets (ts.map (delayed k)) = l.offsets ts := by
  rw [offsets, offsets, List.filterMap_map]
  apply List.filterMap_congr
  intro t hmem
  exact h.lookup?_resumed (ht t hmem)

theorem detectorsFor_resumed {terms : List (List Term)} (ht : ∀ ts ∈ terms, ∀ t ∈ ts, l.Reaches t) :
    Layout.detectorsFor later (terms.map (List.map (delayed k))) = Layout.detectorsFor l terms := by
  rw [Layout.detectorsFor, Layout.detectorsFor, List.flatMap_map]
  apply List.flatMap_congr
  intro ts hmem
  rw [h.offsets_resumed (ht ts hmem)]

end Resumes

end Ledger

namespace Layout

variable {l : Layout}

theorem ledgerAfter_resumes (l : Layout) (k rounds : Nat) :
    (l.ledgerAfter rounds).Resumes k (l.ledgerAfter (rounds + k)) := by
  induction rounds with
  | zero => exact ⟨(l.ledgerAfter (0 + k)).latestFirst, rfl⟩
  | succ n ih =>
    have hmeasured : l.checkMeasurements (n + k) = (l.checkMeasurements n).map (Measurement.delay k) := by
      simp [checkMeasurements, Measurement.delay]
    rw [Nat.add_right_comm, ledgerAfter, ledgerAfter, hmeasured]
    exact ih.enter _

theorem finalLedger_resumes (l : Layout) (k rounds : Nat) :
    (l.finalLedger rounds).Resumes k (l.finalLedger (rounds + k)) := by
  have hmeasured : l.dataMeasurements (rounds + k) = (l.dataMeasurements rounds).map (Measurement.delay k) := by
    simp [dataMeasurements, Measurement.delay]
  rw [finalLedger, finalLedger, hmeasured]
  exact (l.ledgerAfter_resumes k rounds).enter _

/-- Four lists of instructions make up the streams of all numbers of rounds: the first measures
    nothing, the second the checks, the third, for every round after the first one, the checks
    again, and the fourth the data. -/
def RepeatsRounds (l : Layout) (stream : Nat → List Instruction) : Prop :=
  ∃ start first later last, measuredBy start = [] ∧ measuredBy first = l.allChecks ∧ measuredBy later = l.allChecks ∧
    measuredBy last = l.data ∧ ∀ rounds, 1 ≤ rounds →
      stream rounds = start ++ first ++ (List.replicate (rounds - 1) later).flatten ++ last

/-- Rounds and an end that move along: in later rounds the same is done, and compared with
    terms that are as much later. -/
structure Periodic (l : Layout) (extraction : Nat → List Instruction) (terms closing : Nat → List (List Term))
    (logical : List Qubit) : Prop where
  extraction_eq : ∀ k, extraction (k + 1) = extraction 1
  terms_eq : ∀ k, terms (k + 1) = (terms 1).map (List.map (delayed k))
  closing_eq : ∀ k, closing (k + 1) = (closing 1).map (List.map (delayed k))
  closing_reach : ∀ ts ∈ closing 1, ∀ t ∈ ts, (l.finalLedger 1).Reaches t
  logical_reach : ∀ t ∈ logical.map (·, 1), (l.finalLedger 1).Reaches t

namespace Periodic

variable {program extraction : Nat → List Instruction} {terms closing : Nat → List (List Term)} {logical : List Qubit}
  (hp : l.Periodic extraction terms closing logical)

include hp

theorem round_eq (hr : l.Rounds program extraction terms) (k : Nat) :
    extraction (k + 1) ++ detectorsFor (l.ledgerAfter (k + 1 + 1)) (terms (k + 1)) =
      extraction 1 ++ detectorsFor (l.ledgerAfter 2) (terms 1) := by
  have hresumes := l.ledgerAfter_resumes k 2
  rw [Nat.add_comm 2 k] at hresumes
  rw [hp.extraction_eq k, hp.terms_eq k, hresumes.detectorsFor_resumed (hr.reach 1)]

theorem program_eq (hr : l.Rounds program extraction terms) (rounds : Nat) : program (rounds + 1) =
    program 0 ++ (extraction 0 ++ detectorsFor (l.ledgerAfter 1) (terms 0)) ++
      (List.replicate rounds (extraction 1 ++ detectorsFor (l.ledgerAfter 2) (terms 1))).flatten := by
  induction rounds with
  | zero => rw [hr.step, List.replicate_zero, List.flatten_nil, List.append_nil]
  | succ n ih =>
    rw [hr.step, ih, hp.round_eq hr n, List.append_assoc, List.replicate_succ', List.flatten_append,
      List.flatten_singleton]

theorem ending_eq (measureData : List Instruction) (k : Nat) :
    l.ending measureData (k + 1) (closing (k + 1)) logical = l.ending measureData 1 (closing 1) logical := by
  have hresumes := l.finalLedger_resumes k 1
  rw [Nat.add_comm 1 k] at hresumes
  have hlogical : logical.map (·, k + 1) = (logical.map (·, 1)).map (delayed k) := by
    rw [map_delayed, Nat.add_comm]
  rw [ending, ending, hp.closing_eq, hlogical, hresumes.detectorsFor_resumed hp.closing_reach,
    hresumes.offsets_resumed hp.logical_reach]

/-- After at least one round the stream is its start, a first round, a second round as often as
    there are more, and the end that it has after one round. -/
theorem stream_eq (hr : l.Rounds program extraction terms) (measureData : List Instruction) {rounds : Nat}
    (hpos : 1 ≤ rounds) : program rounds ++ l.ending measureData rounds (closing rounds) logical =
      program 0 ++ (extraction 0 ++ detectorsFor (l.ledgerAfter 1) (terms 0)) ++
        (List.replicate (rounds - 1) (extraction 1 ++ detectorsFor (l.ledgerAfter 2) (terms 1))).flatten ++
        l.ending measureData 1 (closing 1) logical := by
  obtain ⟨k, rfl⟩ : ∃ k, rounds = k + 1 := ⟨rounds - 1, by omega⟩
  rw [hp.program_eq hr, hp.ending_eq, Nat.add_sub_cancel]

/-- So it repeats its rounds. -/
theorem repeatsRounds (hr : l.Rounds program extraction terms) (hstart : measuredBy (program 0) = [])
    (hround : ∀ r, measuredBy (extraction r) = l.allChecks) {measureData : List Instruction}
    (hdata : measuredBy measureData = l.data) :
    l.RepeatsRounds fun rounds => program rounds ++ l.ending measureData rounds (closing rounds) logical := by
  have hmeasures : ∀ r ledger terms, measuredBy (extraction r ++ detectorsFor ledger terms) = l.allChecks := by
    intro r ledger terms
    rw [measuredBy_append, hround, measuredBy_detectorsFor, List.append_nil]
  have hlast : measuredBy (l.ending measureData 1 (closing 1) logical) = l.data := by
    rw [ending, measuredBy_append, measuredBy_append, hdata, measuredBy_detectorsFor, measuredBy_kept]
    exact List.append_nil _
  exact ⟨_, _, _, _, hstart, hmeasures _ _ _, hmeasures _ _ _, hlast, fun rounds => hp.stream_eq hr measureData⟩

end Periodic

/-! ## The memory of a layout -/

/-- The memory of a layout is periodic. -/
theorem periodic (ht : l.Tidy) (hr : l.InReach) (p1 p2 : Binary64) {logical : List Qubit}
    (hlog : ∀ q ∈ logical, q ∈ l.data) : l.Periodic (l.extraction p1 p2) l.roundTerms l.closingTerms logical where
  extraction_eq k := rfl
  terms_eq k := by
    simp [roundTerms, delayed, Nat.add_comm]
  closing_eq k := by
    simp [closingTerms, delayed, Nat.add_comm]
  closing_reach := closingTerms_reach ht hr (Nat.le_refl 1)
  logical_reach := by
    intro t hmem
    obtain ⟨q, hq, rfl⟩ := List.mem_map.mp hmem
    exact (final_reach hr (Nat.le_refl 1)).1 (hlog q hq)

theorem compiled_repeatsRounds (ht : l.Tidy) (hr : l.InReach) (name : String) (params : CodeParams)
    {logical : List Qubit} (hlog : ∀ q ∈ logical, q ∈ l.data) :
    l.RepeatsRounds fun rounds => (l.compiled name params rounds logical).circuit.instructions := by
  have hdata : measuredBy (noise1 params.depolarize1Rate l.data ++ (Instruction.measure l.data).kept) = l.data := by
    rw [measuredBy_append, measuredBy_noise1, measuredBy_kept]
    rfl
  have hstart := l.measuredBy_program params.depolarize1Rate params.depolarize2Rate 0
  simp only [instructions_compiled, readout_eq]
  exact (periodic ht hr _ _ hlog).repeatsRounds (program_rounds ht hr _ _) hstart (l.measuredBy_extraction _ _) hdata

end Layout

end QuantumMemory

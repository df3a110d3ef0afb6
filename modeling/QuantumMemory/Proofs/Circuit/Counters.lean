/-
  QuantumMemory.Proofs.Circuit.Counters — the counters are exact, and failures leave no trace.

  An edit writes the counters and the stream one after the other. `Counted` says that each
  counter is what the stream adds up to; every instruction keeps it (`Counted.extend`),
  whatever its kind and its targets. What an edit makes of a circuit is what appending to it
  gives: all that can fail comes before the first write, so a refusal finds the circuit as it
  was.

  Main result: `edited_exact`, over every run of calls, refused ones and ones without
  targets among them.
-/

import QuantumMemory.Proofs.Circuit.Edit
import QuantumMemory.Proofs.Circuit.Reference

namespace QuantumMemory

open Edit

/-! ## One past the largest -/

/-- One past the largest, zero if there is none. -/
def onePast (xs : List Nat) : Nat := xs.max?.elim 0 (· + 1)

theorem onePast_le_iff {xs : List Nat} {n : Nat} : onePast xs ≤ n ↔ ∀ x ∈ xs, x < n := by
  cases hmax : xs.max? with
  | none =>
    rw [List.max?_eq_none_iff.mp hmax]
    simp [onePast]
  | some m =>
    obtain ⟨hmem, hle⟩ := List.max?_eq_some_iff.mp hmax
    rw [onePast, hmax]
    constructor
    · intro hm x hx
      exact lt_of_le_of_lt (hle x hx) hm
    · intro h
      exact h m hmem

theorem onePast_append (xs ys : List Nat) : onePast (xs ++ ys) = max (onePast xs) (onePast ys) := by
  refine eq_of_forall_ge_iff fun n => ?_
  rw [onePast_le_iff, List.forall_mem_append, max_le_iff, onePast_le_iff, onePast_le_iff]

theorem onePast_singleton (x : Nat) : onePast [x] = x + 1 := rfl

/-- The index of an observable. -/
def Instruction.Kind.index? : Instruction.Kind → Option Nat
  | observable index => some index
  | _ => none

namespace Circuit

theorem qubitBound_eq (n : Nat) (qubits : List Qubit) : qubitBound n qubits = max n (onePast qubits) := by
  rw [qubitBound]
  induction qubits generalizing n with
  | nil => exact (Nat.max_zero n).symm
  | cons q rest ih => rw [List.foldl_cons, ih, ← List.singleton_append, onePast_append, onePast_singleton, max_assoc]

/-! ## Counting -/

/-- Each counter is what the stream adds up to. -/
structure Counted (c : Circuit) : Prop where
  qubits : c.numQubits = onePast (c.instructions.flatMap (·.qubits))
  measurements : c.numMeasurements = c.measured.length
  detectors : c.numDetectors = c.instructions.countP (·.kind = .detector)
  observables : c.numObservables = onePast (c.instructions.filterMap fun i => i.kind.index?)

theorem counted_empty (name : String) : (empty name).Counted := ⟨rfl, rfl, rfl, rfl⟩

theorem measured_extendAll (c : Circuit) (is : List Instruction) :
    (c.extendAll is).measured = c.measured ++ measuredBy is := by
  rw [measured, instructions_extendAll, measuredBy_append, measured]

theorem length_measuredBy_singleton (i : Instruction) : (measuredBy [i]).length = i.measurements := by
  rw [length_measuredBy, measurementsOf_cons, measurementsOf_nil, Nat.add_zero]

theorem numDetectors_extend (c : Circuit) (i : Instruction) :
    (c.extend i).numDetectors = c.numDetectors + [i].countP (·.kind = .detector) := by
  show (if i.kind = .detector then c.numDetectors + 1 else c.numDetectors) = _
  rw [List.countP_singleton]
  by_cases hk : i.kind = .detector <;> simp [hk]

theorem numObservables_extend (c : Circuit) (i : Instruction) :
    (c.extend i).numObservables = max c.numObservables (onePast ([i].filterMap fun i => i.kind.index?)) := by
  obtain ⟨kind, qubits, records⟩ := i
  cases kind with
  | observable index => rfl
  | _ => exact (Nat.max_zero _).symm

theorem Counted.extend {c : Circuit} (h : c.Counted) (i : Instruction) : (c.extend i).Counted where
  qubits := by
    show qubitBound c.numQubits i.qubits = _
    rw [qubitBound_eq, h.qubits, instructions_extend, List.flatMap_append, onePast_append, List.flatMap_singleton]
  measurements := by
    show c.numMeasurements + i.measurements = _
    rw [h.measurements, show (c.extend i).measured = _ from measured_extendAll c [i], List.length_append,
      length_measuredBy_singleton]
  detectors := by rw [numDetectors_extend, h.detectors, instructions_extend, List.countP_append]
  observables := by
    rw [numObservables_extend, h.observables, instructions_extend, List.filterMap_append, onePast_append]

/-! ## What a call leaves -/

theorem measuredBy_added (i : Instruction) : measuredBy i.added = measuredBy [i] := by
  unfold Instruction.added Instruction.kept
  split
  · rename_i htick
    rw [measuredBy, measuredBy, List.flatMap_singleton, List.flatMap_singleton, htick]
    rfl
  · split
    · rename_i hempty
      simp only [Bool.and_eq_true, List.isEmpty_iff] at hempty
      rw [measuredBy, measuredBy, List.flatMap_singleton, hempty.1, ite_self, List.flatMap_nil]
    · rfl

theorem measurementsOf_added (i : Instruction) : measurementsOf i.added = i.measurements := by
  rw [← length_measuredBy, measuredBy_added, length_measuredBy_singleton]

theorem numMeasurements_append {c c' : Circuit} {i : Instruction} (h : c.append i = .ok c') :
    c'.numMeasurements = c.numMeasurements + i.measurements := by
  rw [append_eq_extendAll h, numMeasurements_extendAll, measurementsOf_added]

/-- What an appended instruction measures comes after what was measured. -/
theorem measured_append {c c' : Circuit} {i : Instruction} (h : c.append i = .ok c') :
    c'.measured = c.measured ++ measuredBy [i] := by
  rw [append_eq_extendAll h, measured_extendAll, measuredBy_added]

theorem Counted.extendAll {c : Circuit} (h : c.Counted) (is : List Instruction) : (c.extendAll is).Counted :=
  List.foldlRecOn is _ h fun _ hc i _ => hc.extend i

theorem Counted.append {c c' : Circuit} (h : c.Counted) {i : Instruction} (happend : c.append i = .ok c') :
    c'.Counted := by
  rw [append_eq_extendAll happend]
  exact h.extendAll i.added

theorem Counted.call {c : Circuit} (h : c.Counted) (call : Call) : (perform c call.edit).2.Counted := by
  rcases perform_edit_cases c call with ⟨e, he⟩ | ⟨c', happend, hdone⟩
  · rw [he]
    exact h
  · rw [hdone]
    exact h.append happend

theorem Counted.edited {c : Circuit} (h : c.Counted) (calls : List Call) : (edited c calls).Counted :=
  List.foldlRecOn calls _ h fun _ hc call _ => hc.call call

/-- Outcomes keep their numbers. -/
theorem measured_edited (c : Circuit) (calls : List Call) : c.measured <+: (edited c calls).measured := by
  refine List.foldlRecOn (motive := fun d : Circuit => c.measured <+: d.measured) calls _ (List.prefix_refl _)
    fun d hd call _ => hd.trans ?_
  rcases perform_edit_cases d call with ⟨e, he⟩ | ⟨d', happend, hdone⟩
  · rw [he]
  · rw [hdone, measured_append happend]
    exact List.prefix_append _ _

/-- What the call answers on a circuit, and what it leaves: a refusal and a call without targets leave
    the circuit as it was, and a measurement answers with the numbers under which its outcomes
    stand from then on. -/
structure Call.Settles (call : Call) (c : Circuit) : Prop where
  refused : ∀ e, (perform c call.edit).1 = .error e → (perform c call.edit).2 = c
  dropped : call.instruction.qubits = [] → call.instruction.records = [] → call.instruction.kind ≠ .tick →
    (perform c call.edit).2 = c
  numbered : ∀ qubits answer, call = .measure qubits ∨ call = .measureReset qubits →
    (perform c call.edit).1 = .ok answer →
      answer = some (c.numMeasurements, (perform c call.edit).2.numMeasurements) ∧
      (perform c call.edit).2.numMeasurements = c.numMeasurements + qubits.length ∧
      ∀ later j, j < qubits.length →
        (edited (perform c call.edit).2 later).measured[c.numMeasurements + j]? = qubits[j]?

theorem Counted.settles {c : Circuit} (h : c.Counted) (call : Call) : call.Settles c := by
  rcases perform_edit_cases c call with ⟨e, he⟩ | ⟨c', happend, hdone⟩
  · constructor
    · intro _ _
      rw [he]
    · intro _ _ _
      rw [he]
    · intro qubits answer _ hanswer
      rw [he] at hanswer
      cases hanswer
  · constructor
    · intro e he
      rw [hdone] at he
      cases he
    · intro hqubits hrecords hkind
      rw [hdone]
      rcases append_inv happend with ⟨-, -, rfl⟩ | ⟨htick, -⟩ | ⟨-, hsome, -⟩
      · rfl
      · exact absurd htick hkind
      · exact absurd ⟨hqubits, hrecords⟩ hsome
    · intro qubits answer hcall hanswer
      rw [hdone] at hanswer ⊢
      have hmeasured : c'.measured = c.measured ++ qubits := by
        rw [measured_append happend]
        rcases hcall with rfl | rfl
        · exact congrArg (c.measured ++ ·) (List.append_nil qubits)
        · exact congrArg (c.measured ++ ·) (List.append_nil qubits)
      refine ⟨?_, ?_, ?_⟩
      · rcases hcall with rfl | rfl
        · exact (Except.ok.inj hanswer).symm
        · exact (Except.ok.inj hanswer).symm
      · rw [(h.append happend).measurements, hmeasured, List.length_append, h.measurements]
      · intro later j hj
        obtain ⟨more, hmore⟩ := measured_edited c' later
        rw [← hmore, hmeasured, h.measurements, List.append_assoc, List.getElem?_append_right (Nat.le_add_right _ _),
          Nat.add_sub_cancel_left, List.getElem?_append_left hj]

/-! ## Ranges -/

theorem Call.answer_eq {call : Call} {c c' : Circuit} {range : Nat × Nat} (h : call.answer c c' = some range) :
    range = (c.numMeasurements, c'.numMeasurements) := by
  cases call with
  | measure qubits | measureReset qubits => exact (Option.some.inj h).symm
  | _ => cases h

/-- The ranges follow one another, from the outcomes on that are measured at the start. -/
theorem ranges_ordered (c : Circuit) (calls : List Call) :
    (∀ range ∈ ranges c calls, c.numMeasurements ≤ range.1) ∧ (ranges c calls).Pairwise fun r s => r.2 ≤ s.1 := by
  induction calls generalizing c with
  | nil => exact ⟨fun _ h => absurd h List.not_mem_nil, List.Pairwise.nil⟩
  | cons call rest ih =>
    rcases perform_edit_cases c call with ⟨e, he⟩ | ⟨c', happend, hdone⟩
    · rw [ranges, he]
      exact ih c
    · obtain ⟨hfrom, hordered⟩ := ih c'
      have hle : c.numMeasurements ≤ c'.numMeasurements := by
        rw [numMeasurements_append happend]
        exact Nat.le_add_right _ _
      rw [ranges, hdone]
      cases hanswer : call.answer c c' with
      | none => exact ⟨fun range hmem => hle.trans (hfrom range hmem), hordered⟩
      | some range =>
        obtain rfl := Call.answer_eq hanswer
        refine ⟨List.forall_mem_cons.mpr ⟨Nat.le_refl _, ?_⟩, List.Pairwise.cons hfrom hordered⟩
        exact fun range hmem => hle.trans (hfrom range hmem)

example : ranges (empty "m") [.measureReset [3, 4], .measure [5, 5], .measure [0, 1, 2]] = [(0, 2), (2, 5)] := by
  decide

/-- After any calls in place every counter is exact; the next call, whatever it is, leaves the circuit
    as it was if it is refused or has no targets, and numbers what it measures; and the ranges
    that different calls answer with do not overlap. -/
theorem edited_exact (name : String) (calls : List Call) :
    (edited (empty name) calls).Counted ∧
    (∀ call : Call, call.Settles (edited (empty name) calls)) ∧
    (ranges (empty name) calls).Pairwise fun r s => r.2 ≤ s.1 := by
  have hcounted := (counted_empty name).edited calls
  exact ⟨hcounted, hcounted.settles, (ranges_ordered (empty name) calls).2⟩

end Circuit

end QuantumMemory

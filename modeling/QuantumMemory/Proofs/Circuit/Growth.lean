/-
  QuantumMemory.Proofs.Circuit.Growth — circuits as lists of instructions.

  A circuit that admits an instruction grows by it, or by nothing when the instruction has
  no targets (`append_kept`). What the admission asks comes down to the targets: no qubit
  twice, pairs apart, outcomes that are measured.
-/

import Mathlib.Algebra.GroupWithZero.Nat
import Mathlib.Data.List.Nodup
import Mathlib.Tactic.Common
import QuantumMemory.Circuit.Ledger

namespace QuantumMemory

/-- The instruction, unless it has no targets. -/
def Instruction.kept (i : Instruction) : List Instruction :=
  if i.qubits.isEmpty && i.records.isEmpty then [] else [i]

/-- What appending the instruction adds where it is admitted. -/
def Instruction.added (i : Instruction) : List Instruction := if i.kind = .tick then [.tick] else i.kept

theorem Instruction.eq_of_mem_kept {i i' : Instruction} (h : i' ∈ i.kept) : i' = i := by
  unfold Instruction.kept at h
  split at h
  · cases h
  · exact List.mem_singleton.mp h

theorem firstRepeat?_eq_none {qubits seen : List Qubit} :
    firstRepeat? qubits seen = none ↔ qubits.Nodup ∧ ∀ q ∈ qubits, q ∉ seen := by
  induction qubits generalizing seen with
  | nil => simp [firstRepeat?]
  | cons q rest ih =>
    simp only [firstRepeat?]
    split
    · rename_i hq
      simp only [reduceCtorEq, false_iff, not_and]
      exact fun _ h => h q List.mem_cons_self hq
    · rename_i hq
      rw [ih, List.nodup_cons]
      constructor
      · rintro ⟨hn, hs⟩
        refine ⟨⟨fun hm => hs q hm List.mem_cons_self, hn⟩, fun p hp => ?_⟩
        rcases List.mem_cons.mp hp with rfl | hp
        · exact hq
        · exact fun hm => hs p hp (List.mem_cons_of_mem _ hm)
      · rintro ⟨⟨hm, hn⟩, hs⟩
        refine ⟨hn, fun p hp hps => ?_⟩
        rcases List.mem_cons.mp hps with rfl | hps
        · exact hm hp
        · exact hs p (List.mem_cons_of_mem _ hp) hps

theorem length_flattenPairs (pairs : List (Qubit × Qubit)) : (flattenPairs pairs).length = 2 * pairs.length := by
  induction pairs with
  | nil => rfl
  | cons p rest ih => simp only [flattenPairs, List.length_cons, ih]; omega

theorem pairs_apart {pairs : List (Qubit × Qubit)} (h : (flattenPairs pairs).Nodup) : ∀ p ∈ pairs, p.1 ≠ p.2 := by
  induction pairs with
  | nil => simp
  | cons p rest ih =>
    simp only [flattenPairs, List.nodup_cons, List.mem_cons, not_or] at h
    exact List.forall_mem_cons.mpr ⟨h.1.1, ih h.2.2⟩

namespace Circuit

/-- The circuit with the instructions at its end. -/
def extendAll (c : Circuit) (is : List Instruction) : Circuit := is.foldl extend c

@[simp] theorem extendAll_nil (c : Circuit) : c.extendAll [] = c := rfl

theorem extendAll_append (c : Circuit) (is js : List Instruction) :
    c.extendAll (is ++ js) = (c.extendAll is).extendAll js := List.foldl_append

@[simp] theorem instructions_extendAll (c : Circuit) (is : List Instruction) :
    (c.extendAll is).instructions = c.instructions ++ is := by
  induction is generalizing c with
  | nil => simp
  | cons i rest ih =>
    rw [extendAll, List.foldl_cons, ← extendAll, ih]
    simp [instructions, extend]

/-- The outcomes that instructions add. -/
def measurementsOf (is : List Instruction) : Nat := (is.map Instruction.measurements).sum

@[simp] theorem measurementsOf_nil : measurementsOf [] = 0 := rfl

@[simp] theorem measurementsOf_cons (i : Instruction) (is : List Instruction) :
    measurementsOf (i :: is) = i.measurements + measurementsOf is := by simp [measurementsOf]

@[simp] theorem measurementsOf_append (is js : List Instruction) :
    measurementsOf (is ++ js) = measurementsOf is + measurementsOf js := by simp [measurementsOf]

theorem numMeasurements_extendAll (c : Circuit) (is : List Instruction) :
    (c.extendAll is).numMeasurements = c.numMeasurements + measurementsOf is := by
  induction is generalizing c with
  | nil => rfl
  | cons i rest ih =>
    rw [extendAll, List.foldl_cons, ← extendAll, ih, measurementsOf_cons]
    simp only [extend]; omega

theorem append_kept {c : Circuit} {i : Instruction} (hk : i.kind ≠ .tick) (h : c.check i = .ok ()) :
    c.append i = .ok (c.extendAll i.kept) := by
  rw [append, if_neg hk, Instruction.kept]
  split
  · rfl
  · rw [h]; rfl

theorem append_targetless (c : Circuit) {i : Instruction} (hk : i.kind ≠ .tick)
    (hempty : (i.qubits.isEmpty && i.records.isEmpty) = true) : c.append i = .ok (c.extendAll i.kept) := by
  rw [append, if_neg hk, if_pos hempty, Instruction.kept, if_pos hempty]
  rfl

theorem append_refused {c : Circuit} {i : Instruction} {e : CircuitError} (hk : i.kind ≠ .tick)
    (hsome : ¬(i.qubits.isEmpty && i.records.isEmpty) = true) (h : c.check i = .error e) :
    c.append i = .error e := by
  rw [append, if_neg hk, if_neg hsome, h]
  rfl

/-- What appending can do: nothing where there are no targets, a tick, or the instruction when it
    is admitted. -/
theorem append_inv {c c' : Circuit} {i : Instruction} (h : c.append i = .ok c') :
    i.qubits = [] ∧ i.records = [] ∧ c' = c ∨
      i.kind = .tick ∧ c' = c.extend .tick ∨
      i.kind ≠ .tick ∧ ¬(i.qubits = [] ∧ i.records = []) ∧ c.check i = .ok () ∧ c' = c.extend i := by
  unfold append at h
  split at h
  · rename_i htick
    cases h
    exact .inr (.inl ⟨htick, rfl⟩)
  · rename_i htick
    simp only [Bool.and_eq_true, List.isEmpty_iff] at h
    split at h
    · rename_i hempty
      cases h
      exact .inl ⟨hempty.1, hempty.2, rfl⟩
    · rename_i hsome
      cases hcheck : c.check i with
      | error e =>
        rw [hcheck] at h
        cases h
      | ok u =>
        rw [hcheck] at h
        cases h
        exact .inr (.inr ⟨htick, hsome, rfl, rfl⟩)

/-- The circuit that appending gives. -/
theorem append_eq_extendAll {c c' : Circuit} {i : Instruction} (h : c.append i = .ok c') : c' = c.extendAll i.added := by
  unfold Instruction.added Instruction.kept
  by_cases htick : i.kind = .tick
  · rw [append, if_pos htick] at h
    rw [if_pos htick]
    exact (Except.ok.inj h).symm
  · rw [if_neg htick]
    rcases append_inv h with ⟨hqubits, hrecords, rfl⟩ | ⟨hkind, -⟩ | ⟨-, hsome, -, rfl⟩
    · rw [hqubits, hrecords]
      rfl
    · exact absurd hkind htick
    · rw [if_neg (by simpa using hsome)]
      rfl

/-! ## What admission asks -/

/-- Admission depends on how much is measured so far, and on nothing else of a circuit. -/
theorem check_congr {c c' : Circuit} (h : c'.numMeasurements = c.numMeasurements) (i : Instruction) :
    c'.check i = c.check i := by
  unfold check
  cases i.kind <;> simp only [checkRecords, h]

theorem checkDistinct_ok {i : Instruction} (h : i.qubits.Nodup) : checkDistinct i = .ok () := by
  have hnone : firstRepeat? i.qubits [] = none := firstRepeat?_eq_none.mpr ⟨h, fun _ _ => List.not_mem_nil⟩
  simp [checkDistinct, hnone]

theorem checkPairs_flattenPairs {i : Instruction} (pairs : List (Qubit × Qubit)) (h : i.qubits = flattenPairs pairs) :
    checkPairs i = .ok () := by
  rw [checkPairs, if_pos]
  rw [h, length_flattenPairs]; omega

theorem checkApart_ok {i : Instruction} (h : ∀ p ∈ i.pairs, p.1 ≠ p.2) : checkApart i = .ok () := by
  unfold checkApart
  rw [List.find?_eq_none.mpr fun p hp => by simpa using h p hp]

theorem checkProbability_ok {p : Binary64} (h : p.isProbability = true) (channel : String) :
    checkProbability channel p = .ok () := by simp [checkProbability, h]

theorem checkRecords_ok {c : Circuit} {i : Instruction}
    (h : ∀ r ∈ i.records, (r.resolve? c.numMeasurements).isSome = true) : c.checkRecords i = .ok () := by
  have hnone : (i.records.find? fun r => (r.resolve? c.numMeasurements).isNone) = none :=
    List.find?_eq_none.mpr fun r hr => by
      have := h r hr
      simpa [Option.isSome_iff_ne_none] using this
  simp [checkRecords, hnone]

/-! ## Refusals -/

theorem bind_ne_error {ε α β : Type} {x : Except ε α} {f : α → Except ε β} {e : ε} (hx : x ≠ .error e)
    (hf : ∀ a, f a ≠ .error e) : (x >>= f) ≠ .error e := by
  cases x with
  | error e' =>
    intro h
    cases h
    exact hx rfl
  | ok a => exact hf a

/-- References that resolve are no reason to refuse an instruction. -/
theorem check_ne_outOfRange {c : Circuit} {i : Instruction}
    (hr : ∀ r ∈ i.records, (r.resolve? c.numMeasurements).isSome = true) (offset : RecordOffset) (n : Nat) :
    c.check i ≠ .error (.recordOutOfRange offset n) := by
  have hdistinct : checkDistinct i ≠ .error (.recordOutOfRange offset n) := by
    unfold checkDistinct
    split <;> simp
  have hpairs : checkPairs i ≠ .error (.recordOutOfRange offset n) := by
    unfold checkPairs
    split <;> simp
  have hapart : checkApart i ≠ .error (.recordOutOfRange offset n) := by
    unfold checkApart
    split <;> simp
  have hprobability : ∀ channel p, checkProbability channel p ≠ .error (.recordOutOfRange offset n) := by
    intro channel p
    unfold checkProbability
    split <;> simp
  unfold check
  split
  · exact hdistinct
  · exact hdistinct
  · exact hdistinct
  · split
    · exact bind_ne_error hpairs fun _ => hdistinct
    · exact hdistinct
  · refine bind_ne_error (hprobability _ _) fun _ => ?_
    split
    · exact bind_ne_error hpairs fun _ => hapart
    · intro h
      cases h
  · rw [checkRecords_ok hr]
    simp
  · rw [checkRecords_ok hr]
    simp
  · simp

theorem append_cases {c : Circuit} {i : Instruction} (hk : i.kind ≠ .tick)
    (hr : ∀ r ∈ i.records, (r.resolve? c.numMeasurements).isSome = true) :
    c.append i = .ok (c.extendAll i.kept) ∨
      ∃ e, c.append i = .error e ∧ ∀ offset n, e ≠ .recordOutOfRange offset n := by
  cases hc : c.check i with
  | ok u => exact .inl (append_kept hk hc)
  | error e =>
    by_cases hempty : (i.qubits.isEmpty && i.records.isEmpty) = true
    · exact .inl (append_targetless c hk hempty)
    · refine .inr ⟨e, append_refused hk hempty hc, ?_⟩
      rintro offset n rfl
      exact check_ne_outOfRange hr offset n hc

/-- Where as much is measured, the same is admitted and refused. -/
theorem append_congr {c c' : Circuit} (h : c'.numMeasurements = c.numMeasurements) {i : Instruction}
    (hk : i.kind ≠ .tick) : (∃ e, c.append i = .error e ∧ c'.append i = .error e) ∨
      (c.append i = .ok (c.extendAll i.kept) ∧ c'.append i = .ok (c'.extendAll i.kept)) := by
  cases hc : c.check i with
  | ok u => exact .inr ⟨append_kept hk hc, append_kept hk ((check_congr h i).trans hc)⟩
  | error e =>
    by_cases hempty : (i.qubits.isEmpty && i.records.isEmpty) = true
    · exact .inr ⟨append_targetless c hk hempty, append_targetless c' hk hempty⟩
    · exact .inl ⟨e, append_refused hk hempty hc, append_refused hk hempty ((check_congr h i).trans hc)⟩

/-! ## What is admitted -/

theorem reset_ok (c : Circuit) {qubits : List Qubit} (h : qubits.Nodup) :
    c.reset qubits = .ok (c.extendAll (Instruction.reset qubits).kept) :=
  append_kept (by simp [Instruction.reset]) (checkDistinct_ok h)

/-- Of what measures, nothing is asked but that no qubit repeats. -/
theorem check_measuring {c : Circuit} {i : Instruction} (hm : i.kind.measures = true) : c.check i = checkDistinct i := by
  cases hk : i.kind with
  | measure => simp only [check, hk]
  | measureReset => simp only [check, hk]
  | _ =>
    rw [hk] at hm
    cases hm

theorem measuring_ok (c : Circuit) {i : Instruction} (hm : i.kind.measures = true) (h : i.qubits.Nodup) :
    c.append i = .ok (c.extendAll i.kept) := by
  refine append_kept (fun htick => ?_) ((check_measuring hm).trans (checkDistinct_ok h))
  rw [htick] at hm
  cases hm

theorem hadamard_ok (c : Circuit) {qubits : List Qubit} (h : qubits.Nodup) :
    c.gate .h qubits = .ok (c.extendAll (Instruction.gate .h qubits).kept) :=
  append_kept (by simp [Instruction.gate]) (checkDistinct_ok h)

theorem cx_ok (c : Circuit) {pairs : List (Qubit × Qubit)} (h : (flattenPairs pairs).Nodup) :
    c.gatePairs .cx pairs = .ok (c.extendAll (Instruction.gate .cx (flattenPairs pairs)).kept) := by
  refine append_kept (by simp [Instruction.gate]) ?_
  simp only [check, Instruction.gate, Gate.arity, if_true]
  rw [checkPairs_flattenPairs pairs rfl, checkDistinct_ok h]
  rfl

theorem depolarize1_ok (c : Circuit) {p : Binary64} (hp : p.isProbability = true) (qubits : List Qubit) :
    c.depolarize1 p qubits = .ok (c.extendAll (Instruction.noise (.depolarize1 p) qubits).kept) := by
  rw [depolarize1, noise, checkProbability_ok (by exact hp)]
  show c.append (.noise (.depolarize1 p) qubits) = _
  refine append_kept (by simp [Instruction.noise]) ?_
  simp only [check, Instruction.noise]
  rw [checkProbability_ok (by exact hp)]
  rfl

theorem depolarize2_ok (c : Circuit) {p : Binary64} (hp : p.isProbability = true) {pairs : List (Qubit × Qubit)}
    (h : ∀ q ∈ pairs, q.1 ≠ q.2) :
    c.depolarize2 p pairs = .ok (c.extendAll (Instruction.noise (.depolarize2 p) (flattenPairs pairs)).kept) := by
  rw [depolarize2, noise, checkProbability_ok (by exact hp)]
  show c.append (.noise (.depolarize2 p) (flattenPairs pairs)) = _
  refine append_kept (by simp [Instruction.noise]) ?_
  simp only [check, Instruction.noise, Channel.arity, if_true]
  rw [checkProbability_ok (by exact hp), checkPairs_flattenPairs pairs rfl,
    checkApart_ok (by simpa [Instruction.pairs, pairUp_flattenPairs] using h)]
  rfl

theorem detector_ok {c : Circuit} {records : List RecordOffset}
    (h : ∀ r ∈ records, (r.resolve? c.numMeasurements).isSome = true) :
    c.detector records = .ok (c.extendAll (Instruction.detector records).kept) :=
  append_kept (by simp [Instruction.detector]) (checkRecords_ok h)

theorem observable_ok {c : Circuit} {records : List RecordOffset} (index : Nat)
    (h : ∀ r ∈ records, (r.resolve? c.numMeasurements).isSome = true) :
    c.observable index records = .ok (c.extendAll (Instruction.observable index records).kept) :=
  append_kept (by simp [Instruction.observable]) (checkRecords_ok h)

end Circuit

end QuantumMemory

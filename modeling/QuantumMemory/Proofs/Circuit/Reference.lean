/-
  QuantumMemory.Proofs.Circuit.Reference — what detectors and observables refer to.

  A reference counts back from the outcomes measured before its instruction, so
  `referencesFrom` carries their number along the stream. A ledger names each outcome by a
  term, the qubit and the round; what a look-up gives refers to the outcome it was asked
  for (`lookup?_spec`), and goes on to do so when the ledger grows (`term?_enter`).
-/

import Mathlib.Algebra.BigOperators.Group.List.Basic
import Mathlib.Algebra.Field.ZMod
import Mathlib.Data.ZMod.Basic
import QuantumMemory.Code.Memory
import QuantumMemory.Proofs.Circuit.Growth

namespace QuantumMemory

/-- Each instruction's kind, and the numbers of the outcomes it refers to; `n` are measured before. -/
def referencesFrom : Nat → List Instruction → List (Instruction.Kind × List (Option Nat))
  | _, [] => []
  | n, i :: rest => (i.kind, i.records.map (·.resolve? n)) :: referencesFrom (n + i.measurements) rest

theorem referencesFrom_append (n : Nat) (is js : List Instruction) :
    referencesFrom n (is ++ js) = referencesFrom n is ++ referencesFrom (n + Circuit.measurementsOf is) js := by
  induction is generalizing n with
  | nil => rfl
  | cons i rest ih => simp [referencesFrom, ih, Nat.add_assoc]

theorem records_of_kept {n : Nat} {i : Instruction} {ref : Instruction.Kind × List (Option Nat)}
    (h : ref ∈ referencesFrom n i.kept) : ref.2 = i.records.map (·.resolve? n) := by
  unfold Instruction.kept at h
  split at h
  · cases h
  · rw [referencesFrom, referencesFrom, List.mem_singleton] at h
    rw [h]

/-- The outcomes of the detectors among the references. -/
def detectorsOf (refs : List (Instruction.Kind × List (Option Nat))) : List (List (Option Nat)) :=
  refs.filterMap fun (kind, outcomes) => if kind = .detector then some outcomes else none

/-- The outcomes of the observables among the references, each with the observable's index. -/
def observablesOf (refs : List (Instruction.Kind × List (Option Nat))) : List (Nat × List (Option Nat)) :=
  refs.filterMap fun (kind, outcomes) => match kind with
    | .observable index => some (index, outcomes)
    | _ => none

/-- The parity of outcomes; a reference to none of them counts as zero. -/
def parity (outcomes : List (ZMod 2)) (refs : List (Option Nat)) : ZMod 2 :=
  (refs.map fun ref => (ref.bind (outcomes[·]?)).getD 0).sum

/-- The qubits that instructions measure, in the order of the outcomes. -/
def measuredBy (is : List Instruction) : List Qubit := is.flatMap fun i => if i.kind.measures then i.qubits else []

theorem measuredBy_append (is js : List Instruction) : measuredBy (is ++ js) = measuredBy is ++ measuredBy js :=
  List.flatMap_append

theorem length_measuredBy (is : List Instruction) : (measuredBy is).length = Circuit.measurementsOf is := by
  induction is with
  | nil => rfl
  | cons i rest ih =>
    rw [measuredBy, List.flatMap_cons, List.length_append, Circuit.measurementsOf_cons, ← ih, ← measuredBy,
      Instruction.measurements]
    split <;> simp

namespace Circuit

/-- The qubits measured, in the order of the outcomes. -/
def measured (c : Circuit) : List Qubit := measuredBy c.instructions

/-- The outcomes of each detector, in the order of the stream. -/
def detectors (c : Circuit) : List (List (Option Nat)) := detectorsOf (referencesFrom 0 c.instructions)

def observables (c : Circuit) : List (Nat × List (Option Nat)) := observablesOf (referencesFrom 0 c.instructions)

end Circuit

/-! ## Terms -/

def Measurement.term (m : Measurement) : Term := (m.qubit, m.round)

theorem Measurement.isOf_iff {m : Measurement} {q : Qubit} {r : Nat} : m.isOf q r = true ↔ m.term = (q, r) := by
  simp [Measurement.isOf, Measurement.term]

namespace Ledger

/-- The ledger with the measurements entered after its own. -/
def enter (l : Ledger) (ms : List Measurement) : Ledger := ⟨ms.reverse ++ l.latestFirst⟩

/-- What was measured, in the order of the outcomes. -/
def terms (l : Ledger) : List Term := l.latestFirst.reverse.map (·.term)

/-- The qubit and round of an outcome, as the records have them. -/
def term? (l : Ledger) (outcome : Nat) : Option Term := (l.records[outcome]?).map (·.1.term)

/-- The references to those of the outcomes that are measured. -/
def offsets (l : Ledger) (terms : List Term) : List RecordOffset := terms.filterMap fun (q, r) => l.lookup? q r

/-- A reference can still count back to the term's outcome. -/
def Reaches (l : Ledger) (t : Term) : Prop := ∃ m ∈ l.latestFirst.take RecordOffset.reach, m.term = t

@[simp] theorem length_enter (l : Ledger) (ms : List Measurement) : (l.enter ms).length = l.length + ms.length := by
  simp [enter, length, Nat.add_comm]

@[simp] theorem terms_enter (l : Ledger) (ms : List Measurement) :
    (l.enter ms).terms = l.terms ++ ms.map (·.term) := by
  simp [enter, terms]

theorem length_terms (l : Ledger) : l.terms.length = l.length := by simp [terms, length]

theorem term?_eq (l : Ledger) (i : Nat) : l.term? i = l.terms[i]? := by
  rw [term?, terms, records, List.getElem?_zipIdx, Option.map_map, List.getElem?_map]
  rfl

theorem term?_enter (l : Ledger) (ms : List Measurement) {i : Nat} {t : Term} (h : l.term? i = some t) :
    (l.enter ms).term? i = some t := by
  rw [term?_eq] at h ⊢
  rw [terms_enter]
  exact List.getElem?_append_left (List.getElem?_eq_some_iff.mp h).1 ▸ h

theorem lookup?_spec {l : Ledger} {q : Qubit} {r : Nat} {offset : RecordOffset} (h : l.lookup? q r = some offset) :
    ∃ i, offset.resolve? l.length = some i ∧ l.term? i = some (q, r) := by
  obtain ⟨later, hl, hb⟩ := Option.bind_eq_some_iff.mp h
  obtain ⟨hlt, hof, -⟩ := List.findIdx?_eq_some_iff_getElem.mp hl
  simp only [RecordOffset.back?, Option.ite_none_right_eq_some, Option.some.injEq] at hb
  obtain ⟨-, rfl⟩ := hb
  refine ⟨l.length - later - 1, if_pos hlt, ?_⟩
  rw [term?_eq, terms, List.getElem?_map]
  have hidx : l.latestFirst.reverse[l.length - later - 1]? = some l.latestFirst[later] := by
    rw [List.getElem?_reverse (by simp only [length]; omega), length,
      show l.latestFirst.length - 1 - (l.latestFirst.length - later - 1) = later by omega]
    exact List.getElem?_eq_getElem hlt
  rw [hidx, Option.map_some, Measurement.isOf_iff.mp hof]

theorem lookup?_of_reaches {l : Ledger} {q : Qubit} {r : Nat} (h : l.Reaches (q, r)) :
    ∃ offset, l.lookup? q r = some offset := by
  obtain ⟨m, hm, ht⟩ := h
  obtain ⟨k, hk, rfl⟩ := List.getElem_of_mem hm
  have hk' := hk
  rw [List.length_take] at hk'
  rw [List.getElem_take] at ht
  have hsome : (l.later? q r).isSome = true := by
    rw [later?, List.findIdx?_isSome, List.any_eq_true]
    exact ⟨_, List.mem_of_mem_take hm, Measurement.isOf_iff.mpr (by rw [List.getElem_take]; exact ht)⟩
  obtain ⟨later, hl⟩ := Option.isSome_iff_exists.mp hsome
  obtain ⟨hlt, -, hmin⟩ := List.findIdx?_eq_some_iff_getElem.mp hl
  have hle : later ≤ k := by
    by_contra hc
    exact hmin k (by omega) (Measurement.isOf_iff.mpr ht)
  exact ⟨_, by rw [lookup?, hl, Option.bind_some, RecordOffset.back?, if_pos (by omega)]⟩

/-- Look-ups that all succeed refer to the terms in their order. -/
theorem offsets_spec {l : Ledger} {terms : List Term} (h : ∀ t ∈ terms, l.Reaches t) :
    (l.offsets terms).length = terms.length ∧
      (∀ o ∈ l.offsets terms, (o.resolve? l.length).isSome = true) ∧
      (l.offsets terms).map (fun o => (o.resolve? l.length).bind l.term?) = terms.map some := by
  induction terms with
  | nil => simp [offsets]
  | cons t rest ih =>
    obtain ⟨q, r⟩ := t
    obtain ⟨offset, ho⟩ := lookup?_of_reaches (h (q, r) List.mem_cons_self)
    obtain ⟨i, hi, ht⟩ := lookup?_spec ho
    obtain ⟨h1, h2, h3⟩ := ih fun t ht => h t (List.mem_cons_of_mem _ ht)
    have hcons : l.offsets ((q, r) :: rest) = offset :: l.offsets rest := by
      simp [offsets, ho]
    rw [hcons]
    refine ⟨by simp [h1], List.forall_mem_cons.mpr ⟨by simp [hi], h2⟩, ?_⟩
    rw [List.map_cons, List.map_cons, h3, hi, Option.bind_some, ht]

end Ledger

end QuantumMemory

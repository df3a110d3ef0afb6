/-
  QuantumMemory.Proofs.Circuit.WellFormed — the instructions that a circuit can come to hold.

  A circuit starts empty and grows by calls in any order; a call that is refused leaves it
  as it was. An instruction is well formed where it stands (`WellFormed`) if its targets are
  those of its kind, its references resolve among the outcomes measured before it, and what
  is asked of pairs, qubits and probabilities holds (`Sound`).

  - `check_spec`: what admission makes sure of.
  - `Call.run_cases`: the one step. A call appends nothing or one instruction, a sound one,
    whose references resolve if it is a detector or an observable; only `append` can bring
    in targets of another kind.
  - `wellFormed_or_foreign`: over every run of calls each instruction is well formed where it
    stands, unless it was passed to `append` with targets not of its kind.
  - `foreign_targets_admitted`: that exception is real. A reset without qubits that refers to
    an outcome is admitted when nothing is measured.
-/

import QuantumMemory.Circuit.Edit
import QuantumMemory.Proofs.Circuit.Growth
import QuantumMemory.Proofs.Number.Value
import QuantumMemory.Proofs.Success

namespace QuantumMemory

/-! ## Well-formed instructions -/

namespace Instruction

namespace Kind

/-- How many qubits it acts on at a time. -/
def arity : Kind → Nat
  | gate g => g.arity
  | noise channel => channel.arity
  | _ => 1

/-- It changes or measures qubits, each at most once. -/
def operates : Kind → Bool
  | reset | gate _ | measure | measureReset => true
  | _ => false

/-- It refers to outcomes. -/
def refers : Kind → Bool
  | detector | observable _ => true
  | _ => false

end Kind

/-- What an instruction has to meet whatever stands before it. -/
structure Sound (i : Instruction) : Prop where
  paired : i.kind.arity = 2 → Even i.qubits.length
  distinct : i.kind.operates = true → i.qubits.Nodup
  apart : ∀ p, i.kind = .noise (.depolarize2 p) → ∀ pair ∈ i.pairs, pair.1 ≠ pair.2
  probable : ∀ channel, i.kind = .noise channel → ∃ v, channel.probability.value? = some v ∧ 0 ≤ v ∧ v ≤ 1

/-- Targets of the instruction's kind and no others: outcomes for detectors and observables, none
    for ticks, qubits for the rest. -/
def OwnTargets (i : Instruction) : Prop :=
  match i.kind with
  | .detector | .observable _ => i.qubits = [] ∧ i.records ≠ []
  | .tick => i.qubits = [] ∧ i.records = []
  | _ => i.qubits ≠ [] ∧ i.records = []

/-- Every reference counts back to one of the outcomes. -/
def Resolved (i : Instruction) (measured : Nat) : Prop :=
  ∀ r ∈ i.records, r < 0 ∧ (r.resolve? measured).isSome = true

structure WellFormed (i : Instruction) (measured : Nat) : Prop extends i.Sound where
  own : i.OwnTargets
  resolved : i.Resolved measured

theorem OwnTargets.records_eq_nil {i : Instruction} (h : i.OwnTargets) (hk : i.kind.refers = false) :
    i.records = [] := by
  unfold OwnTargets at h
  split at h <;> simp_all [Kind.refers]

/-- Targets of its kind are all that a sound instruction can lack. -/
theorem Sound.wellFormed {i : Instruction} {measured : Nat} (h : i.Sound)
    (hr : i.kind.refers = true → i.Resolved measured) (ho : i.OwnTargets) : i.WellFormed measured where
  toSound := h
  own := ho
  resolved := by
    cases hk : i.kind.refers with
    | true => exact hr hk
    | false =>
      intro r hmem
      rw [ho.records_eq_nil hk] at hmem
      cases hmem

end Instruction

namespace Circuit

/-! ## What admission makes sure of -/

theorem neg_of_resolve {r : RecordOffset} {n : Nat} (h : (r.resolve? n).isSome = true) : r < 0 := by
  cases r with
  | ofNat k => cases h
  | negSucc k => exact Int.negSucc_lt_zero k

theorem checkDistinct_spec {i : Instruction} (h : checkDistinct i = .ok ()) : i.qubits.Nodup := by
  unfold checkDistinct at h
  split at h
  · cases h
  · rename_i hnone
    exact (firstRepeat?_eq_none.mp hnone).1

theorem checkPairs_spec {i : Instruction} (h : checkPairs i = .ok ()) : Even i.qubits.length := by
  unfold checkPairs at h
  split at h
  · rename_i heven
    exact Nat.even_iff.mpr heven
  · cases h

theorem checkApart_spec {i : Instruction} (h : checkApart i = .ok ()) : ∀ pair ∈ i.pairs, pair.1 ≠ pair.2 := by
  unfold checkApart at h
  split at h
  · cases h
  · rename_i hnone
    exact fun pair hmem => by simpa using List.find?_eq_none.mp hnone pair hmem

theorem checkProbability_spec {channel : String} {p : Binary64} (h : checkProbability channel p = .ok ()) :
    ∃ v, p.value? = some v ∧ 0 ≤ v ∧ v ≤ 1 := by
  unfold checkProbability at h
  split at h
  · rename_i hp
    exact p.isProbability_iff.mp hp
  · cases h

theorem checkRecords_spec {c : Circuit} {i : Instruction} (h : c.checkRecords i = .ok ()) :
    i.Resolved c.numMeasurements := by
  unfold checkRecords at h
  split at h
  · cases h
  · rename_i hnone
    intro r hmem
    have hsome : (r.resolve? c.numMeasurements).isSome = true := by
      simpa [Option.isSome_iff_ne_none] using List.find?_eq_none.mp hnone r hmem
    exact ⟨neg_of_resolve hsome, hsome⟩

theorem check_spec {c : Circuit} {i : Instruction} (h : c.check i = .ok ()) :
    i.Sound ∧ (i.kind.refers = true → i.Resolved c.numMeasurements) := by
  obtain ⟨kind, qubits, records⟩ := i
  cases kind with
  | reset | measure | measureReset =>
    refine ⟨⟨by simp [Instruction.Kind.arity], fun _ => checkDistinct_spec h, by simp, by simp⟩, ?_⟩
    simp [Instruction.Kind.refers]
  | gate g =>
    have hboth : (g.arity = 2 → Even qubits.length) ∧ qubits.Nodup := by
      simp only [check] at h
      split at h
      · obtain ⟨⟨⟩, hpairs, hdistinct⟩ := exists_of_bind h
        exact ⟨fun _ => checkPairs_spec hpairs, checkDistinct_spec hdistinct⟩
      · rename_i harity
        exact ⟨fun h2 => absurd h2 harity, checkDistinct_spec h⟩
    refine ⟨⟨hboth.1, fun _ => hboth.2, by simp, by simp⟩, ?_⟩
    simp [Instruction.Kind.refers]
  | noise channel =>
    obtain ⟨⟨⟩, hp, hrest⟩ := exists_of_bind h
    have hboth : channel.arity = 2 → Even qubits.length ∧ ∀ pair ∈ pairUp qubits, pair.1 ≠ pair.2 := by
      intro harity
      rw [if_pos harity] at hrest
      obtain ⟨⟨⟩, hpairs, hapart⟩ := exists_of_bind hrest
      exact ⟨checkPairs_spec hpairs, checkApart_spec hapart⟩
    refine ⟨⟨fun harity => (hboth harity).1, by simp [Instruction.Kind.operates], ?_, ?_⟩, ?_⟩
    · rintro p ⟨⟩
      exact (hboth rfl).2
    · rintro _ ⟨⟩
      exact checkProbability_spec hp
    · simp [Instruction.Kind.refers]
  | detector | observable index =>
    refine ⟨⟨by simp [Instruction.Kind.arity], by simp [Instruction.Kind.operates], by simp, by simp⟩, fun _ => ?_⟩
    exact checkRecords_spec h
  | tick =>
    refine ⟨⟨by simp [Instruction.Kind.arity], by simp [Instruction.Kind.operates], by simp, by simp⟩, ?_⟩
    simp [Instruction.Kind.refers]

/-! ## Calls -/

namespace Call

def act (c : Circuit) : Call → Except CircuitError Circuit
  | reset qubits => c.reset qubits
  | gate g qubits => c.gate g qubits
  | gatePairs g pairs => c.gatePairs g pairs
  | depolarize1 p qubits => c.depolarize1 p qubits
  | depolarize2 p pairs => c.depolarize2 p pairs
  | measure qubits => c.measure qubits
  | measureReset qubits => c.measureReset qubits
  | detector records => c.detector records
  | observable index records => c.observable index records
  | tick => .ok c.tick
  | append i => c.append i

/-- A refused call leaves the circuit as it was. -/
def run (c : Circuit) (call : Call) : Circuit :=
  match call.act c with
  | .ok c' => c'
  | .error _ => c

theorem append_of_act {c c' : Circuit} {call : Call} (h : call.act c = .ok c') :
    c.append call.instruction = .ok c' := by
  cases call with
  | depolarize1 p qubits | depolarize2 p pairs =>
    obtain ⟨⟨⟩, -, happend⟩ := exists_of_bind h
    exact happend
  | _ => exact h

/-- Only prebuilt instructions can come with targets of another kind. -/
theorem own_or_append (call : Call) (hsome : ¬(call.instruction.qubits = [] ∧ call.instruction.records = [])) :
    call.instruction.OwnTargets ∨ call = .append call.instruction := by
  rw [not_and] at hsome
  cases call with
  | append i => exact .inr rfl
  | tick => exact absurd rfl (hsome rfl)
  | detector records | observable index records => exact .inl ⟨rfl, hsome rfl⟩
  | _ => exact .inl ⟨fun h => hsome h rfl, rfl⟩

end Call

/-- The circuit that calls make of an empty one. -/
def built (name : String) (calls : List Call) : Circuit := calls.foldl Call.run (empty name)

/-- What can be counted on for an instruction that the calls bring in where `measured` outcomes are
    there before it. -/
structure Admitted (calls : List Call) (measured : Nat) (i : Instruction) : Prop where
  sound : i.Sound
  resolved : i.kind.refers = true → i.Resolved measured
  own : i.OwnTargets ∨ .append i ∈ calls

theorem tick_admitted (calls : List Call) (n : Nat) : Admitted calls n .tick where
  sound := (check_spec (c := empty "") (i := .tick) rfl).1
  resolved h := by cases h
  own := .inl ⟨rfl, rfl⟩

/-- A call brings in nothing or one instruction. -/
theorem Call.run_cases (c : Circuit) {call : Call} {calls : List Call} (hcall : call ∈ calls) :
    call.run c = c ∨ ∃ i, call.run c = c.extend i ∧ Admitted calls c.numMeasurements i := by
  unfold run
  split
  · rename_i c' hact
    rcases append_inv (append_of_act hact) with ⟨-, -, rfl⟩ | ⟨-, rfl⟩ | ⟨-, hsome, hcheck, rfl⟩
    · exact .inl rfl
    · exact .inr ⟨.tick, rfl, tick_admitted calls _⟩
    · obtain ⟨hsound, hresolved⟩ := check_spec hcheck
      refine .inr ⟨call.instruction, rfl, hsound, hresolved, ?_⟩
      rcases own_or_append call hsome with hown | heq
      · exact .inl hown
      · exact .inr (heq ▸ hcall)
  · exact .inl rfl

/-- The circuit counts its outcomes, and each instruction is admitted where it stands. -/
structure Standing (calls : List Call) (c : Circuit) : Prop where
  counted : c.numMeasurements = measurementsOf c.instructions
  admitted : ∀ before i after, c.instructions = before ++ i :: after → Admitted calls (measurementsOf before) i

theorem instructions_extend (c : Circuit) (i : Instruction) : (c.extend i).instructions = c.instructions ++ [i] :=
  List.reverse_cons

theorem Standing.extend {calls : List Call} {c : Circuit} (hc : Standing calls c) {i : Instruction}
    (hi : Admitted calls c.numMeasurements i) : Standing calls (c.extend i) := by
  constructor
  · rw [instructions_extend, measurementsOf_append, ← hc.counted]
    simp [Circuit.extend]
  · intro before j after hsplit
    rw [instructions_extend] at hsplit
    rcases List.eq_nil_or_concat after with rfl | ⟨rest, last, rfl⟩
    · obtain ⟨hbefore, hlast⟩ := List.append_inj' hsplit rfl
      cases hlast
      exact hbefore ▸ hc.counted ▸ hi
    · rw [List.concat_eq_append, ← List.cons_append, ← List.append_assoc] at hsplit
      exact hc.admitted before j rest (List.append_inj' hsplit rfl).1

theorem Standing.run {calls : List Call} {c : Circuit} (hc : Standing calls c) {call : Call} (hcall : call ∈ calls) :
    Standing calls (call.run c) := by
  rcases Call.run_cases c hcall with hsame | ⟨i, hext, hi⟩
  · rwa [hsame]
  · rw [hext]
    exact hc.extend hi

theorem built_standing (name : String) (calls : List Call) : Standing calls (built name calls) := by
  have hempty : Standing calls (empty name) := by
    refine ⟨rfl, ?_⟩
    intro before i after hsplit
    exact absurd hsplit.symm (by simp [empty, instructions])
  exact List.foldlRecOn calls _ hempty fun _ hc _ hcall => hc.run hcall

/-- After any calls each instruction is sound where it stands, its references resolve if its kind refers
    to outcomes, and it is well formed unless it came prebuilt with targets not of its kind. -/
theorem wellFormed_or_foreign (name : String) (calls : List Call) (before after : List Instruction) (i : Instruction)
    (hsplit : (built name calls).instructions = before ++ i :: after) :
    i.Sound ∧ (i.kind.refers = true → i.Resolved (measurementsOf before)) ∧
      (i.WellFormed (measurementsOf before) ∨ .append i ∈ calls ∧ ¬ i.OwnTargets) := by
  obtain ⟨hsound, hresolved, hown⟩ := (built_standing name calls).admitted before i after hsplit
  refine ⟨hsound, hresolved, ?_⟩
  by_cases ho : i.OwnTargets
  · exact .inl (hsound.wellFormed hresolved ho)
  · exact .inr ⟨hown.resolve_left ho, ho⟩

/-- Two outcomes of a pair and a detector on them. -/
theorem wellFormed_or_foreign_detector :
    (built "pair" [.measureReset [0, 1], .detector [-1, -2]]).instructions =
        [.measureReset [0, 1]] ++ .detector [-1, -2] :: [] ∧
      (Instruction.detector [-1, -2]).WellFormed (measurementsOf [.measureReset [0, 1]]) := by
  refine ⟨rfl, ?_⟩
  obtain ⟨-, -, hwell | ⟨happend, -⟩⟩ :=
    wellFormed_or_foreign "pair" [.measureReset [0, 1], .detector [-1, -2]] [.measureReset [0, 1]] []
      (.detector [-1, -2]) rfl
  · exact hwell
  · simp at happend

/-- Not every circuit is made of well-formed instructions. -/
theorem foreign_targets_admitted : ¬ ∀ (name : String) (calls : List Call) (before after : List Instruction)
    (i : Instruction), (built name calls).instructions = before ++ i :: after →
      i.WellFormed (measurementsOf before) := by
  intro hall
  have hwell := hall "" [.append ⟨.reset, [], [-1]⟩] [] [] ⟨.reset, [], [-1]⟩ rfl
  exact hwell.own.1 rfl

end Circuit

end QuantumMemory

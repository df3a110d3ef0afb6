/-
  QuantumMemory.Proofs.Circuit.Replay — instructions of a circuit appended to another one.

  What admission asks of an instruction does not get harder as more is measured: only
  references look at the circuit, and they count back from its end (`check_mono`). So an
  instruction that was admitted once is admitted wherever as much is measured before it
  (`Admits`), and what calls build is a stream of such instructions (`Playable`), which can
  be played after any other.

  Main result: `replay_composes`. Playing a circuit's instructions after another circuit
  succeeds and adds the two up, every reference moves by what is measured first, and
  an instruction that measures nothing can be put in anywhere.
-/

import QuantumMemory.Proofs.Circuit.Counters

namespace QuantumMemory

/-- More outcomes before those counted back over move the one referred to by as many. -/
theorem RecordOffset.resolve?_add {r : RecordOffset} {n k : Nat} (h : r.resolve? n = some k) (m : Nat) :
    r.resolve? (m + n) = some (k + m) := by
  cases r with
  | ofNat j => cases h
  | negSucc later =>
    obtain ⟨hlt, hk⟩ := Option.ite_none_right_eq_some.mp h
    have hk' : n - later - 1 = k := Option.some.inj hk
    have hlt' : later < m + n := by omega
    show (if later < m + n then some (m + n - later - 1) else none) = some (k + m)
    rw [if_pos hlt']
    congr 1
    omega

namespace Circuit

/-! ## Admission -/

/-- What is admitted is admitted when more is measured. -/
theorem check_mono {c c' : Circuit} (h : c.numMeasurements ≤ c'.numMeasurements) {i : Instruction}
    (hcheck : c.check i = .ok ()) : c'.check i = .ok () := by
  have hrecords : c.checkRecords i = .ok () → c'.checkRecords i = .ok () := by
    intro hok
    apply checkRecords_ok
    intro r hmem
    obtain ⟨k, hk⟩ := Option.isSome_iff_exists.mp (checkRecords_spec hok r hmem).2
    have hmore : c'.numMeasurements - c.numMeasurements + c.numMeasurements = c'.numMeasurements := Nat.sub_add_cancel h
    rw [← hmore, RecordOffset.resolve?_add hk]
    rfl
  obtain ⟨kind, qubits, records⟩ := i
  cases kind with
  | detector | observable index => exact hrecords hcheck
  | _ => exact hcheck

/-- The instruction is appended as it is wherever that many outcomes are measured before it. -/
def Admits (measured : Nat) (i : Instruction) : Prop :=
  ∀ c : Circuit, measured ≤ c.numMeasurements → c.append i = .ok (c.extend i)

theorem Admits.mono {n m : Nat} {i : Instruction} (h : Admits n i) (hle : n ≤ m) : Admits m i :=
  fun c hc => h c (hle.trans hc)

theorem admits_tick (n : Nat) : Admits n .tick := fun _ _ => rfl

theorem admits_of_check {c : Circuit} {i : Instruction} (hkind : i.kind ≠ .tick) (hkept : i.kept = [i])
    (hcheck : c.check i = .ok ()) : Admits c.numMeasurements i := by
  intro d hle
  rw [append_kept hkind (check_mono hle hcheck), hkept]
  rfl

/-! ## Streams -/

/-- Each instruction is admitted where it stands, and wherever as much is measured before it. -/
def Playable : (measured : Nat) → List Instruction → Prop
  | _, [] => True
  | n, i :: rest => Admits n i ∧ Playable (n + i.measurements) rest

theorem Playable.mono {n m : Nat} {is : List Instruction} (h : Playable n is) (hle : n ≤ m) : Playable m is := by
  induction is generalizing n m with
  | nil => trivial
  | cons i rest ih => exact ⟨h.1.mono hle, ih h.2 (Nat.add_le_add_right hle _)⟩

theorem playable_append {n : Nat} {is js : List Instruction} :
    Playable n (is ++ js) ↔ Playable n is ∧ Playable (n + measurementsOf is) js := by
  induction is generalizing n with
  | nil => simp [Playable]
  | cons i rest ih =>
    show Admits n i ∧ Playable (n + i.measurements) (rest ++ js) ↔ _
    rw [ih, measurementsOf_cons, ← Nat.add_assoc, ← and_assoc]
    rfl

/-- What appending adds could have been added wherever as much is measured. -/
theorem playable_added {c c' : Circuit} {i : Instruction} (h : c.append i = .ok c') :
    Playable c.numMeasurements i.added := by
  unfold Instruction.added
  by_cases htick : i.kind = .tick
  · rw [if_pos htick]
    exact ⟨admits_tick _, trivial⟩
  · rw [if_neg htick]
    rcases append_inv h with ⟨hqubits, hrecords, -⟩ | ⟨hkind, -⟩ | ⟨hkind, hsome, hcheck, -⟩
    · rw [Instruction.kept, hqubits, hrecords]
      trivial
    · exact absurd hkind htick
    · have hkept : i.kept = [i] := if_neg (by simpa using hsome)
      rw [hkept]
      exact ⟨admits_of_check hkind hkept hcheck, trivial⟩

/-- Appends instructions one after the other, as long as they are admitted. -/
def replay (c : Circuit) (is : List Instruction) : Except CircuitError Circuit := is.foldlM append c

theorem replay_append (c : Circuit) (is js : List Instruction) :
    c.replay (is ++ js) = c.replay is >>= fun c' => c'.replay js := List.foldlM_append

theorem replay_playable {c : Circuit} {is : List Instruction} (h : Playable c.numMeasurements is) :
    c.replay is = .ok (c.extendAll is) := by
  induction is generalizing c with
  | nil => rfl
  | cons i rest ih =>
    obtain ⟨hi, hrest⟩ := h
    show (c.append i >>= fun c' => c'.replay rest) = _
    rw [hi c (Nat.le_refl _)]
    exact ih hrest

/-- The circuit is what its own stream makes of an empty one, and the stream can be played. -/
structure Replays (name : String) (c : Circuit) : Prop where
  made : c = (empty name).extendAll c.instructions
  playable : Playable 0 c.instructions

theorem replays_empty (name : String) : Replays name (empty name) := ⟨rfl, trivial⟩

theorem Replays.numMeasurements {name : String} {c : Circuit} (h : Replays name c) :
    c.numMeasurements = measurementsOf c.instructions := by
  rw [h.made, numMeasurements_extendAll, instructions_extendAll]
  exact Nat.zero_add _

theorem Replays.append {name : String} {c c' : Circuit} (h : Replays name c) {i : Instruction}
    (happend : c.append i = .ok c') : Replays name c' := by
  obtain rfl := append_eq_extendAll happend
  constructor
  · rw [instructions_extendAll, extendAll_append, ← h.made]
  · rw [instructions_extendAll, playable_append, Nat.zero_add, ← h.numMeasurements]
    exact ⟨h.playable, playable_added happend⟩

theorem Replays.run {name : String} {c : Circuit} (h : Replays name c) (call : Call) : Replays name (call.run c) := by
  unfold Call.run
  split
  · rename_i c' hact
    exact h.append (Call.append_of_act hact)
  · exact h

theorem replays_built (name : String) (calls : List Call) : Replays name (built name calls) :=
  List.foldlRecOn calls _ (replays_empty name) fun _ h call _ => h.run call

theorem Replays.counted {name : String} {c : Circuit} (h : Replays name c) : c.Counted := by
  rw [h.made]
  exact (counted_empty name).extendAll _

/-! ## One circuit after another -/

/-- `c` is what `c₁` and `c₂` after it add up to. -/
structure Joined (c₁ c₂ c : Circuit) : Prop where
  name : c.name = c₁.name
  instructions : c.instructions = c₁.instructions ++ c₂.instructions
  measurements : c.numMeasurements = c₁.numMeasurements + c₂.numMeasurements
  detectors : c.numDetectors = c₁.numDetectors + c₂.numDetectors
  qubits : c.numQubits = max c₁.numQubits c₂.numQubits
  observables : c.numObservables = max c₁.numObservables c₂.numObservables

theorem name_extendAll (c : Circuit) (is : List Instruction) : (c.extendAll is).name = c.name := by
  induction is generalizing c with
  | nil => rfl
  | cons i rest ih => exact ih (c.extend i)

/-- The counters of a stream are those of its parts. -/
theorem Counted.joined {c₁ c₂ : Circuit} (h₁ : c₁.Counted) (h₂ : c₂.Counted) :
    Joined c₁ c₂ (c₁.extendAll c₂.instructions) := by
  have h := h₁.extendAll c₂.instructions
  have hstream := instructions_extendAll c₁ c₂.instructions
  refine ⟨name_extendAll _ _, hstream, ?_, ?_, ?_, ?_⟩
  · rw [h.measurements, measured_extendAll, List.length_append, h₁.measurements, h₂.measurements]
    rfl
  · rw [h.detectors, hstream, List.countP_append, h₁.detectors, h₂.detectors]
  · rw [h.qubits, hstream, List.flatMap_append, onePast_append, h₁.qubits, h₂.qubits]
  · rw [h.observables, hstream, List.filterMap_append, onePast_append, h₁.observables, h₂.observables]

/-- Every reference of a detector or an observable has an outcome, and an outcome referred to in `c₂`
    is referred to behind `c₁` with what `c₁` measures before it. -/
theorem references_moved {name₁ name₂ : String} {c₁ c₂ : Circuit} (h₁ : Replays name₁ c₁) {calls₂ : List Call}
    (h₂ : c₂ = built name₂ calls₂) {before after : List Instruction} {i : Instruction}
    (hsplit : c₂.instructions = before ++ i :: after) :
    (i.kind.refers = true → ∀ r ∈ i.records, (r.resolve? (measurementsOf before)).isSome = true) ∧
      ∀ r ∈ i.records, ∀ k, r.resolve? (measurementsOf before) = some k →
        r.resolve? (measurementsOf (c₁.instructions ++ before)) = some (k + c₁.numMeasurements) := by
  subst h₂
  constructor
  · intro hrefers r hmem
    exact (((built_standing name₂ calls₂).admitted before i after hsplit).resolved hrefers r hmem).2
  · intro r _ k hk
    rw [measurementsOf_append, ← h₁.numMeasurements]
    exact RecordOffset.resolve?_add hk _

/-! ## Putting an instruction in -/

/-- `d` is `c` with `i` put in between `before` and `after`. The references after it keep their
    outcomes, and the same instructions can be appended. -/
structure Inserted (c : Circuit) (before : List Instruction) (i : Instruction) (after : List Instruction)
    (d : Circuit) : Prop where
  instructions : d.instructions = before ++ i.added ++ after
  references : ∀ mid j rest, after = mid ++ j :: rest → ∀ r ∈ j.records,
    r.resolve? (measurementsOf (before ++ i.added ++ mid)) = r.resolve? (measurementsOf (before ++ mid))
  admits : ∀ j, (d.append j).isOk = (c.append j).isOk

theorem isOk_append_congr {c d : Circuit} (h : d.numMeasurements = c.numMeasurements) (j : Instruction) :
    (d.append j).isOk = (c.append j).isOk := by
  by_cases htick : j.kind = .tick
  · rw [append, append, if_pos htick, if_pos htick]
    rfl
  · rcases append_congr h htick with ⟨e, hc, hd⟩ | ⟨hc, hd⟩
    · rw [hc, hd]
    · rw [hc, hd]
      rfl

theorem Replays.insert {name : String} {c c' : Circuit} (h : Replays name c) {before after : List Instruction}
    (hsplit : c.instructions = before ++ after) {i : Instruction} (hnone : i.measurements = 0)
    (hvalid : (empty name).replay (before ++ [i]) = .ok c') :
    ∃ d, (empty name).replay (before ++ i :: after) = .ok d ∧ Inserted c before i after d := by
  have hplayable := h.playable
  rw [hsplit, playable_append, Nat.zero_add] at hplayable
  have hbefore : (empty name).replay before = .ok ((empty name).extendAll before) := replay_playable hplayable.1
  have hmeasured : ((empty name).extendAll before).numMeasurements = measurementsOf before := by
    rw [numMeasurements_extendAll]
    exact Nat.zero_add _
  have happend : ((empty name).extendAll before).append i = .ok c' := by
    rw [replay_append, hbefore] at hvalid
    obtain ⟨d, hd, hdone⟩ := exists_of_bind (show (_ >>= fun d => Except.ok d) = _ from hvalid)
    exact hdone ▸ hd
  -- What comes after `i` finds as much measured as without it.
  have hsame : c'.numMeasurements = measurementsOf before := by
    rw [numMeasurements_append happend, hmeasured, hnone, Nat.add_zero]
  have hafter : c'.replay after = .ok (c'.extendAll after) := by
    apply replay_playable
    rw [hsame]
    exact hplayable.2
  refine ⟨c'.extendAll after, ?_, ?_, ?_, ?_⟩
  · rw [replay_append, hbefore]
    show (((empty name).extendAll before).append i >>= fun d => d.replay after) = _
    rw [happend]
    exact hafter
  · rw [instructions_extendAll, append_eq_extendAll happend, instructions_extendAll, instructions_extendAll]
    rfl
  · intro mid j rest _ r _
    rw [measurementsOf_append, measurementsOf_append, measurementsOf_added, hnone, Nat.add_zero, measurementsOf_append]
  · apply isOk_append_congr
    rw [numMeasurements_extendAll, hsame, ← measurementsOf_append, ← hsplit, h.numMeasurements]

/-- Circuits compose: the instructions of one are admitted behind any other, in the same order, and the
    two add up; references move by what the first one measures. Behind an empty circuit they
    make the circuit itself, with room anywhere for instructions that measure nothing. -/
theorem replay_composes (name₁ name₂ : String) (calls₁ calls₂ : List Call) :
    (∃ c, (built name₁ calls₁).replay (built name₂ calls₂).instructions = .ok c ∧
      Joined (built name₁ calls₁) (built name₂ calls₂) c) ∧
    (∀ before i after, (built name₂ calls₂).instructions = before ++ i :: after →
      (i.kind.refers = true → ∀ r ∈ i.records, (r.resolve? (measurementsOf before)).isSome = true) ∧
      ∀ r ∈ i.records, ∀ k, r.resolve? (measurementsOf before) = some k →
        r.resolve? (measurementsOf ((built name₁ calls₁).instructions ++ before)) =
          some (k + (built name₁ calls₁).numMeasurements)) ∧
    (empty name₂).replay (built name₂ calls₂).instructions = .ok (built name₂ calls₂) ∧
    (∀ before after i, (built name₂ calls₂).instructions = before ++ after → i.measurements = 0 →
      (∃ c, (empty name₂).replay (before ++ [i]) = .ok c) →
      ∃ d, (empty name₂).replay (before ++ i :: after) = .ok d ∧ Inserted (built name₂ calls₂) before i after d) := by
  have h₁ := replays_built name₁ calls₁
  have h₂ := replays_built name₂ calls₂
  refine ⟨⟨_, replay_playable (h₂.playable.mono (Nat.zero_le _)), h₁.counted.joined h₂.counted⟩, ?_, ?_, ?_⟩
  · intro before i after hsplit
    exact references_moved h₁ rfl hsplit
  · rw [replay_playable (c := empty name₂) h₂.playable, ← h₂.made]
  · rintro before after i hsplit hnone ⟨c, hvalid⟩
    exact h₂.insert hsplit hnone hvalid

end Circuit

end QuantumMemory

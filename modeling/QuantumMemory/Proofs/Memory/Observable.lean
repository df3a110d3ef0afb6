/-
  QuantumMemory.Proofs.Memory.Observable — the observable of a memory that was built.

  Before the read-out no phase lets an observable in (`Following.unobserved`), and of the read-out only
  the last action declares one (`Closing`). It is refused unless every logical qubit has an
  outcome. So what is built has one observable, which lists the outcomes of the logical qubits one
  by one, as often as they are listed themselves.

  Main result: `Layout.buildMemory_observables`, which asks nothing of the layout, nor of its size.
-/

import QuantumMemory.Proofs.Memory.Phases

namespace QuantumMemory

namespace Ledger

/-- The number of a term's outcome, if a reference reaches it. -/
def outcome? (l : Ledger) (t : Term) : Option Nat := (l.lookup? t.1 t.2).bind (·.resolve? l.length)

theorem outcome?_spec {l : Ledger} {t : Term} (h : (l.lookup? t.1 t.2).isSome = true) :
    ∃ i, l.outcome? t = some i ∧ l.term? i = some t := by
  obtain ⟨offset, ho⟩ := Option.isSome_iff_exists.mp h
  obtain ⟨i, hi, ht⟩ := lookup?_spec ho
  exact ⟨i, by rw [outcome?, ho, Option.bind_some, hi], ht⟩

/-- If no look-up fails, the references are to the outcomes of the terms one by one. -/
theorem resolve_offsets {l : Ledger} {ts : List Term} (h : (l.offsets ts).length = ts.length) :
    (l.offsets ts).map (·.resolve? l.length) = ts.map l.outcome? ∧ ∀ t ∈ ts, (l.outcome? t).bind l.term? = some t := by
  have hall : ∀ t ∈ ts, (l.lookup? t.1 t.2).isSome = true := List.filterMap_length_eq_length.mp h
  refine ⟨?_, fun t ht => ?_⟩
  · rw [offsets, List.map_filterMap]
    refine List.filterMap_eq_map_iff_forall_eq_some.mpr fun t ht => ?_
    obtain ⟨offset, ho⟩ := Option.isSome_iff_exists.mp (hall t ht)
    show (l.lookup? t.1 t.2).map (·.resolve? l.length) = some (l.outcome? t)
    rw [outcome?, ho, Option.map_some, Option.bind_some]
  · obtain ⟨i, hi, hterm⟩ := outcome?_spec (hall t ht)
    rw [hi, Option.bind_some, hterm]

theorem read_outcomes {l : Ledger} {ts : List Term} (h : ∀ t ∈ ts, (l.outcome? t).bind l.term? = some t) :
    l.read (ts.map l.outcome?) = ts.map some := by
  rw [read, List.map_map]
  exact List.map_congr_left h

/-- Outcomes that are read as their terms are as different as these. -/
theorem nodup_outcomes {l : Ledger} {ts : List Term} (h : ∀ t ∈ ts, (l.outcome? t).bind l.term? = some t) :
    (ts.map l.outcome?).Nodup ↔ ts.Nodup := by
  refine ⟨List.Nodup.of_map _, fun hnodup => hnodup.map_on fun t ht t' ht' hsame => ?_⟩
  have hterm := h t ht
  rw [hsame, h t' ht'] at hterm
  exact (Option.some.inj hterm).symm

end Ledger

namespace Memory

variable {α β γ : Type} {I : Memory → Prop}

/-! ## Kept by actions -/

/-- Whether it fails or not, the action keeps the invariant. -/
def Keeps (I : Memory → Prop) (x : Build α) : Prop := ∀ m, I m → I (m.perform x).2

theorem keeps_bind {x : Build α} {f : α → Build β} (hx : Keeps I x) (hf : ∀ a, Keeps I (f a)) : Keeps I (x >>= f) := by
  intro m hm
  have hfirst := hx m hm
  rw [perform_bind_eq]
  cases hdone : m.perform x with
  | mk r m' =>
    rw [hdone] at hfirst
    cases r with
    | error e => exact hfirst
    | ok a => exact hf a m' hfirst

theorem keeps_forM {xs : List γ} {f : γ → Build PUnit} (h : ∀ x ∈ xs, Keeps I (f x)) : Keeps I (xs.forM f) := by
  induction xs with
  | nil => exact fun m hm => hm
  | cons x rest ih =>
    obtain ⟨hx, hrest⟩ := List.forall_mem_cons.mp h
    exact keeps_bind hx fun _ => ih hrest

theorem keeps_pure (a : α) : Keeps I (pure a : Build α) := fun _ hm => hm

theorem keeps_discard {x : Build α} (hx : Keeps I x) : Keeps I (discard x : Build PUnit) := by
  rw [discard_eq]
  exact keeps_bind hx fun _ => keeps_pure _

/-- In a run that succeeds the first action does, and leaves to the rest what it makes of the memory. -/
theorem perform_bind_ok {m : Memory} {x : Build α} {f : α → Build β} {b : β} (h : (m.perform (x >>= f)).1 = .ok b) :
    ∃ a, (m.perform x).1 = .ok a ∧ m.perform (x >>= f) = (m.perform x).2.perform (f a) := by
  rw [perform_bind_eq] at h ⊢
  cases hdone : m.perform x with
  | mk r m' =>
    rw [hdone] at h
    cases r with
    | error e => cases h
    | ok a => exact ⟨a, rfl, rfl⟩

/-! ## Before the read-out -/

theorem keeps_call (call : Call) : Keeps Following call.action := fun _ h => h.call call

def Unobserved (m : Memory) : Prop := ∀ i ∈ m.circuit.instructions, i.kind.isObservable = false

/-- Observables are let in by the last phase only. -/
theorem Following.unobserved {m : Memory} (h : m.Following) (hphase : m.phase = .rounds) : m.Unobserved := by
  intro i hi
  obtain ⟨k, hk⟩ := List.mem_iff_getElem?.mp hi
  obtain ⟨phase, hallow, hrank⟩ := h.paced.allowed hk
  by_contra hobservable
  rw [Phase.rank_observable (by simpa using hobservable) hallow, hphase] at hrank
  exact absurd hrank (by decide)

/-! ## During the read-out -/

theorem Unobserved.emit {m : Memory} (h : m.Unobserved) {is : List Instruction}
    (his : ∀ i ∈ is, i.kind.isObservable = false) : (m.emit is).Unobserved := by
  intro i hi
  rw [emit_circuit, Circuit.instructions_extendAll] at hi
  exact (List.mem_append.mp hi).elim (h i) (his i)

theorem unobserved_grow {f : Circuit → Except CircuitError Circuit} {i : Instruction}
    (hf : ∀ c c', f c = .ok c' → c' = c.extendAll i.added) (hi : i.kind.isObservable = false) :
    Keeps Unobserved (Build.grow f) := by
  intro m hm
  cases hgrown : f m.circuit with
  | error e =>
    rw [perform_grow_error hgrown]
    exact hm
  | ok c =>
    rw [perform_grow (hf _ _ hgrown ▸ hgrown)]
    exact hm.emit fun i' hi' => by rw [Instruction.kind_of_mem_added hi', hi]

theorem unobserved_depolarize1 (qubits : List Qubit) : Keeps Unobserved (Build.depolarize1 qubits) := by
  intro m hm
  rw [Build.depolarize1, perform_bind (perform_get m)]
  split
  · refine unobserved_grow (i := .noise (.depolarize1 m.p1) qubits) (fun c c' h => ?_) rfl m hm
    obtain ⟨-, -, happend⟩ := exists_of_bind h
    exact Circuit.append_eq_extendAll happend
  · exact hm

theorem unobserved_require (operation : String) (phases : List Phase) :
    Keeps Unobserved (Build.require operation phases) := by
  intro m hm
  by_cases hphase : m.phase ∈ phases
  · rwa [perform_require hphase]
  · rwa [perform_require_error hphase]

theorem unobserved_measuring (operation : String) (phase : Phase) {instruction : Instruction.Kind}
    (hm : instruction.measures = true) (qubits : List Qubit) (round : Nat) (kind : MeasurementKind) :
    Keeps Unobserved (Build.measuring operation phase instruction qubits round kind) := by
  intro m h
  rcases perform_measuring_cases m operation phase hm qubits round kind with ⟨e, -, hrefused⟩ | hdone
  · exact hrefused ▸ h
  · refine hdone ▸ h.emit fun i hi => ?_
    rw [Instruction.eq_of_mem_kept hi]
    cases instruction with
    | measure | measureReset => rfl
    | _ => cases hm

theorem unobserved_detector (terms : List Term) : Keeps Unobserved (Build.detector terms) := by
  refine keeps_bind (unobserved_require _ _) fun _ m hm => ?_
  rw [perform_bind (perform_get m)]
  split
  · exact hm
  · exact keeps_bind (unobserved_grow (fun _ _ h => Circuit.append_eq_extendAll h) rfl) (fun _ => keeps_pure true) m hm

theorem unobserved_appendDetector (l : Layout) (check : Qubit) (terms : List Term) :
    Keeps Unobserved (l.appendDetector check terms) := by
  unfold Layout.appendDetector
  split
  · exact fun m hm => hm
  · exact keeps_discard (unobserved_detector terms)

/-- The read-out before its observable. -/
structure Closing (m : Memory) : Prop where
  synced : m.Synced
  phase : m.phase = .finalizing
  unobserved : m.Unobserved

theorem keeps_closing {asked : List (List Term)} {x : Build α} (hcareful : Careful asked x)
    (hsteady : Steady (fun _ => True) x) (hunobserved : Keeps Unobserved x) : Keeps Closing x := fun m h =>
  ⟨h.synced.extends (hcareful m h.synced).1, (hsteady m trivial).phase.trans h.phase, hunobserved m h.unobserved⟩

/-- The observable of the action that ends the read-out, in the memory that it leaves. -/
theorem Closing.observable {m : Memory} (h : m.Closing) {index : Nat} {terms : List Term} (hterms : terms ≠ [])
    (hok : (m.perform (Build.observable index terms)).1 = .ok ()) :
    (m.perform (Build.observable index terms)).2.circuit.observables = [(index, terms.map m.ledger.outcome?)] ∧
    (m.perform (Build.observable index terms)).2.ledger = m.ledger ∧
    ∀ t ∈ terms, (m.ledger.outcome? t).bind m.ledger.term? = some t := by
  rw [Build.observable, perform_bind (perform_require (by simp [h.phase]) _), perform_bind (perform_get m)] at hok ⊢
  dsimp only at hok ⊢
  by_cases hlen : (m.resolve terms).length = terms.length
  · obtain ⟨hrefs, hread⟩ := Ledger.resolve_offsets (l := m.ledger) hlen
    rw [if_pos hlen, perform_grow (Circuit.observable_ok index (h.synced.lockstep.resolves terms))]
    have hne : m.ledger.offsets terms ≠ [] := fun he => by
      rw [resolve_eq, he] at hlen
      exact hterms (List.length_eq_zero_iff.mp hlen.symm)
    have hcount : 0 + Circuit.measurementsOf m.circuit.instructions = m.ledger.length := by
      rw [Nat.zero_add, ← h.synced.counted, ← h.synced.lockstep]
    refine ⟨?_, rfl, hread⟩
    rw [Circuit.observables, emit_circuit, Circuit.instructions_extendAll, referencesFrom_append, observablesOf_append,
      observables_unobserved h.unobserved, hcount, ← hrefs, Layout.kept_observable index hne]
    rfl
  · rw [if_neg hlen] at hok
    cases hok

/-- A memory of which the rounds are ended has followed its phases and begins its read-out. -/
theorem Following.closing {m : Memory} (h : m.Following) (hok : (m.perform Build.beginFinalize).1 = .ok ()) :
    (m.perform Build.beginFinalize).2.Closing := by
  have hphase : m.phase = .rounds := by
    by_contra hother
    rw [Build.beginFinalize, perform_bind_eq, perform_require_error (by simpa using hother)] at hok
    cases hok
  rw [perform_beginFinalize hphase]
  exact ⟨⟨h.synced.counted, h.synced.qubits⟩, rfl, h.unobserved hphase⟩

end Memory

namespace Layout

open Memory

variable {l : Layout}

theorem keeps_appendRounds (l : Layout) (rounds : Nat) : Keeps Following ((List.range rounds).forM l.appendRound) :=
  keeps_forM fun round _ => keeps_call (.appendRound l round)

theorem keeps_closing_depolarize1 (qubits : List Qubit) : Keeps Closing (Build.depolarize1 qubits) :=
  keeps_closing (careful_depolarize1 qubits : Careful [] _) (steady_depolarize1 _) (unobserved_depolarize1 _)

theorem keeps_closing_measure (qubits : List Qubit) (round : Nat) (kind : MeasurementKind) :
    Keeps Closing (Build.measure qubits round kind) :=
  keeps_closing (careful_measuring _ _ rfl qubits round kind : Careful [] _) (steady_measuring _ rfl _ _ _)
    (unobserved_measuring _ _ rfl _ _ _)

theorem keeps_closing_appendDetector (check : Qubit) (terms : List Term) :
    Keeps Closing (l.appendDetector check terms) :=
  keeps_closing (careful_appendDetector l check fun _ => List.mem_singleton_self terms)
    (steady_appendDetector l check terms) (unobserved_appendDetector l check terms)

theorem keeps_closing_appendDetectors (l : Layout) (checks : List Qubit) (terms : Qubit → List Term) :
    Keeps Closing (checks.forM fun check => l.appendDetector check (terms check)) :=
  keeps_forM fun check _ => keeps_closing_appendDetector check (terms check)

/-- A read-out that succeeds leaves the observable of the logical qubits and no other. -/
theorem appendReadout_observable {m : Memory} (hm : m.Following) {rounds : Nat} {logical : List Qubit}
    (hlogical : logical ≠ []) (hok : (m.perform (l.appendReadout rounds logical)).1 = .ok ()) :
    (m.perform (l.appendReadout rounds logical)).2.circuit.observables =
        [(0, (logical.map (·, rounds)).map (m.perform (l.appendReadout rounds logical)).2.ledger.outcome?)] ∧
      ∀ t ∈ logical.map (·, rounds), ((m.perform (l.appendReadout rounds logical)).2.ledger.outcome? t).bind
        (m.perform (l.appendReadout rounds logical)).2.ledger.term? = some t := by
  unfold appendReadout at hok ⊢
  obtain ⟨⟨⟩, hbegun, hrest⟩ := perform_bind_ok hok
  rw [hrest] at hok ⊢
  have hclosing := hm.closing hbegun
  obtain ⟨⟨⟩, -, hrest⟩ := perform_bind_ok hok
  rw [hrest] at hok ⊢
  replace hclosing := keeps_closing_depolarize1 l.data _ hclosing
  obtain ⟨⟨⟩, -, hrest⟩ := perform_bind_ok hok
  rw [hrest] at hok ⊢
  replace hclosing := keeps_closing_measure l.data rounds .data _ hclosing
  obtain ⟨⟨⟩, -, hrest⟩ := perform_bind_ok hok
  rw [hrest] at hok ⊢
  replace hclosing := keeps_closing_appendDetectors l (l.checks .z)
    (fun check => (l.support check).map (·, rounds) ++ [(check, rounds - 1)]) _ hclosing
  obtain ⟨hobservables, hledger, hread⟩ := hclosing.observable (by simpa using hlogical) hok
  rw [hledger]
  exact ⟨hobservables, hread⟩

/-- The observable of a memory that was built lists the outcomes of the logical qubits after the
    rounds, in their order. So it lists none twice just if no qubit is. -/
theorem buildMemory_observables {name : String} {params : CodeParams} {rounds : Nat} {logical : List Qubit}
    {e : Experiment} (hlogical : logical ≠ []) (h : l.buildMemory name params rounds logical = .ok e) :
    ∃ refs, e.circuit.observables = [(0, refs)] ∧ e.ledger.read refs = logical.map (fun q => some (q, rounds)) ∧
      (refs.Nodup ↔ logical.Nodup) := by
  obtain ⟨-, -, hrun⟩ := exists_of_bind h
  have hstart := start_following name params
  unfold memory at hrun
  obtain ⟨⟨⟩, -, hrest⟩ := perform_bind_ok hrun
  rw [hrest] at hrun
  have hprepared := keeps_call (.prepare l.allQubits) _ hstart
  obtain ⟨⟨⟩, -, hrest⟩ := perform_bind_ok hrun
  rw [hrest] at hrun
  have hrounds := keeps_appendRounds l rounds _ hprepared
  obtain ⟨⟨⟩, hreadout, hrest⟩ := perform_bind_ok hrun
  rw [hrest] at hrun
  obtain ⟨-, rfl⟩ := finish_iff.mp hrun
  obtain ⟨hobservables, hread⟩ := appendReadout_observable hrounds hlogical hreadout
  refine ⟨_, hobservables, ?_, ?_⟩
  · exact (Ledger.read_outcomes hread).trans List.map_map
  · rw [Ledger.nodup_outcomes hread, List.nodup_map_iff fun q q' hsame => (Prod.mk.inj hsame).1]

end Layout

end QuantumMemory

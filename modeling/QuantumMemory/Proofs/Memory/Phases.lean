/-
  QuantumMemory.Proofs.Memory.Phases — the stream of a memory follows its phases.

  A phase lets some kinds of instructions into the circuit (`Phase.allows`): gates, noise and
  ticks always, resets only before the rounds, measurements that reset only during them and the others
  only after them. All actions but the two that begin a phase stay in the phase they
  find, whether they fail or not, and append what it lets in (`Steady`). So whatever is called,
  every instruction was let in by a phase and the phases ascend along the stream (`Paced`), which
  puts the kinds in order (`Paced.precede`).

  - `Call.cases`: a call goes on in its phase, begins the next round or ends the rounds.
  - `Following.call`: what holds after any calls, a refused one too.
-/

import QuantumMemory.Proofs.Memory.Calls

namespace QuantumMemory

namespace Phase

/-- The phases are gone through in this order. -/
def rank : Phase → Nat
  | init => 0
  | rounds => 1
  | finalizing => 2

/-- What may enter the circuit in a phase. -/
def allows : Phase → Instruction.Kind → Bool
  | _, .gate _ | _, .noise _ | _, .tick => true
  | init, .reset => true
  | rounds, .measureReset | rounds, .detector => true
  | finalizing, .measure | finalizing, .detector | finalizing, .observable _ => true
  | _, _ => false

variable {phase : Phase} {kind : Instruction.Kind}

theorem rank_reset (h : phase.allows .reset = true) : phase.rank = 0 := by
  cases phase with
  | init => rfl
  | rounds | finalizing => cases h

theorem rank_measureReset (h : phase.allows .measureReset = true) : phase.rank = 1 := by
  cases phase with
  | rounds => rfl
  | init | finalizing => cases h

theorem rank_detector (h : phase.allows .detector = true) : 1 ≤ phase.rank := by
  cases phase with
  | init => cases h
  | rounds | finalizing => decide

theorem rank_measure (h : phase.allows .measure = true) : phase.rank = 2 := by
  cases phase with
  | finalizing => rfl
  | init | rounds => cases h

theorem rank_observable (hk : kind.isObservable = true) (h : phase.allows kind = true) : phase.rank = 2 := by
  cases kind with
  | observable index =>
    cases phase with
    | finalizing => rfl
    | init | rounds => cases h
  | _ => cases hk

end Phase

/-- All that `p` holds of stands before all that `q` holds of. -/
def Precede (p q : Instruction.Kind → Prop) (is : List Instruction) : Prop :=
  ∀ (i j : Nat) (a b : Instruction), is[i]? = some a → is[j]? = some b → p a.kind → q b.kind → i < j

theorem Instruction.kind_of_mem_added {i i' : Instruction} (h : i' ∈ i.added) : i'.kind = i.kind := by
  unfold Instruction.added at h
  split at h
  · rename_i htick
    rw [List.mem_singleton.mp h, htick]
    rfl
  · rw [Instruction.eq_of_mem_kept h]

/-! ## A stream in phases -/

/-- Each instruction was let in by a phase that had come by then, and the phases ascend. -/
def Paced (now : Phase) (is : List Instruction) : Prop :=
  ∃ phases : List Phase, List.Forall₂ (fun phase i => phase.allows i.kind = true) phases is ∧
    phases.Pairwise (·.rank ≤ ·.rank) ∧ ∀ phase ∈ phases, phase.rank ≤ now.rank

namespace Paced

variable {now : Phase} {is : List Instruction}

theorem nil (now : Phase) : Paced now [] := ⟨[], .nil, .nil, fun _ h => absurd h List.not_mem_nil⟩

theorem append (h : Paced now is) {more : List Instruction} (hmore : ∀ i ∈ more, now.allows i.kind = true) :
    Paced now (is ++ more) := by
  obtain ⟨phases, hallow, hascend, hnow⟩ := h
  refine ⟨phases ++ List.replicate more.length now, ?_, ?_, ?_⟩
  · refine List.rel_append hallow ?_
    induction more with
    | nil => exact .nil
    | cons i rest ih =>
      obtain ⟨hi, hrest⟩ := List.forall_mem_cons.mp hmore
      exact .cons hi (ih hrest)
  · refine List.pairwise_append.mpr ⟨hascend, List.pairwise_replicate.mpr (.inr (Nat.le_refl _)), fun a ha b hb => ?_⟩
    rw [List.eq_of_mem_replicate hb]
    exact hnow a ha
  · intro phase hphase
    rcases List.mem_append.mp hphase with hold | hnew
    · exact hnow phase hold
    · rw [List.eq_of_mem_replicate hnew]

/-- The next phase finds the stream as it is. -/
theorem advance (h : Paced now is) {next : Phase} (hle : now.rank ≤ next.rank) : Paced next is := by
  obtain ⟨phases, hallow, hascend, hnow⟩ := h
  exact ⟨phases, hallow, hascend, fun phase hphase => Nat.le_trans (hnow phase hphase) hle⟩

theorem allowed (h : Paced now is) {k : Nat} {i : Instruction} (hk : is[k]? = some i) :
    ∃ phase : Phase, phase.allows i.kind = true ∧ phase.rank ≤ now.rank := by
  obtain ⟨phases, hallow, -, hnow⟩ := h
  obtain ⟨hlt, rfl⟩ := List.getElem?_eq_some_iff.mp hk
  have hlt' : k < phases.length := hallow.length_eq ▸ hlt
  exact ⟨phases[k], hallow.get hlt' hlt, hnow _ (List.getElem_mem hlt')⟩

/-- Kinds that only earlier phases let in stand before those that only later ones do. -/
theorem precede (h : Paced now is) {p q : Instruction.Kind → Prop} (last : Nat)
    (hp : ∀ (phase : Phase) kind, p kind → phase.allows kind = true → phase.rank ≤ last)
    (hq : ∀ (phase : Phase) kind, q kind → phase.allows kind = true → last < phase.rank) : Precede p q is := by
  obtain ⟨phases, hallow, hascend, -⟩ := h
  intro i j a b hi hj ha hb
  obtain ⟨hlti, rfl⟩ := List.getElem?_eq_some_iff.mp hi
  obtain ⟨hltj, rfl⟩ := List.getElem?_eq_some_iff.mp hj
  have hi' : i < phases.length := hallow.length_eq ▸ hlti
  have hj' : j < phases.length := hallow.length_eq ▸ hltj
  have hearly := hp phases[i] _ ha (hallow.get hi' hlti)
  have hlate := hq phases[j] _ hb (hallow.get hj' hltj)
  by_contra hge
  rcases Nat.lt_or_eq_of_le (Nat.le_of_not_lt hge) with hlt | rfl
  · have hle := List.pairwise_iff_getElem.mp hascend j i hj' hi' hlt
    omega
  · omega

theorem resets_first (h : Paced now is) :
    Precede (· = .reset) (fun kind => kind = .measureReset ∨ kind = .measure) is := by
  refine h.precede 0 (fun phase kind hkind hallow => ?_) fun phase kind hkind hallow => ?_
  · rw [hkind] at hallow
    exact (Phase.rank_reset hallow).le
  · rcases hkind with rfl | rfl
    · exact (Phase.rank_measureReset hallow).symm ▸ Nat.zero_lt_one
    · exact (Phase.rank_measure hallow).symm ▸ Nat.zero_lt_two

theorem checks_next (h : Paced now is) :
    Precede (· = .measureReset) (fun kind => kind = .measure ∨ kind.isObservable = true) is := by
  refine h.precede 1 (fun phase kind hkind hallow => ?_) fun phase kind hkind hallow => ?_
  · rw [hkind] at hallow
    exact (Phase.rank_measureReset hallow).le
  · rcases hkind with rfl | hobservable
    · exact (Phase.rank_measure hallow).symm ▸ Nat.one_lt_two
    · exact (Phase.rank_observable hobservable hallow).symm ▸ Nat.one_lt_two

end Paced

namespace Memory

variable {α β γ : Type} {P : Phase → Prop}

/-! ## Steady actions -/

/-- The memory goes on in its phase. -/
structure Continues (m m' : Memory) : Prop where
  phase : m'.phase = m.phase
  rounds : m'.roundsStarted = m.roundsStarted
  appended : ∃ is, m'.circuit.instructions = m.circuit.instructions ++ is ∧ ∀ i ∈ is, m.phase.allows i.kind = true

theorem Continues.refl (m : Memory) : Continues m m :=
  ⟨rfl, rfl, [], (List.append_nil _).symm, fun _ h => absurd h List.not_mem_nil⟩

theorem Continues.trans {m m' m'' : Memory} (h : Continues m m') (h' : Continues m' m'') : Continues m m'' := by
  obtain ⟨is, his, hallow⟩ := h.appended
  obtain ⟨js, hjs, hallow'⟩ := h'.appended
  refine ⟨h'.phase.trans h.phase, h'.rounds.trans h.rounds, is ++ js, ?_, fun i hi => ?_⟩
  · rw [hjs, his, List.append_assoc]
  · rcases List.mem_append.mp hi with hi | hi
    · exact hallow i hi
    · rw [← h.phase]
      exact hallow' i hi

/-- In the phases of `P` the action goes on in the phase, whether it fails or not. -/
def Steady (P : Phase → Prop) (x : Build α) : Prop := ∀ m : Memory, P m.phase → Continues m (m.perform x).2

theorem steady_pure (a : α) : Steady P (pure a : Build α) := fun m _ => .refl m

theorem steady_bind {x : Build α} {f : α → Build β} (hx : Steady P x) (hf : ∀ a, Steady P (f a)) :
    Steady P (x >>= f) := by
  intro m hm
  have hfirst := hx m hm
  rw [perform_bind_eq]
  cases hdone : m.perform x with
  | mk r m' =>
    rw [hdone] at hfirst
    cases r with
    | error e => exact hfirst
    | ok a => exact hfirst.trans (hf a m' (by rw [hfirst.phase]; exact hm))

/-- What comes after a reading of the memory may count on it. -/
theorem steady_get {f : Memory → Build α} (h : ∀ m : Memory, P m.phase → Continues m (m.perform (f m)).2) :
    Steady P (get >>= f) := fun m hm => h m hm

theorem steady_discard {x : Build α} (hx : Steady P x) : Steady P (discard x : Build PUnit) := by
  rw [discard_eq]
  exact steady_bind hx fun _ => steady_pure _

theorem steady_forM {xs : List γ} {f : γ → Build PUnit} (h : ∀ x ∈ xs, Steady P (f x)) : Steady P (xs.forM f) := by
  induction xs with
  | nil => exact steady_pure _
  | cons x rest ih =>
    obtain ⟨hx, hrest⟩ := List.forall_mem_cons.mp h
    exact steady_bind hx fun _ => ih hrest

/-- After a guard it is the guarded phases that count. -/
theorem steady_require {operation : String} {phases : List Phase} {f : Unit → Build α}
    (h : Steady (· ∈ phases) (f ())) : Steady P (Build.require operation phases >>= f) := by
  intro m _
  rw [perform_bind_eq]
  by_cases hphase : m.phase ∈ phases
  · rw [perform_require hphase]
    exact h m hphase
  · rw [perform_require_error hphase]
    exact .refl m

/-- Growing by an instruction that the phases let in. -/
theorem steady_grow {f : Circuit → Except CircuitError Circuit} {i : Instruction}
    (hf : ∀ c c', f c = .ok c' → c' = c.extendAll i.added) (hP : ∀ phase, P phase → phase.allows i.kind = true) :
    Steady P (Build.grow f) := by
  intro m hm
  cases hgrown : f m.circuit with
  | error e =>
    rw [perform_grow_error hgrown]
    exact .refl m
  | ok c =>
    rw [perform_grow (hf _ _ hgrown ▸ hgrown)]
    refine ⟨rfl, rfl, i.added, Circuit.instructions_extendAll _ _, fun i' hi' => ?_⟩
    rw [Instruction.kind_of_mem_added hi']
    exact hP m.phase hm

theorem steady_append {i : Instruction} (hP : ∀ phase, P phase → phase.allows i.kind = true) :
    Steady P (Build.grow (·.append i)) := steady_grow (fun _ _ h => Circuit.append_eq_extendAll h) hP

theorem steady_noise (channel : Channel) (qubits : List Qubit) : Steady P (Build.grow (·.noise channel qubits)) := by
  refine steady_grow (i := .noise channel qubits) (fun c c' h => ?_) fun phase _ => by cases phase <;> rfl
  obtain ⟨-, -, happend⟩ := exists_of_bind h
  exact Circuit.append_eq_extendAll happend

theorem steady_depolarize1 (qubits : List Qubit) : Steady P (Build.depolarize1 qubits) := by
  refine steady_get fun m hm => ?_
  split
  · exact steady_noise _ _ m hm
  · exact .refl m

theorem steady_depolarize2 (pairs : List (Qubit × Qubit)) : Steady P (Build.depolarize2 pairs) := by
  refine steady_get fun m hm => ?_
  split
  · exact steady_noise _ _ m hm
  · exact .refl m

theorem steady_h (qubits : List Qubit) : Steady P (Build.h qubits) :=
  steady_append (i := .gate .h qubits) fun phase _ => by cases phase <;> rfl

theorem steady_cx (pairs : List (Qubit × Qubit)) : Steady P (Build.cx pairs) :=
  steady_append (i := .gate .cx (flattenPairs pairs)) fun phase _ => by cases phase <;> rfl

theorem steady_tick : Steady P Build.tick := by
  refine fun m _ => ⟨rfl, rfl, [.tick], Circuit.instructions_extendAll m.circuit [.tick], fun i hi => ?_⟩
  rw [List.mem_singleton.mp hi]
  cases m.phase <;> rfl

theorem steady_prepare (qubits : List Qubit) : Steady P (Build.prepare qubits) := by
  refine steady_require (steady_bind (steady_append (i := .reset qubits) fun phase hphase => ?_) fun _ =>
    steady_depolarize1 qubits)
  rw [List.mem_singleton.mp hphase]
  rfl

/-! ## Measuring and referring -/

/-- The ledger is not in the stream. -/
theorem steady_recordAll (qubits : List Qubit) (round : Nat) (kind : MeasurementKind) :
    Steady P (Build.recordAll qubits round kind) := by
  refine steady_forM fun q _ => steady_get fun m _ => ?_
  split
  · exact ⟨rfl, rfl, [], (List.append_nil _).symm, fun _ h => absurd h List.not_mem_nil⟩
  · exact .refl m

theorem steady_requireUnmeasured (qubits : List Qubit) (round : Nat) : Steady P (Build.requireUnmeasured qubits round) := by
  refine steady_get fun m _ => ?_
  split
  · exact .refl m
  · exact .refl m

theorem steady_measuring (operation : String) {phase : Phase} {instruction : Instruction.Kind}
    (hallow : phase.allows instruction = true) (qubits : List Qubit) (round : Nat) (kind : MeasurementKind) :
    Steady P (Build.measuring operation phase instruction qubits round kind) := by
  refine steady_require (steady_bind (steady_requireUnmeasured qubits round) fun _ =>
    steady_bind (steady_append (i := ⟨instruction, qubits, []⟩) fun now hnow => ?_) fun _ =>
      steady_recordAll qubits round kind)
  rw [List.mem_singleton.mp hnow]
  exact hallow

theorem steady_detector (terms : List Term) : Steady P (Build.detector terms) := by
  refine steady_require (steady_get fun m hm => ?_)
  split
  · exact .refl m
  · refine steady_bind (steady_append (i := .detector (m.resolve terms)) fun phase hphase => ?_)
      (fun _ => steady_pure true) m hm
    cases phase with
    | init => simp at hphase
    | rounds | finalizing => rfl

theorem steady_observable (index : Nat) (terms : List Term) : Steady P (Build.observable index terms) := by
  refine steady_require (steady_get fun m hm => ?_)
  dsimp only
  split
  · refine steady_append (i := .observable index (m.resolve terms)) (fun phase hphase => ?_) m hm
    rw [List.mem_singleton.mp hphase]
    rfl
  · exact .refl m

/-! ## A round -/

theorem steady_appendLayer (pairs : List (Qubit × Qubit)) : Steady P (Layout.appendLayer pairs) :=
  steady_bind (steady_cx pairs) fun _ => steady_bind (steady_depolarize2 pairs) fun _ => steady_tick

theorem steady_appendDetector (l : Layout) (check : Qubit) (terms : List Term) :
    Steady P (l.appendDetector check terms) := by
  unfold Layout.appendDetector
  split
  · exact steady_pure ()
  · exact steady_discard (steady_detector terms)

theorem steady_appendDetectors (l : Layout) (round : Nat) : Steady P (l.appendDetectors round) := by
  cases round with
  | zero => exact steady_forM fun check _ => steady_appendDetector l check _
  | succ r => exact steady_forM fun check _ => steady_appendDetector l check _

/-- A round is begun, and after that nothing leaves the phase. -/
theorem appendRound_begins (l : Layout) (round : Nat) :
    ∃ rest : Build Unit, l.appendRound round = (Build.beginRound round >>= fun _ => rest) ∧ ∀ P, Steady P rest := by
  refine ⟨_, Layout.appendRound_eq round, fun P => ?_⟩
  have hfirst : Steady P (if round = 0 then pure () else Build.depolarize1 l.allChecks) := by
    split
    · exact steady_pure ()
    · exact steady_depolarize1 _
  refine steady_bind hfirst fun _ => ?_
  refine steady_bind (steady_h _) fun _ => steady_bind (steady_depolarize1 _) fun _ => ?_
  refine steady_bind (steady_forM fun pairs _ => steady_appendLayer pairs) fun _ => ?_
  refine steady_bind (steady_depolarize1 _) fun _ => steady_bind (steady_h _) fun _ => ?_
  refine steady_bind (steady_depolarize1 _) fun _ => steady_bind (steady_depolarize1 _) fun _ => ?_
  exact steady_bind (steady_measuring _ rfl _ _ _) fun _ => steady_appendDetectors l round

/-! ## Calls -/

/-- A memory that has begun its next round, at which the rounds phase is on. -/
def begin (m : Memory) : Memory := { m with phase := .rounds, roundsStarted := m.roundsStarted + 1 }

/-- A round is begun if it is the next and the memory is not being finished, and otherwise
    nothing is. -/
theorem perform_beginRound_cases (m : Memory) (round : Nat) :
    (m.phase ≠ .finalizing ∧ round = m.roundsStarted ∧ m.perform (Build.beginRound round) = (.ok (), m.begin)) ∨
      ∃ e, m.perform (Build.beginRound round) = (.error e, m) := by
  by_cases hphase : m.phase ∈ [Phase.init, .rounds]
  · rw [Build.beginRound, perform_bind (perform_require hphase _), perform_bind (perform_get m)]
    by_cases hround : round = m.roundsStarted
    · refine .inl ⟨fun h => by simp [h] at hphase, hround, ?_⟩
      rw [if_pos hround]
      rfl
    · rw [if_neg hround]
      exact .inr ⟨_, rfl⟩
  · rw [Build.beginRound, perform_bind_eq, perform_require_error hphase]
    exact .inr ⟨_, rfl⟩

namespace Call

/-- The round that a call sets out to begin. -/
def round? : Call → Option Nat
  | beginRound round | appendRound _ round => some round
  | _ => none

/-- The round that a call begins, also when it fails further on. -/
def begins? (m : Memory) (call : Call) : Option Nat :=
  call.round?.filter fun round => (m.perform (Build.beginRound round)).1.isOk

/-- A call goes on in its phase, or begins the next round and goes on from there, or ends the
    rounds. -/
theorem cases (m : Memory) (call : Call) :
    (call.begins? m = none ∧ Continues m (m.perform call.action).2) ∨
      (call.begins? m = some m.roundsStarted ∧ m.phase ≠ .finalizing ∧ Continues m.begin (m.perform call.action).2) ∨
      (call.begins? m = none ∧ m.phase = .rounds ∧ (m.perform call.action).2 = { m with phase := .finalizing }) := by
  have hround : ∀ {round : Nat} {rest : Build Unit}, call.round? = some round →
      call.action = (Build.beginRound round >>= fun _ => rest) → (∀ P, Steady P rest) →
      (call.begins? m = none ∧ Continues m (m.perform call.action).2) ∨
        (call.begins? m = some m.roundsStarted ∧ m.phase ≠ .finalizing ∧ Continues m.begin (m.perform call.action).2) := by
    intro round rest hcall haction hrest
    rw [haction, perform_bind_eq, begins?, hcall]
    rcases perform_beginRound_cases m round with ⟨hphase, rfl, hdone⟩ | ⟨e, hdone⟩
    · rw [hdone]
      exact .inr ⟨by simp [hdone, Except.isOk, Except.toBool], hphase, hrest (fun _ => True) m.begin trivial⟩
    · rw [hdone]
      exact .inl ⟨by simp [hdone, Except.isOk, Except.toBool], .refl m⟩
  have hsteady : call.round? = none → (∀ P, Steady P call.action) →
      call.begins? m = none ∧ Continues m (m.perform call.action).2 := by
    intro hcall hstay
    exact ⟨by rw [begins?, hcall]; rfl, hstay (fun _ => True) m trivial⟩
  cases call with
  | prepare qubits => exact .inl (hsteady rfl fun _ => steady_prepare qubits)
  | beginRound round =>
    exact (hround rfl (bind_pure _).symm fun _ => steady_pure ()).imp_right .inl
  | beginFinalize =>
    by_cases hphase : m.phase = .rounds
    · refine .inr (.inr ⟨rfl, hphase, ?_⟩)
      rw [action, perform_beginFinalize hphase]
    · refine .inl ⟨rfl, ?_⟩
      rw [action, Build.beginFinalize, perform_bind_eq, perform_require_error (by simpa using hphase)]
      exact .refl m
  | h qubits => exact .inl (hsteady rfl fun _ => steady_h qubits)
  | cx pairs => exact .inl (hsteady rfl fun _ => steady_cx pairs)
  | tick => exact .inl (hsteady rfl fun _ => steady_tick)
  | depolarize1 qubits => exact .inl (hsteady rfl fun _ => steady_depolarize1 qubits)
  | depolarize2 pairs => exact .inl (hsteady rfl fun _ => steady_depolarize2 pairs)
  | measureReset qubits round kind => exact .inl (hsteady rfl fun _ => steady_measuring _ rfl qubits round kind)
  | measure qubits round kind => exact .inl (hsteady rfl fun _ => steady_measuring _ rfl qubits round kind)
  | detector terms => exact .inl (hsteady rfl fun _ => steady_discard (steady_detector terms))
  | observable index terms => exact .inl (hsteady rfl fun _ => steady_observable index terms)
  | appendRound layout round =>
    obtain ⟨rest, heq, hrest⟩ := appendRound_begins layout round
    exact (hround rfl heq hrest).imp_right .inl

/-- No call goes back behind the rounds that are begun. -/
theorem roundsStarted_le (m : Memory) (call : Call) : m.roundsStarted ≤ (m.perform call.action).2.roundsStarted := by
  rcases call.cases m with ⟨-, hgoes⟩ | ⟨-, -, hgoes⟩ | ⟨-, -, hdone⟩
  · exact hgoes.rounds.ge
  · exact (Nat.le_succ _).trans hgoes.rounds.ge
  · rw [hdone]

end Call

theorem roundsStarted_le_after (m : Memory) (calls : List Call) : m.roundsStarted ≤ (m.after calls).roundsStarted := by
  induction calls generalizing m with
  | nil => exact Nat.le_refl _
  | cons call rest ih => exact (call.roundsStarted_le m).trans (ih _)

/-! ## After any calls -/

/-- What holds after any calls: circuit and ledger are in step, and the stream follows the phases up to this one. -/
structure Following (m : Memory) : Prop where
  synced : m.Synced
  paced : Paced m.phase m.circuit.instructions

theorem start_following (name : String) (params : CodeParams) : (Memory.start name params).Following :=
  ⟨start_synced name params, .nil _⟩

theorem Continues.paced {m m' : Memory} (h : Continues m m') (hm : Paced m.phase m.circuit.instructions) :
    Paced m'.phase m'.circuit.instructions := by
  obtain ⟨hphase, -, is, his, hallow⟩ := h
  rw [hphase, his]
  exact hm.append hallow

theorem rank_begin {m : Memory} (h : m.phase ≠ .finalizing) : m.phase.rank ≤ m.begin.phase.rank := by
  show m.phase.rank ≤ Phase.rounds.rank
  cases hphase : m.phase with
  | init | rounds => decide
  | finalizing => exact absurd hphase h

theorem Following.call {m : Memory} (h : m.Following) (call : Call) : (m.perform call.action).2.Following := by
  refine ⟨h.synced.extends (call.careful m h.synced).1, ?_⟩
  rcases call.cases m with ⟨-, hgoes⟩ | ⟨-, hphase, hgoes⟩ | ⟨-, hphase, hdone⟩
  · exact hgoes.paced h.paced
  · exact hgoes.paced (h.paced.advance (rank_begin hphase))
  · have hle : m.phase.rank ≤ Phase.finalizing.rank := by
      rw [hphase]
      decide
    rw [hdone]
    exact h.paced.advance hle

/-- Nothing is detected during preparation. -/
theorem Following.undetected {m : Memory} (h : m.Following) (hphase : m.phase = .init) :
    ∀ i ∈ m.circuit.instructions, i.kind ≠ .detector := by
  intro i hi hdetector
  obtain ⟨k, hk⟩ := List.mem_iff_getElem?.mp hi
  obtain ⟨phase, hallow, hrank⟩ := h.paced.allowed hk
  rw [hdetector] at hallow
  rw [hphase] at hrank
  exact absurd (Nat.le_trans (Phase.rank_detector hallow) hrank) (by decide)

/-- A memory is finished in its last phase, and then as it is. -/
theorem finish_iff {m : Memory} {e : Experiment} :
    (m.perform Build.finish).1 = .ok e ↔ m.phase = .finalizing ∧ e = ⟨m.circuit, m.ledger, m.roundsStarted⟩ := by
  by_cases hphase : m.phase = .finalizing
  · rw [perform_finish hphase, Except.ok.injEq, eq_comm, and_iff_right hphase]
  · rw [Build.finish, perform_bind_eq, perform_require_error (mt List.mem_singleton.mp hphase)]
    exact iff_of_false (fun he => (by cases he)) fun hboth => hphase hboth.1

end Memory

end QuantumMemory

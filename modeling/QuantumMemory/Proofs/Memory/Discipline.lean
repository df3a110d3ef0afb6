/-
  QuantumMemory.Proofs.Memory.Discipline — the discipline that phases impose on a memory in place.

  A call only ever leads on: to the same phase or a later one, to a longer stream, and to the
  next round if it begins one (`Advances`, one step in `advances_call`, a run in
  `advances_edited`). The stream that is left follows the phases (`following_edited`), which puts
  resets, checks and read-outs in order.

  The rounds that are begun are numbered by the word that counts them. Below 2^32 of them they
  are 0, 1, 2 and so on, and the word is their number; after 2^32 they are begun over again,
  with the word at zero.

  - `phase_discipline`: every run of calls on a new memory, refused ones among them.
  - `finish_roundCalls`: rounds begun one after the other, as many as one likes. Of 2^32 rounds
    the experiment says that there were none, so the bound cannot be left out.
-/

import QuantumMemory.Proofs.Memory.Index

namespace QuantumMemory.IndexedMemory

variable {m m' m'' : IndexedMemory} {m₀ : Memory}

/-! ## The rounds that are begun -/

/-- The round that a call begins, also when it fails further on. -/
def begins? (m : IndexedMemory) (call : Memory.Call) : Option Nat :=
  call.round?.filter fun round => (m.perform (beginRound round)).1.isOk

/-- The rounds that calls begin, in the order they do. -/
def begun (m : IndexedMemory) : List Memory.Call → List Nat
  | [] => []
  | call :: rest => (m.begins? call).toList ++ begun (m.perform call.edit).2 rest

theorem begins?_memory (h : m.ledger.Agrees) (call : Memory.Call) : call.begins? m.memory = m.begins? call := by
  have hsame : ∀ round, (m.memory.perform (Build.beginRound round)).1 = (m.perform (beginRound round)).1 :=
    fun round => (mirrorsAt_beginRound round (.memory h) m.memory_bounded).result
  rw [begins?, Memory.Call.begins?, funext fun round => congrArg Except.isOk (hsame round)]

/-! ## Going on -/

/-- The memory has come further, and the rounds begun on the way are the next that the word tells. -/
structure Advances (began : List Nat) (m m' : IndexedMemory) : Prop where
  phase : m.phase.rank ≤ m'.phase.rank
  stream : m.circuit.instructions <+: m'.circuit.instructions
  inTurn : began = (List.range began.length).map fun i => (m.roundsStarted + UInt32.ofNat i).toNat
  counted : m'.roundsStarted = m.roundsStarted + UInt32.ofNat began.length
  /-- Preparation is over only when a round is begun. -/
  waits : began = [] → m.phase = .init → m'.phase = .init

theorem Advances.refl (m : IndexedMemory) : Advances [] m m where
  phase := Nat.le_refl _
  stream := List.prefix_refl _
  inTurn := rfl
  counted := (UInt32.add_zero _).symm
  waits := fun _ h => h

theorem Advances.trans {began began' : List Nat} (h : Advances began m m') (h' : Advances began' m' m'') :
    Advances (began ++ began') m m'' where
  phase := Nat.le_trans h.phase h'.phase
  stream := h.stream.trans h'.stream
  inTurn := by
    have hlater := h'.inTurn
    simp only [h.counted, UInt32.add_assoc, ← UInt32.ofNat_add] at hlater
    rw [List.length_append, List.range_add, List.map_append, List.map_map, ← h.inTurn]
    exact congrArg (began ++ ·) hlater
  counted := by rw [h'.counted, h.counted, UInt32.add_assoc, ← UInt32.ofNat_add, List.length_append]
  waits := fun hnone hinit => by
    obtain ⟨hfirst, hlast⟩ := List.append_eq_nil_iff.mp hnone
    exact h'.waits hlast (h.waits hfirst hinit)

theorem advances_begin (hphase : m.phase ≠ .finalizing) : Advances [m.roundsStarted.toNat] m m.begin where
  phase := Memory.rank_begin (m := m.memory) hphase
  stream := List.prefix_refl _
  inTurn := by
    show [m.roundsStarted.toNat] = [(m.roundsStarted + 0).toNat]
    rw [UInt32.add_zero]
  counted := rfl
  waits := fun hnone => absurd hnone (List.cons_ne_nil _ _)

theorem advances_continues (hm : StandsFor m m₀) {m₀' : Memory} (hm' : StandsFor m' m₀')
    (hgoes : Memory.Continues m₀ m₀') : Advances [] m m' := by
  have hcounter : m'.roundsStarted = m.roundsStarted := by rw [hm'.counter, hgoes.rounds, hm.counter]
  obtain ⟨n, rfl⟩ := hm.exists_count
  obtain ⟨n', rfl⟩ := hm'.exists_count
  have hphase : m'.phase = m.phase := hgoes.phase
  obtain ⟨is, his, -⟩ := hgoes.appended
  exact ⟨hphase.symm ▸ Nat.le_refl _, ⟨is, his.symm⟩, rfl, hcounter.trans (UInt32.add_zero _).symm,
    fun _ hinit => hphase.trans hinit⟩

theorem advances_finalize (hm' : StandsFor m' { m.memory with phase := .finalizing }) (hphase : m.phase = .rounds) :
    Advances [] m m' := by
  have hcounter : m'.roundsStarted = m.roundsStarted := hm'.counter.trans UInt32.ofNat_toNat
  have hcircuit : m.circuit = m'.circuit := congrArg Memory.circuit hm'.same
  have hlast : .finalizing = m'.phase := congrArg Memory.phase hm'.same
  refine ⟨?_, hcircuit ▸ List.prefix_refl _, rfl, hcounter.trans (UInt32.add_zero _).symm, fun _ hinit => ?_⟩
  · rw [hphase, ← hlast]
    decide
  · rw [hphase] at hinit
    cases hinit

/-- A call is one step of it, refused or not. -/
theorem advances_call (h : m.ledger.Agrees) (call : Memory.Call) :
    Advances (m.begins? call).toList m (m.perform call.edit).2 := by
  have hm : StandsFor m m.memory := .memory h
  have hm' := (mirrorsAt_memory h call).stands
  rw [← begins?_memory h]
  rcases call.cases m.memory with ⟨hnone, hgoes⟩ | ⟨hsome, hphase, hgoes⟩ | ⟨hnone, hphase, hdone⟩
  · rw [hnone]
    exact advances_continues hm hm' hgoes
  · rw [hsome]
    exact (advances_begin hphase).trans (advances_continues hm.begin hm' hgoes)
  · rw [hdone] at hm'
    rw [hnone]
    exact advances_finalize hm' hphase

theorem advances_edited (h : m.ledger.Agrees) (calls : List Memory.Call) :
    Advances (m.begun calls) m (m.edited calls) := by
  induction calls generalizing m with
  | nil => exact .refl m
  | cons call rest ih => exact (advances_call h call).trans (ih (mirrorsAt_memory h call).stands.agrees)

/-- The count is not in the stream. -/
theorem StandsFor.following (h : StandsFor m m₀) (h₀ : m₀.Following) : m.memory.Following := by
  obtain ⟨n, rfl⟩ := h.exists_count
  exact ⟨⟨h₀.synced.counted, h₀.synced.qubits⟩, h₀.paced⟩

theorem following_edited (h : m.ledger.Agrees) (hm : m.memory.Following) (calls : List Memory.Call) :
    (m.edited calls).memory.Following := by
  induction calls generalizing m with
  | nil => exact hm
  | cons call rest ih =>
    have hstands := (mirrorsAt_memory h call).stands
    exact ih hstands.agrees (hstands.following (hm.call call))

theorem finish_iff (h : m.ledger.Agrees) {e : Experiment} :
    (m.perform finish).1 = .ok e ↔
      m.phase = .finalizing ∧ e = ⟨m.circuit, m.ledger.ledger, m.roundsStarted.toNat⟩ := by
  rw [← (mirrorsAt_finish (.memory h) m.memory_bounded).result]
  exact Memory.finish_iff

/-! ## The discipline -/

/-- What holds of a memory that calls have made of a new one. -/
structure Disciplined (m : IndexedMemory) (calls : List Memory.Call) : Prop where
  resetsFirst : Precede (· = .reset) (fun kind => kind = .measureReset ∨ kind = .measure)
    (m.edited calls).circuit.instructions
  checksNext : Precede (· = .measureReset) (fun kind => kind = .measure ∨ kind.isObservable = true)
    (m.edited calls).circuit.instructions
  /-- What is in the stream when no round is begun yet has no detector. -/
  undetected : ∀ early more, calls = early ++ more → m.begun early = [] →
    (m.edited early).circuit.instructions <+: (m.edited calls).circuit.instructions ∧
      ∀ i ∈ (m.edited early).circuit.instructions, i.kind ≠ .detector
  forwards : ∀ early more, calls = early ++ more → (m.edited early).phase.rank ≤ (m.edited calls).phase.rank
  /-- However many rounds are begun, the word goes through its values in turn. -/
  begunInTurn : m.begun calls = (List.range (m.begun calls).length).map (· % 2 ^ 32)
  counted : (m.edited calls).roundsStarted = UInt32.ofNat (m.begun calls).length
  roundsInTurn : (m.begun calls).length < 2 ^ 32 → m.begun calls = List.range (m.edited calls).roundsStarted.toNat
  finishes : (∃ e, ((m.edited calls).perform finish).1 = .ok e) ↔ (m.edited calls).phase = .finalizing
  finished : ∀ e, ((m.edited calls).perform finish).1 = .ok e →
    e.circuit = (m.edited calls).circuit ∧ e.ledger = (m.edited calls).ledger.ledger ∧
      e.rounds = (m.edited calls).roundsStarted.toNat ∧ ((m.begun calls).length < 2 ^ 32 → 1 ≤ e.rounds) ∧
      e.ledger.length = e.circuit.numMeasurements ∧
      e.ledger.length = Circuit.measurementsOf e.circuit.instructions

/-- Whatever is called, with whatever rates and arguments and however much of it is refused, the
    memory keeps the discipline of its phases. -/
theorem phase_discipline (name : String) (params : CodeParams) (calls : List Memory.Call) :
    Disciplined (start name params) calls := by
  set m := start name params
  have hempty : m.ledger.Agrees := IndexedLedger.agrees_empty
  have hnew : m.memory.Following := Memory.start_following name params
  have hfollows := following_edited hempty hnew
  have hadvances := advances_edited hempty calls
  have hagrees := (edited_agrees hempty calls).1
  have hcounted : (m.edited calls).roundsStarted = UInt32.ofNat (m.begun calls).length := by
    rw [hadvances.counted]
    exact UInt32.zero_add _
  have hbegun : m.begun calls = (List.range (m.begun calls).length).map (· % 2 ^ 32) := by
    refine hadvances.inTurn.trans (List.map_congr_left fun i _ => ?_)
    rw [show m.roundsStarted = 0 from rfl, UInt32.zero_add, UInt32.toNat_ofNat']
  have hsplit : ∀ early more, calls = early ++ more →
      Advances ((m.edited early).begun more) (m.edited early) (m.edited calls) := by
    intro early more hcalls
    rw [hcalls, edited_append]
    exact advances_edited (edited_agrees hempty early).1 more
  constructor
  case resetsFirst => exact (hfollows calls).paced.resets_first
  case checksNext => exact (hfollows calls).paced.checks_next
  case undetected =>
    intro early more hcalls hnone
    have hinit : (m.edited early).phase = .init := (advances_edited hempty early).waits hnone rfl
    exact ⟨(hsplit early more hcalls).stream, (hfollows early).undetected hinit⟩
  case forwards => exact fun early more hcalls => (hsplit early more hcalls).phase
  case begunInTurn => exact hbegun
  case counted => exact hcounted
  case roundsInTurn =>
    intro hbound
    rw [hcounted, UInt32.toNat_ofNat_of_lt' hbound]
    refine hbegun.trans ((List.map_congr_left fun i hi => ?_).trans (List.map_id _))
    exact Nat.mod_eq_of_lt ((List.mem_range.mp hi).trans hbound)
  case finishes =>
    constructor
    · rintro ⟨e, he⟩
      exact ((finish_iff hagrees).mp he).1
    · exact fun hphase => ⟨_, (finish_iff hagrees).mpr ⟨hphase, rfl⟩⟩
  case finished =>
    intro e he
    obtain ⟨hphase, rfl⟩ := (finish_iff hagrees).mp he
    have hsynced := (hfollows calls).synced
    have hsome : m.begun calls ≠ [] := by
      intro hnone
      have hinit : (m.edited calls).phase = .init := hadvances.waits hnone rfl
      rw [hphase] at hinit
      cases hinit
    refine ⟨rfl, rfl, rfl, fun hbound => ?_, hsynced.lockstep, hsynced.lockstep.trans hsynced.counted⟩
    show 1 ≤ (m.edited calls).roundsStarted.toNat
    rw [hcounted, UInt32.toNat_ofNat_of_lt' hbound]
    exact List.length_pos_of_ne_nil hsome

/-- A round out of turn is not begun, nor one after the rounds. -/
example : (start "line" ⟨1, .one, .one⟩).begun
    [.beginRound 1, .beginRound 0, .prepare [0], .beginRound 1, .beginFinalize, .beginRound 2] = [0, 1] := by decide

/-! ## Past the word's end -/

theorem begun_append (m : IndexedMemory) (early more : List Memory.Call) :
    m.begun (early ++ more) = m.begun early ++ (m.edited early).begun more := by
  induction early generalizing m with
  | nil => rfl
  | cons call rest ih =>
    rw [List.cons_append, begun, begun, ih, List.append_assoc]
    rfl

/-- Begins that many rounds. -/
def roundCalls (n : Nat) : List Memory.Call := (List.range n).map fun i => .beginRound (i % 2 ^ 32)

/-- The round that the word names is begun, unless the memory is being finished. -/
theorem perform_beginRound {round : Nat} (hphase : m.phase ≠ .finalizing) (hround : round = m.roundsStarted.toNat) :
    m.perform (beginRound round) = (.ok (), m.begin) := by
  have hallowed : m.phase ∈ [Phase.init, .rounds] := by
    cases hnow : m.phase with
    | init | rounds => simp
    | finalizing => exact absurd hnow hphase
  have hrequire : m.perform (require "begin_round" [.init, .rounds]) = (.ok (), m) := by
    show m.perform (if m.phase ∈ [Phase.init, .rounds] then pure () else throw _) = _
    rw [if_pos hallowed]
    rfl
  rw [beginRound, perform_bind_eq, hrequire]
  show m.perform (if round = m.roundsStarted.toNat then toPhase .rounds >>= fun _ => countRound else throw _) = _
  rw [if_pos hround]
  rfl

theorem edited_roundCalls (name : String) (params : CodeParams) (n : Nat) :
    (start name params).begun (roundCalls n) = (List.range n).map (· % 2 ^ 32) ∧
      (start name params).edited (roundCalls n) =
        { start name params with phase := if n = 0 then .init else .rounds, roundsStarted := UInt32.ofNat n } := by
  induction n with
  | zero => exact ⟨rfl, rfl⟩
  | succ n ih =>
    obtain ⟨hbegun, hedited⟩ := ih
    have hcalls : roundCalls (n + 1) = roundCalls n ++ [.beginRound (n % 2 ^ 32)] := by
      rw [roundCalls, List.range_succ, List.map_append]
      rfl
    have hphase : ((start name params).edited (roundCalls n)).phase ≠ .finalizing := by
      rw [hedited]
      dsimp only
      split <;> decide
    have hround : n % 2 ^ 32 = ((start name params).edited (roundCalls n)).roundsStarted.toNat := by
      rw [hedited]
      exact UInt32.toNat_ofNat'.symm
    have hone := perform_beginRound hphase hround
    constructor
    · have hbegins : ((start name params).edited (roundCalls n)).begins? (.beginRound (n % 2 ^ 32)) =
          some (n % 2 ^ 32) := by
        rw [begins?, Memory.Call.round?, Option.filter_some, hone]
        rfl
      rw [hcalls, begun_append, hbegun, begun, hbegins, List.range_succ, List.map_append]
      rfl
    · rw [hcalls, edited_append]
      show (((start name params).edited (roundCalls n)).perform (beginRound (n % 2 ^ 32))).2 = _
      rw [hone, hedited, if_neg (Nat.succ_ne_zero n), UInt32.ofNat_add]
      rfl

/-- All of them are begun, and the experiment is said to have the rest of their number by 2^32. -/
theorem finish_roundCalls (name : String) (params : CodeParams) (n : Nat) :
    (start name params).begun (roundCalls (n + 1) ++ [.beginFinalize]) = (List.range (n + 1)).map (· % 2 ^ 32) ∧
      (((start name params).edited (roundCalls (n + 1) ++ [.beginFinalize])).perform finish).1 =
        .ok ⟨.empty name, .empty, (n + 1) % 2 ^ 32⟩ := by
  obtain ⟨hbegun, hedited⟩ := edited_roundCalls name params (n + 1)
  constructor
  · rw [begun_append, hbegun]
    exact List.append_nil _
  · rw [edited_append, hedited, if_neg (Nat.succ_ne_zero n), ← UInt32.toNat_ofNat']
    rfl

end QuantumMemory.IndexedMemory

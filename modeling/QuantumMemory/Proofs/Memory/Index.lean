/-
  QuantumMemory.Proofs.Memory.Index — a memory kept in place, call by call.

  A memory in place counts its rounds in a word that wraps, and stands for a memory by itself
  whose count wraps to that word (`StandsFor`). An edit in place mirrors an action if from there
  it gives the same answer, and what it leaves stands for what the action leaves (`Mirrors`).
  Edits can be put one after the other, so each is looked at once. Only those that begin a round
  or finish read the count, and these mirror below 2^32 rounds (`mirrorsAt_edit`,
  `mirrorsAt_finish`).

  A memory in place is told by a memory that it stands for (`StandsFor.unique`). So what a
  refused call leaves of the one, it leaves of the other: nothing is written of the circuit, its
  counters, the ledger with its index, the phase or the number of rounds.

  - `edited_memory`: a run in place that begins less than 2^32 rounds is the run by itself.
  - `refused_unchanged`: a refused call changes nothing, after any calls whatever.
-/

import QuantumMemory.Code.Index
import QuantumMemory.Proofs.Circuit.Index
import QuantumMemory.Proofs.Memory.Refusal

namespace QuantumMemory

/-- A ledger whose index agrees is told by its entries. -/
theorem IndexedLedger.eq_of_ledger {l l' : IndexedLedger} (h : l.Agrees) (h' : l'.Agrees) (he : l.ledger = l'.ledger) :
    l = l' := by
  have hrecords : l.records = l'.records := by rw [← h.ledger_records, ← h'.ledger_records, he]
  have hindex : l.index = l'.index := by
    funext q r
    apply Option.ext
    intro i
    rw [h.indexed, h'.indexed, hrecords]
  cases l
  cases l'
  cases hrecords
  cases hindex
  rfl

namespace IndexedMemory

variable {α β γ : Type} {m m' : IndexedMemory} {m₀ : Memory}

/-- The memory by itself, whose rounds may be more than the word tells. -/
structure StandsFor (m : IndexedMemory) (m₀ : Memory) : Prop where
  agrees : m.ledger.Agrees
  counter : m.roundsStarted = UInt32.ofNat m₀.roundsStarted
  same : m₀ = m.memoryAt m₀.roundsStarted

/-- A round begun in place. -/
def begin (m : IndexedMemory) : IndexedMemory := { m with phase := .rounds, roundsStarted := m.roundsStarted + 1 }

namespace StandsFor

theorem exists_count (h : StandsFor m m₀) : ∃ n, m₀ = m.memoryAt n := ⟨_, h.same⟩

/-- One round more on either side. -/
theorem begin (h : StandsFor m m₀) : StandsFor m.begin m₀.begin := by
  obtain ⟨n, rfl⟩ := h.exists_count
  refine ⟨h.agrees, ?_, rfl⟩
  show m.roundsStarted + 1 = UInt32.ofNat (n + 1)
  rw [UInt32.ofNat_add, h.counter]
  rfl

/-- The least of them takes the word for the count. -/
theorem memory (h : m.ledger.Agrees) : StandsFor m m.memory := ⟨h, UInt32.ofNat_toNat.symm, rfl⟩

theorem toNat_counter (h : StandsFor m m₀) (hbound : m₀.roundsStarted < 2 ^ 32) :
    m.roundsStarted.toNat = m₀.roundsStarted := by
  rw [h.counter, UInt32.toNat_ofNat_of_lt' hbound]

theorem eq_memory (h : StandsFor m m₀) (hbound : m₀.roundsStarted < 2 ^ 32) : m.memory = m₀ := by
  rw [h.same, IndexedMemory.memory, h.toNat_counter hbound]

/-- A memory in place is told by one that it stands for. -/
theorem unique (h : StandsFor m m₀) (h' : StandsFor m' m₀) : m = m' := by
  have hmemory : m.memoryAt m₀.roundsStarted = m'.memoryAt m₀.roundsStarted := h.same.symm.trans h'.same
  have hledger : m.ledger = m'.ledger := IndexedLedger.eq_of_ledger h.agrees h'.agrees (congrArg Memory.ledger hmemory)
  have hcounter : m.roundsStarted = m'.roundsStarted := h.counter.trans h'.counter.symm
  cases m
  cases m'
  cases hledger
  cases hcounter
  cases hmemory
  rfl

end StandsFor

/-! ## Mirroring an action -/

theorem perform_bind_eq (m : IndexedMemory) (x : MemoryEdit α) (f : α → MemoryEdit β) : m.perform (x >>= f) =
    match m.perform x with
    | (.ok a, m') => m'.perform (f a)
    | (.error e, m') => (.error e, m') := by
  simp only [perform, run_bind_eq]
  rcases (ExceptT.run x).run m with ⟨e | a, m'⟩ <;> rfl

/-- Here the edit gives the action's answer, and leaves what stands for what the action leaves. -/
structure MirrorsAt (m : IndexedMemory) (m₀ : Memory) (x : MemoryEdit α) (y : Build α) : Prop where
  result : (m₀.perform y).1 = (m.perform x).1
  stands : StandsFor (m.perform x).2 (m₀.perform y).2
  rate : (m.perform x).2.p1 = m.p1

/-- It does so wherever one memory stands for the other. -/
def Mirrors (x : MemoryEdit α) (y : Build α) : Prop := ∀ m m₀, StandsFor m m₀ → MirrorsAt m m₀ x y

theorem mirrors_pure (a : α) : Mirrors (pure a) (pure a) := fun _ _ h => ⟨rfl, h, rfl⟩

theorem mirrors_throw (e : CodeError) : Mirrors (throw e : MemoryEdit α) (throw e) := fun _ _ h => ⟨rfl, h, rfl⟩

/-- What comes after may count on what the action has left. -/
theorem MirrorsAt.bind {x : MemoryEdit α} {y : Build α} {f : α → MemoryEdit β} {g : α → Build β}
    (hx : MirrorsAt m m₀ x y)
    (hf : ∀ a m' m₀', m₀.perform y = (.ok a, m₀') → StandsFor m' m₀' → MirrorsAt m' m₀' (f a) (g a)) :
    MirrorsAt m m₀ (x >>= f) (y >>= g) := by
  obtain ⟨hresult, hstands, hrate⟩ := hx
  rcases hdone : m.perform x with ⟨r, m'⟩
  rcases hdone₀ : m₀.perform y with ⟨r₀, m₀'⟩
  rw [hdone, hdone₀] at hresult hstands
  rw [hdone] at hrate
  obtain rfl : r₀ = r := hresult
  cases r₀ with
  | error e =>
    have hfirst : m.perform (x >>= f) = (.error e, m') := by rw [perform_bind_eq, hdone]
    have hfirst₀ : m₀.perform (y >>= g) = (.error e, m₀') := by rw [Memory.perform_bind_eq, hdone₀]
    refine ⟨?_, ?_, ?_⟩
    · rw [hfirst, hfirst₀]
    · rwa [hfirst, hfirst₀]
    · rwa [hfirst]
  | ok a =>
    have hfirst : m.perform (x >>= f) = m'.perform (f a) := by rw [perform_bind_eq, hdone]
    have hfirst₀ : m₀.perform (y >>= g) = m₀'.perform (g a) := by rw [Memory.perform_bind_eq, hdone₀]
    obtain ⟨hresult', hstands', hrate'⟩ := hf a m' m₀' hdone₀ hstands
    refine ⟨?_, ?_, ?_⟩
    · rwa [hfirst, hfirst₀]
    · rwa [hfirst, hfirst₀]
    · rw [hfirst, hrate', hrate]

theorem mirrors_bind {x : MemoryEdit α} {y : Build α} {f : α → MemoryEdit β} {g : α → Build β} (hx : Mirrors x y)
    (hf : ∀ a, Mirrors (f a) (g a)) : Mirrors (x >>= f) (y >>= g) :=
  fun m m₀ h => (hx m m₀ h).bind fun a m' m₀' _ h' => hf a m' m₀' h'

theorem mirrorsAt_get {f : IndexedMemory → MemoryEdit α} {g : Memory → Build α} (hf : MirrorsAt m m₀ (f m) (g m₀)) :
    MirrorsAt m m₀ (get >>= f) (get >>= g) := ⟨hf.result, hf.stands, hf.rate⟩

/-- What comes after a reading may count on what is read. -/
theorem mirrors_get {f : IndexedMemory → MemoryEdit α} {g : Memory → Build α}
    (hf : ∀ m n, StandsFor m (m.memoryAt n) → MirrorsAt m (m.memoryAt n) (f m) (g (m.memoryAt n))) :
    Mirrors (get >>= f) (get >>= g) := by
  intro m m₀ h
  obtain ⟨n, rfl⟩ := h.exists_count
  exact mirrorsAt_get (hf m n h)

theorem mirrors_discard {x : MemoryEdit α} {y : Build α} (h : Mirrors x y) :
    Mirrors (discard x : MemoryEdit PUnit) (discard y) := by
  rw [discard_eq, discard_eq]
  exact mirrors_bind h fun _ => mirrors_pure _

theorem mirrors_forM {f : γ → MemoryEdit PUnit} {g : γ → Build PUnit} (h : ∀ x, Mirrors (f x) (g x)) (xs : List γ) :
    Mirrors (xs.forM f) (xs.forM g) := by
  induction xs with
  | nil => exact mirrors_pure _
  | cons x rest ih => exact mirrors_bind (h x) fun _ => ih

/-! ## Writes and tests -/

theorem mirrors_require (operation : String) (phases : List Phase) :
    Mirrors (require operation phases) (Build.require operation phases) := by
  refine mirrors_get fun m n h => ?_
  by_cases hphase : m.phase ∈ phases
  · rw [if_pos hphase, if_pos (show (m.memoryAt n).phase ∈ phases from hphase)]
    exact mirrors_pure () m _ h
  · rw [if_neg hphase, if_neg (show (m.memoryAt n).phase ∉ phases from hphase)]
    exact mirrors_throw _ m _ h

/-- Past a test of the phase the memory is what it was. -/
theorem mirrorsAt_require {operation : String} {phases : List Phase} {f : Unit → MemoryEdit α} {g : Unit → Build α}
    (h : StandsFor m m₀) (hf : ∀ m', StandsFor m' m₀ → MirrorsAt m' m₀ (f ()) (g ())) :
    MirrorsAt m m₀ (require operation phases >>= f) (Build.require operation phases >>= g) := by
  refine (mirrors_require operation phases m m₀ h).bind fun _ m' m₀' hdone h' => ?_
  by_cases hphase : m₀.phase ∈ phases
  · cases (Memory.perform_require hphase operation).symm.trans hdone
    exact hf m' h'
  · cases (Memory.perform_require_error hphase operation).symm.trans hdone

/-- The circuit is written as a whole or not at all. -/
theorem mirrors_grow (call : Circuit.Call) : Mirrors (grow call) (Build.grow (call.act ·)) := by
  refine mirrors_get fun m n h => ?_
  have hcircuit : call.act (m.memoryAt n).circuit = call.act m.circuit := rfl
  beta_reduce
  rw [Circuit.perform_edit, hcircuit]
  cases call.act m.circuit with
  | ok c => exact ⟨rfl, ⟨h.agrees, h.counter, rfl⟩, rfl⟩
  | error e => exact ⟨rfl, h, rfl⟩

/-- So is the ledger, with its index. -/
theorem mirrors_recordOne (round : Nat) (kind : MeasurementKind) (q : Qubit) :
    Mirrors (recordOne round kind q) (Build.recordOne round kind q) := by
  refine mirrors_get fun m n h => ?_
  have hledger : (m.memoryAt n).ledger = m.ledger.ledger := rfl
  have hagrees := h.agrees.call ⟨q, round, kind⟩
  rw [hledger, h.agrees.ledger_record ⟨q, round, kind⟩]
  rcases IndexedLedger.perform_record_cases m.ledger ⟨q, round, kind⟩ with ⟨-, hdone⟩ | ⟨-, hdone⟩
  · rw [hdone] at hagrees ⊢
    exact ⟨rfl, ⟨hagrees, h.counter, rfl⟩, rfl⟩
  · rw [hdone]
    exact ⟨rfl, h, rfl⟩

theorem mirrors_recordAll (qubits : List Qubit) (round : Nat) (kind : MeasurementKind) :
    Mirrors (recordAll qubits round kind) (Build.recordAll qubits round kind) :=
  mirrors_forM (mirrors_recordOne round kind) qubits

theorem mirrors_requireUnmeasured (qubits : List Qubit) (round : Nat) :
    Mirrors (requireUnmeasured qubits round) (Build.requireUnmeasured qubits round) := by
  refine mirrors_get fun m n h => ?_
  have hhas : (fun q => (m.memoryAt n).ledger.has q round) = fun q => m.ledger.has q round := by
    funext q
    exact h.agrees.ledger_has q round
  rw [hhas]
  cases qubits.find? fun q => m.ledger.has q round with
  | some q => exact mirrors_throw _ m _ h
  | none => exact mirrors_pure () m _ h

theorem resolve_memoryAt (h : m.ledger.Agrees) (n : Nat) (terms : List Term) :
    (m.memoryAt n).resolve terms = m.resolve terms :=
  List.filterMap_congr fun t _ => h.ledger_lookup? t.1 t.2

/-! ## Calls -/

theorem mirrors_depolarize1 (qubits : List Qubit) : Mirrors (depolarize1 qubits) (Build.depolarize1 qubits) := by
  refine mirrors_get fun m n h => ?_
  show MirrorsAt m _ _ (if m.p1.isPositive then Build.grow (·.depolarize1 m.p1 qubits) else pure ())
  split
  · exact mirrors_grow (.depolarize1 m.p1 qubits) m _ h
  · exact mirrors_pure () m _ h

theorem mirrors_depolarize2 (pairs : List (Qubit × Qubit)) : Mirrors (depolarize2 pairs) (Build.depolarize2 pairs) := by
  refine mirrors_get fun m n h => ?_
  show MirrorsAt m _ _ (if m.p2.isPositive then Build.grow (·.depolarize2 m.p2 pairs) else pure ())
  split
  · exact mirrors_grow (.depolarize2 m.p2 pairs) m _ h
  · exact mirrors_pure () m _ h

theorem mirrors_h (qubits : List Qubit) : Mirrors (h qubits) (Build.h qubits) := mirrors_grow (.gate .h qubits)

theorem mirrors_cx (pairs : List (Qubit × Qubit)) : Mirrors (cx pairs) (Build.cx pairs) :=
  mirrors_grow (.gatePairs .cx pairs)

theorem mirrors_tick : Mirrors tick Build.tick := mirrors_grow .tick

theorem mirrors_prepare (qubits : List Qubit) : Mirrors (prepare qubits) (Build.prepare qubits) :=
  mirrors_bind (mirrors_require _ _) fun _ => mirrors_bind (mirrors_grow (.reset qubits)) fun _ =>
    mirrors_depolarize1 qubits

/-- Both test for the same round as long as the word has not wrapped. -/
theorem mirrorsAt_beginRound (round : Nat) (h : StandsFor m m₀) (hbound : m₀.roundsStarted < 2 ^ 32) :
    MirrorsAt m m₀ (beginRound round) (Build.beginRound round) := by
  refine mirrorsAt_require h fun m' h' => mirrorsAt_get ?_
  rw [h'.toNat_counter hbound]
  obtain ⟨n, rfl⟩ := h'.exists_count
  split
  · exact ⟨rfl, h'.begin, rfl⟩
  · exact mirrors_throw _ m' _ h'

theorem mirrors_beginFinalize : Mirrors beginFinalize Build.beginFinalize := by
  refine mirrors_bind (mirrors_require _ _) fun _ m m₀ h => ?_
  obtain ⟨n, rfl⟩ := h.exists_count
  exact ⟨rfl, ⟨h.agrees, h.counter, rfl⟩, rfl⟩

theorem mirrors_measuring (operation : String) (phase : Phase) {call : List Qubit → Circuit.Call}
    {instruction : Instruction.Kind} (hcall : ∀ qubits c, (call qubits).act c = c.append ⟨instruction, qubits, []⟩)
    (qubits : List Qubit) (round : Nat) (kind : MeasurementKind) :
    Mirrors (measuring operation phase call qubits round kind)
      (Build.measuring operation phase instruction qubits round kind) := by
  have hgrow : Mirrors (grow (call qubits)) (Build.grow (·.append ⟨instruction, qubits, []⟩)) := by
    rw [← funext (hcall qubits)]
    exact mirrors_grow (call qubits)
  exact mirrors_bind (mirrors_require _ _) fun _ => mirrors_bind (mirrors_requireUnmeasured qubits round) fun _ =>
    mirrors_bind hgrow fun _ => mirrors_recordAll qubits round kind

theorem mirrors_detector (terms : List Term) : Mirrors (detector terms) (Build.detector terms) := by
  refine mirrors_bind (mirrors_require _ _) fun _ => mirrors_get fun m n h => ?_
  rw [resolve_memoryAt h.agrees]
  cases m.resolve terms with
  | nil => exact mirrors_pure false m _ h
  | cons r rest => exact mirrors_bind (mirrors_grow (.detector (r :: rest))) (fun _ => mirrors_pure true) m _ h

theorem mirrors_observable (index : Nat) (terms : List Term) :
    Mirrors (observable index terms) (Build.observable index terms) := by
  refine mirrors_bind (mirrors_require _ _) fun _ => mirrors_get fun m n h => ?_
  rw [resolve_memoryAt h.agrees]
  dsimp only
  split
  · exact mirrors_grow (.observable index (m.resolve terms)) m _ h
  · exact mirrors_throw _ m _ h

theorem mirrorsAt_finish (h : StandsFor m m₀) (hbound : m₀.roundsStarted < 2 ^ 32) :
    MirrorsAt m m₀ finish Build.finish := by
  refine mirrorsAt_require h fun m' h' => mirrorsAt_get ?_
  rw [h'.toNat_counter hbound]
  obtain ⟨n, rfl⟩ := h'.exists_count
  exact mirrors_pure _ m' _ h'

/-! ## A round -/

theorem mirrors_appendLayer (pairs : List (Qubit × Qubit)) : Mirrors (appendLayer pairs) (Layout.appendLayer pairs) :=
  mirrors_bind (mirrors_cx pairs) fun _ => mirrors_bind (mirrors_depolarize2 pairs) fun _ => mirrors_tick

theorem mirrors_appendDetector (l : Layout) (check : Qubit) (terms : List Term) :
    Mirrors (appendDetector l check terms) (l.appendDetector check terms) := by
  unfold appendDetector Layout.appendDetector
  split
  · exact mirrors_pure ()
  · exact mirrors_discard (mirrors_detector terms)

theorem mirrors_appendDetectors (l : Layout) (round : Nat) :
    Mirrors (appendDetectors l round) (l.appendDetectors round) := by
  cases round with
  | zero => exact mirrors_forM (fun check => mirrors_appendDetector l check _) _
  | succ r => exact mirrors_forM (fun check => mirrors_appendDetector l check _) _

theorem mirrors_roundBody (l : Layout) (round : Nat) : Mirrors (roundBody l round) (l.roundBody round) := by
  refine mirrors_bind (mirrors_h _) fun _ => mirrors_bind (mirrors_depolarize1 _) fun _ => ?_
  refine mirrors_bind (mirrors_forM mirrors_appendLayer l.layers) fun _ => ?_
  refine mirrors_bind (mirrors_depolarize1 _) fun _ => mirrors_bind (mirrors_h _) fun _ => ?_
  refine mirrors_bind (mirrors_depolarize1 _) fun _ => mirrors_bind (mirrors_depolarize1 _) fun _ => ?_
  exact mirrors_bind (mirrors_measuring _ _ (fun _ _ => rfl) _ _ _) fun _ => mirrors_appendDetectors l round

theorem mirrorsAt_appendRound (l : Layout) (round : Nat) (h : StandsFor m m₀) (hbound : m₀.roundsStarted < 2 ^ 32) :
    MirrorsAt m m₀ (appendRound l round) (l.appendRound round) := by
  rw [Layout.appendRound_eq, appendRound]
  refine (mirrorsAt_beginRound round h hbound).bind fun _ m' m₀' _ h' => ?_
  split
  · exact mirrors_roundBody l round m' m₀' h'
  · exact mirrors_bind (mirrors_depolarize1 _) (fun _ => mirrors_roundBody l round) m' m₀' h'

end IndexedMemory

/-- The call, on a memory that is kept in place. -/
def Memory.Call.edit : Memory.Call → MemoryEdit Unit
  | prepare qubits => IndexedMemory.prepare qubits
  | beginRound round => IndexedMemory.beginRound round
  | beginFinalize => IndexedMemory.beginFinalize
  | h qubits => IndexedMemory.h qubits
  | cx pairs => IndexedMemory.cx pairs
  | tick => IndexedMemory.tick
  | depolarize1 qubits => IndexedMemory.depolarize1 qubits
  | depolarize2 pairs => IndexedMemory.depolarize2 pairs
  | measureReset qubits round kind => IndexedMemory.measureReset qubits round kind
  | measure qubits round kind => IndexedMemory.measure qubits round kind
  | detector terms => discard (IndexedMemory.detector terms)
  | observable index terms => IndexedMemory.observable index terms
  | appendRound layout round => IndexedMemory.appendRound layout round

namespace IndexedMemory

variable {α : Type} {m m' : IndexedMemory} {m₀ : Memory}

theorem mirrorsAt_edit (call : Memory.Call) (h : StandsFor m m₀) (hbound : m₀.roundsStarted < 2 ^ 32) :
    MirrorsAt m m₀ call.edit call.action := by
  cases call with
  | prepare qubits => exact mirrors_prepare qubits m m₀ h
  | beginRound round => exact mirrorsAt_beginRound round h hbound
  | beginFinalize => exact mirrors_beginFinalize m m₀ h
  | h qubits => exact mirrors_h qubits m m₀ h
  | cx pairs => exact mirrors_cx pairs m m₀ h
  | tick => exact mirrors_tick m m₀ h
  | depolarize1 qubits => exact mirrors_depolarize1 qubits m m₀ h
  | depolarize2 pairs => exact mirrors_depolarize2 pairs m m₀ h
  | measureReset qubits round kind => exact mirrors_measuring _ _ (fun _ _ => rfl) qubits round kind m m₀ h
  | measure qubits round kind => exact mirrors_measuring _ _ (fun _ _ => rfl) qubits round kind m m₀ h
  | detector terms => exact mirrors_discard (mirrors_detector terms) m m₀ h
  | observable index terms => exact mirrors_observable index terms m m₀ h
  | appendRound layout round => exact mirrorsAt_appendRound layout round h hbound

theorem memory_bounded (m : IndexedMemory) : m.memory.roundsStarted < 2 ^ 32 := m.roundsStarted.toNat_lt

/-- The least memory that one in place stands for always counts below 2^32. -/
theorem mirrorsAt_memory (h : m.ledger.Agrees) (call : Memory.Call) : MirrorsAt m m.memory call.edit call.action :=
  mirrorsAt_edit call (.memory h) m.memory_bounded

/-! ## Runs -/

/-- The memory after calls in place, refused ones among them. -/
def edited (m : IndexedMemory) (calls : List Memory.Call) : IndexedMemory :=
  calls.foldl (fun m call => (m.perform call.edit).2) m

theorem edited_append (m : IndexedMemory) (early more : List Memory.Call) :
    m.edited (early ++ more) = (m.edited early).edited more := List.foldl_append

/-- The index stays right, and the rate what it was. -/
theorem edited_agrees (h : m.ledger.Agrees) (calls : List Memory.Call) :
    (m.edited calls).ledger.Agrees ∧ (m.edited calls).p1 = m.p1 := by
  induction calls generalizing m with
  | nil => exact ⟨h, rfl⟩
  | cons call rest ih =>
    have hcall := mirrorsAt_memory h call
    obtain ⟨hagrees, hrate⟩ := ih hcall.stands.agrees
    exact ⟨hagrees, hrate.trans hcall.rate⟩

theorem StandsFor.edited (h : StandsFor m m₀) (calls : List Memory.Call)
    (hbound : (m₀.after calls).roundsStarted < 2 ^ 32) : StandsFor (m.edited calls) (m₀.after calls) := by
  induction calls generalizing m m₀ with
  | nil => exact h
  | cons call rest ih =>
    have hbefore : m₀.roundsStarted < 2 ^ 32 := Nat.lt_of_le_of_lt (m₀.roundsStarted_le_after (call :: rest)) hbound
    exact ih (mirrorsAt_edit call h hbefore).stands hbound

/-- Calls in place are the calls on the memory by itself, if they begin less than 2^32 rounds. -/
theorem edited_memory (h : m.ledger.Agrees) (calls : List Memory.Call)
    (hbound : (m.memory.after calls).roundsStarted < 2 ^ 32) : (m.edited calls).memory = m.memory.after calls :=
  ((StandsFor.memory h).edited calls hbound).eq_memory hbound

/-- Where an action is settled, an edit that mirrors it and is refused writes nothing. -/
theorem MirrorsAt.unchanged {x : MemoryEdit α} {y : Build α} (hxy : MirrorsAt m m₀ x y) (h : StandsFor m m₀)
    (hy : m₀.Settled (m₀.perform y)) {e : CodeError} (hrefused : m.perform x = (.error e, m')) : m' = m := by
  obtain ⟨hresult, hstands, -⟩ := hxy
  rw [hrefused] at hresult hstands
  have hleft : (m₀.perform y).2 = m₀ := hy.unchanged hresult
  rw [hleft] at hstands
  exact hstands.unique h

/-- At rates that parameters may have, after any calls, a single call that is refused leaves the circuit with its
    counters, the ledger, the phase and the number of rounds as they were. -/
theorem refused_unchanged (name : String) (params : CodeParams) (hrate : params.depolarize1Rate.isProbability = true)
    (calls : List Memory.Call) {call : Memory.Call} (hsingle : call.isSingle = true) {e : CodeError} {m' : IndexedMemory}
    (hrefused : ((start name params).edited calls).perform call.edit = (.error e, m')) :
    m' = (start name params).edited calls := by
  obtain ⟨hagrees, hp1⟩ := edited_agrees (m := start name params) IndexedLedger.agrees_empty calls
  have husable : Memory.Usable ((start name params).edited calls).memory.p1 := by
    intro _
    rw [show ((start name params).edited calls).memory.p1 = ((start name params).edited calls).p1 from rfl, hp1]
    exact hrate
  exact (mirrorsAt_memory hagrees call).unchanged (.memory hagrees) (Memory.Call.settles hsingle husable) hrefused

/-- One of two qubits is measured in the round already, so neither is measured. -/
theorem refused_unchanged_measured :
    let m := (start "pair" ⟨1, .one, .one⟩).edited [.prepare [0, 1], .beginRound 0, .measureReset [1] 0 .check]
    ∃ m', m.perform (Memory.Call.measureReset [0, 1] 0 .check).edit =
      (.error (.circuit (.duplicateMeasurement 1 0)), m') ∧ m' = m := by
  intro m
  have hrefused : (m.perform (Memory.Call.measureReset [0, 1] 0 .check).edit).1 =
      .error (.circuit (.duplicateMeasurement 1 0)) := by decide +kernel
  have hrun : m.perform (Memory.Call.measureReset [0, 1] 0 .check).edit = (_, (m.perform _).2) := Prod.ext hrefused rfl
  exact ⟨_, hrun, refused_unchanged "pair" ⟨1, .one, .one⟩ (by decide) _ rfl hrun⟩

end IndexedMemory

end QuantumMemory

/-
  QuantumMemory.Proofs.Memory.Readings — outcomes read by their terms.

  A parity is the sum of the readings of its terms (`parity_of_read`), and readings are
  weighted sums of outcomes, so what errors change in them is found by pulling back
  (`readings_flips`). A detector has a site, the check and the round that it closes; round 0
  compares with the prepared state and the last site of a Z check with the final data.
-/

import QuantumMemory.Proofs.Memory.Addressing
import QuantumMemory.Proofs.Pauli.Spread

namespace QuantumMemory

/-! ## Readings -/

theorem weigh_zero (ts : List Term) (outcomes : List (ZMod 2)) : weigh (ts.map fun _ => 0) outcomes = 0 := by
  induction ts generalizing outcomes with
  | nil => simp [weigh]
  | cons t rest ih =>
    cases outcomes with
    | nil => simp
    | cons a outcomes => simpa [weigh] using ih outcomes

theorem weigh_add (ts : List Term) (f f' : Term → ZMod 2) (outcomes : List (ZMod 2)) :
    weigh (ts.map fun t => f t + f' t) outcomes = weigh (ts.map f) outcomes + weigh (ts.map f') outcomes := by
  induction ts generalizing outcomes with
  | nil => simp [weigh]
  | cons t rest ih =>
    cases outcomes with
    | nil => simp
    | cons a outcomes =>
      have hrest := ih outcomes
      simp only [weigh, List.map_cons, List.zipWith_cons_cons, List.sum_cons] at hrest ⊢
      rw [hrest]
      ring

/-- How often each term is listed, modulo two. -/
def countOf (ts : List Term) : Term → ZMod 2 := fun t => ts.count t

namespace Ledger

/-- The outcome of a term. -/
def reading (l : Ledger) (outcomes : List (ZMod 2)) (t : Term) : ZMod 2 :=
  weigh (l.terms.map fun t' => if t' = t then 1 else 0) outcomes

theorem weigh_at {ts : List Term} (hn : ts.Nodup) {outcomes : List (ZMod 2)} (hlen : outcomes.length = ts.length)
    {i : Nat} {t : Term} (h : ts[i]? = some t) :
    weigh (ts.map fun t' => if t' = t then 1 else 0) outcomes = outcomes[i]?.getD 0 := by
  induction ts generalizing outcomes i with
  | nil => simp at h
  | cons t' rest ih =>
    obtain ⟨ht', hrest⟩ := List.nodup_cons.mp hn
    cases outcomes with
    | nil => simp at hlen
    | cons a outcomes =>
      have hlen' : outcomes.length = rest.length := by simpa using hlen
      cases i with
      | zero =>
        simp only [List.getElem?_cons_zero, Option.some.injEq] at h
        subst h
        have hzero : (rest.map fun t'' => if t'' = t' then (1 : ZMod 2) else 0) = rest.map fun _ => 0 :=
          List.map_congr_left fun t'' ht'' => if_neg fun (he : t'' = t') => ht' (he ▸ ht'')
        have hw := weigh_zero rest outcomes
        rw [weigh, List.map_cons, hzero, List.zipWith_cons_cons, List.sum_cons, ← weigh, hw]
        simp
      | succ i =>
        simp only [List.getElem?_cons_succ] at h
        have hne : t' ≠ t := fun he => ht' (he ▸ List.mem_of_getElem? h)
        have hw := ih hrest hlen' h
        rw [weigh, List.map_cons, if_neg hne, List.zipWith_cons_cons, List.sum_cons, ← weigh, hw]
        simp

/-- A parity is the sum of the readings of its terms. -/
theorem parity_of_read {l : Ledger} (hn : l.terms.Nodup) {outcomes : List (ZMod 2)} (hlen : outcomes.length = l.length)
    {refs : List (Option Nat)} {ts : List Term} (h : l.read refs = ts.map some) :
    parity outcomes refs = (ts.map (l.reading outcomes)).sum := by
  induction refs generalizing ts with
  | nil =>
    cases ts with
    | nil => rfl
    | cons t rest => simp [read] at h
  | cons ref refs ih =>
    cases ts with
    | nil => simp [read] at h
    | cons t rest =>
      rw [read, List.map_cons, List.map_cons, List.cons.injEq] at h
      obtain ⟨i, rfl, ht⟩ := Option.bind_eq_some_iff.mp h.1
      rw [term?_eq] at ht
      have hone := weigh_at hn (by rw [hlen, length_terms]) ht
      rw [parity, List.map_cons, List.sum_cons, ← parity, ih h.2, List.map_cons, List.sum_cons, reading, hone]
      rfl

theorem parities_of_reads {l : Ledger} (hn : l.terms.Nodup) {outcomes : List (ZMod 2)}
    (hlen : outcomes.length = l.length) {detectors : List (List (Option Nat))} {terms : List (List Term)}
    (h : detectors.map l.read = terms.map (List.map some)) :
    detectors.map (parity outcomes) = terms.map fun ts => (ts.map (l.reading outcomes)).sum := by
  induction detectors generalizing terms with
  | nil =>
    cases terms with
    | nil => rfl
    | cons ts rest => simp at h
  | cons refs detectors ih =>
    cases terms with
    | nil => simp at h
    | cons ts rest =>
      rw [List.map_cons, List.map_cons, List.cons.injEq] at h
      rw [List.map_cons, List.map_cons, parity_of_read hn hlen h.1, ih h.2]

/-- Terms of readings that add up weigh as often as they are listed. -/
theorem sum_readings (l : Ledger) (outcomes : List (ZMod 2)) (ts : List Term) :
    (ts.map (l.reading outcomes)).sum = weigh (l.terms.map (countOf ts)) outcomes := by
  induction ts with
  | nil => exact (weigh_zero l.terms outcomes).symm
  | cons t rest ih =>
    rw [List.map_cons, List.sum_cons, ih, reading, ← weigh_add]
    refine congrArg (weigh · outcomes) (List.map_congr_left fun t' _ => ?_)
    rw [countOf, countOf, List.count_cons]
    by_cases h : t = t'
    · subst h
      simp [add_comm]
    · simp [h, Ne.symm h]

end Ledger

namespace Circuit

/-- How errors change the parity of each detector. -/
def detectorFlips (c : Circuit) (error : Nat → Pauli) : List (ZMod 2) := c.detectors.map (parity (c.flips error))

/-- How errors change the parity of each observable. -/
def observableFlips (c : Circuit) (error : Nat → Pauli) : List (Nat × ZMod 2) :=
  c.observables.map fun (index, refs) => (index, parity (c.flips error) refs)

end Circuit

/-! ## Errors at one place -/

/-- An error just before instruction `n`. -/
def errorAt (n : Nat) (f : Pauli) : Nat → Pauli := fun k => if k = n then f else 0

theorem weigh_flips_errorAt {n : Nat} {before after : List Instruction}
    (h : ∀ i ∈ before ++ after, ∀ q ∈ i.qubits, q < n) (w : List (ZMod 2)) (f : Pauli) :
    weigh w (flips (before ++ after) (errorAt before.length f) 0) =
      Pauli.pairing n f (pull after (w.drop (Circuit.measurementsOf before)) 0) := by
  rw [weigh_flips h, Pauli.pairing_zero_left, zero_add]
  cases after with
  | nil =>
    rw [pull, Pauli.pairing_zero_right]
    refine Finset.sum_eq_zero fun k hk => ?_
    rw [List.append_nil, Finset.mem_range] at hk
    rw [errorAt, if_neg (by omega), Pauli.pairing_zero_left]
  | cons i rest =>
    have hlt : before.length ∈ Finset.range (before ++ i :: rest).length := by
      rw [Finset.mem_range, List.length_append, List.length_cons]
      omega
    rw [Finset.sum_eq_single_of_mem _ hlt fun k _ hk => by rw [errorAt, if_neg hk, Pauli.pairing_zero_left], errorAt,
      if_pos rfl, List.drop_left, List.take_left]

namespace Layout

variable {g : Graph} {bases : List CheckBasis} {l : Layout}

/-! ## A memory acts on its own qubits -/

theorem kept_within {n : Nat} {i : Instruction} (h : ∀ q ∈ i.qubits, q < n) : ∀ i' ∈ i.kept, ∀ q ∈ i'.qubits, q < n := by
  intro i' hi'
  exact Instruction.eq_of_mem_kept hi' ▸ h

theorem noise1_within {n : Nat} (p : Binary64) {qubits : List Qubit} (h : ∀ q ∈ qubits, q < n) :
    ∀ i ∈ Memory.noise1 p qubits, ∀ q ∈ i.qubits, q < n := by
  unfold Memory.noise1
  split
  · exact kept_within h
  · exact fun _ hi => absurd hi List.not_mem_nil

theorem layerProgram_within {n : Nat} (p : Binary64) {pairs : List (Qubit × Qubit)} (h : ∀ q ∈ flattenPairs pairs, q < n) :
    ∀ i ∈ layerProgram p pairs, ∀ q ∈ i.qubits, q < n := by
  have hn : ∀ i ∈ Memory.noise2 p pairs, ∀ q ∈ i.qubits, q < n := by
    unfold Memory.noise2
    split
    · exact kept_within h
    · exact fun _ hi => absurd hi List.not_mem_nil
  refine List.forall_mem_append.mpr ⟨List.forall_mem_append.mpr ⟨kept_within h, hn⟩, ?_⟩
  exact List.forall_mem_singleton.mpr fun q hq => absurd hq List.not_mem_nil

theorem detectorsFor_within (n : Nat) (ledger : Ledger) (terms : List (List Term)) :
    ∀ i ∈ detectorsFor ledger terms, ∀ q ∈ i.qubits, q < n := by
  intro i hi
  obtain ⟨ts, -, hi⟩ := List.mem_flatMap.mp hi
  exact kept_within (fun q hq => absurd hq List.not_mem_nil) i hi

namespace Fits

variable (hf : Fits g bases l)

include hf

theorem layer_lt (hs : g.Sound) {layer : List (Qubit × Qubit)} (h : layer ∈ l.layers) :
    ∀ q ∈ flattenPairs layer, q < g.size := by
  intro q hq
  rw [hf.layers] at h
  obtain ⟨k, -, rfl⟩ := List.mem_map.mp h
  rcases List.mem_append.mp ((targets_perm _).mem_iff.mp hq) with hq | hq
  · obtain ⟨e, he, rfl⟩ := List.mem_map.mp hq
    exact hf.check_lt (hf.check_mem ((mem_events hs).mp he).2.2.1)
  · obtain ⟨e, he, rfl⟩ := List.mem_map.mp hq
    exact hf.data_lt (hf.event_data_mem hs he)

theorem extraction_within (hs : g.Sound) (p1 p2 : Binary64) (round : Nat) :
    ∀ i ∈ l.extraction p1 p2 round, ∀ q ∈ i.qubits, q < g.size := by
  have hall : ∀ q ∈ l.allChecks, q < g.size := fun q hq => hf.check_lt hq
  have hx : ∀ q ∈ l.checks .x, q < g.size := fun q hq => hf.check_lt (hf.checks_subset .x hq)
  have hidle : ∀ q ∈ l.idleData, q < g.size := by
    intro q hq
    rw [hf.idleData] at hq
    exact hf.data_lt (by rw [hf.data]; exact List.mem_of_mem_filter hq)
  have h0 : ∀ i ∈ (if round = 0 then [] else Memory.noise1 p1 l.allChecks), ∀ q ∈ i.qubits, q < g.size := by
    split
    · exact fun _ hi => absurd hi List.not_mem_nil
    · exact noise1_within _ hall
  have hlayers : ∀ i ∈ l.layers.flatMap (layerProgram p2), ∀ q ∈ i.qubits, q < g.size := by
    intro i hi
    obtain ⟨layer, hlayer, hi⟩ := List.mem_flatMap.mp hi
    exact layerProgram_within p2 (hf.layer_lt hs hlayer) i hi
  simp only [extraction, List.forall_mem_append]
  exact ⟨⟨⟨⟨⟨⟨⟨⟨h0, kept_within hx⟩, noise1_within _ hx⟩, hlayers⟩, noise1_within _ hidle⟩, kept_within hx⟩,
    noise1_within _ hx⟩, noise1_within _ hall⟩, kept_within hall⟩

theorem program_within (hs : g.Sound) (p1 p2 : Binary64) (rounds : Nat) :
    ∀ i ∈ l.program p1 p2 rounds, ∀ q ∈ i.qubits, q < g.size := by
  induction rounds with
  | zero =>
    have hall : ∀ q ∈ l.allQubits, q < g.size := fun q hq => hf.mem_allQubits.mp hq
    exact List.forall_mem_append.mpr ⟨kept_within hall, noise1_within _ hall⟩
  | succ n ih =>
    rw [program, roundProgram]
    simp only [List.forall_mem_append]
    exact ⟨ih, hf.extraction_within hs p1 p2 n, detectorsFor_within _ _ _⟩

/-- No instruction of a memory leaves the qubits of its graph. -/
theorem compiled_within (hs : g.Sound) (p1 p2 : Binary64) (rounds : Nat) (logical : List Qubit) :
    ∀ i ∈ l.program p1 p2 rounds ++ l.readout p1 rounds logical, ∀ q ∈ i.qubits, q < g.size := by
  have hdata : ∀ q ∈ l.data, q < g.size := fun q hq => hf.data_lt hq
  rw [readout]
  simp only [List.forall_mem_append]
  exact ⟨hf.program_within hs p1 p2 rounds, ⟨⟨noise1_within _ hdata, kept_within hdata⟩, detectorsFor_within _ _ _⟩,
    kept_within fun q hq => absurd hq List.not_mem_nil⟩

end Fits

/-! ## The readings of a memory -/

/-- The ledger of a memory names no outcome twice. -/
theorem terms_nodup (ht : l.Tidy) (rounds : Nat) : (l.finalLedger rounds).terms.Nodup := by
  rw [terms_finalLedger]
  refine List.nodup_append.mpr ⟨List.nodup_flatMap.mpr ⟨fun r _ => ?_, ?_⟩, ?_, ?_⟩
  · exact ht.allChecks.map fun c c' h => (Prod.mk.inj h).1
  · refine List.nodup_range.imp fun hne t ht ht' => ?_
    obtain ⟨c, -, rfl⟩ := List.mem_map.mp ht
    obtain ⟨c', -, he⟩ := List.mem_map.mp ht'
    exact hne (Prod.mk.inj he).2.symm
  · exact ht.data.map fun c c' h => (Prod.mk.inj h).1
  · intro t hmem t' hmem' he
    obtain ⟨r, hr, hmem⟩ := List.mem_flatMap.mp hmem
    obtain ⟨c, -, rfl⟩ := List.mem_map.mp hmem
    obtain ⟨q, -, rfl⟩ := List.mem_map.mp hmem'
    have hlt := List.mem_range.mp hr
    have heq : r = rounds := (Prod.mk.inj he).2
    omega

theorem length_finalLedger (rounds : Nat) (p1 p2 : Binary64) (logical : List Qubit) :
    Circuit.measurementsOf (l.program p1 p2 rounds ++ l.readout p1 rounds logical) = (l.finalLedger rounds).length := by
  rw [Circuit.measurementsOf_append, measurementsOf_program, ← length_measuredBy, measuredBy_readout, finalLedger,
    Ledger.length_enter, dataMeasurements, List.length_map]

theorem length_flips_compiled (name : String) (params : CodeParams) (rounds : Nat) (logical : List Qubit)
    (error : Nat → Pauli) :
    ((l.compiled name params rounds logical).circuit.flips error).length = (l.finalLedger rounds).length := by
  rw [Circuit.flips, length_flips, instructions_compiled, length_finalLedger]

section Parities

variable (ht : l.Tidy) (hr : l.InReach) (name : String) (params : CodeParams) {rounds : Nat} (hpos : 1 ≤ rounds)
  (logical : List Qubit) {outcomes : List (ZMod 2)} (hlen : outcomes.length = (l.finalLedger rounds).length)

include ht hr hpos hlen

/-- The parities of the detectors, by the terms that they compare. -/
theorem detector_parities : (l.compiled name params rounds logical).circuit.detectors.map (parity outcomes) =
    (l.detectorTerms rounds).map fun ts => (ts.map ((l.finalLedger rounds).reading outcomes)).sum :=
  Ledger.parities_of_reads (terms_nodup ht rounds) hlen (detectors_compiled ht hr name params hpos logical)

/-- The parity of the observable, by the final outcomes of the logical qubits. -/
theorem observable_parities (hlog : ∀ q ∈ logical, q ∈ l.data) :
    (l.compiled name params rounds logical).circuit.observables.map
        (fun (index, refs) => (index, parity outcomes refs)) =
      if logical = [] then []
      else [(0, (logical.map fun q => (l.finalLedger rounds).reading outcomes (q, rounds)).sum)] := by
  have hreads := observables_compiled ht hr name params hpos hlog
  by_cases he : logical = []
  · rw [if_pos he, List.map_eq_nil_iff] at hreads
    rw [if_pos he, hreads, List.map_nil]
  · rw [if_neg he] at hreads
    obtain ⟨⟨index, refs⟩, hone, hpair⟩ := List.map_eq_singleton_iff.mp hreads
    obtain ⟨rfl, hread⟩ := Prod.mk.inj hpair
    have hterms : (l.finalLedger rounds).read refs = (logical.map (·, rounds)).map some := by
      rw [List.map_map]
      exact hread
    have hparity := Ledger.parity_of_read (terms_nodup ht rounds) hlen hterms
    rw [List.map_map] at hparity
    rw [if_neg he, hone]
    exact congrArg (fun a => [(0, a)]) hparity

end Parities

/-- What an error just before a round changes in the readings of terms: its pairing with the
    operator that they measure there. -/
theorem readings_flips (hf : Fits g bases l) (hs : g.Sound) (ht : l.Tidy) (name : String) (params : CodeParams)
    (logical : List Qubit) {rounds r j : Nat} (h : r + j = rounds) (f : Pauli) (ts : List Term) :
    (ts.map ((l.finalLedger rounds).reading ((l.compiled name params rounds logical).circuit.flips
      (errorAt (l.program params.depolarize1Rate params.depolarize2Rate r).length f)))).sum =
      Pauli.pairing g.size f (l.startOp (countOf ts) rounds r j) := by
  have hwithin := hf.compiled_within hs params.depolarize1Rate params.depolarize2Rate rounds logical
  rw [Ledger.sum_readings, Circuit.flips, instructions_compiled]
  rw [program_rest _ _ _ _ h] at hwithin ⊢
  rw [weigh_flips_errorAt hwithin, measurementsOf_program, weights_rest _ _ h, pull_rest ht]

end Layout

end QuantumMemory

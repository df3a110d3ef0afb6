/-
  QuantumMemory.Proofs.Shor.Silence — a Shor memory without noise stays silent.

  A sum of outcomes is blockwise if the final outcomes of a block count alike. What it
  measures at the start of any round is then balanced (`startOp_balanced`): no X on ancillas,
  the same X on all qubits of a block, and an even number of Z on every block. A round keeps
  that (`Balanced.roundOp`), since its phase ancillas put X on whole blocks and get Z from
  whole blocks, and its bit-flip ancillas give Z to two qubits of a block at a time; the
  encoding makes an operator without X of it (`Balanced.encodedOp`). So nothing makes a
  blockwise sum uncertain, and the detectors and the observable are such sums
  (`shor_silent`).
-/

import QuantumMemory.Proofs.Memory.Silence
import QuantumMemory.Proofs.Shor.Addressing
import QuantumMemory.Proofs.Shor.Round

namespace QuantumMemory

namespace ShorCode

open Layout Memory

variable {c : ShorCode}

/-! ## Balanced operators -/

/-- No X on ancillas, the same X all over a block, and an even number of Z on it. -/
structure Balanced (c : ShorCode) (p : Pauli) : Prop where
  ancillas : ∀ a ∈ c.ancillas, p.x a = 0
  level : ∀ b < c.blocks, ∀ i < 3, ∀ j < 3, p.x (3 * b + i) = p.x (3 * b + j)
  even : ∀ b < c.blocks, ∑ i ∈ Finset.range 3, p.z (3 * b + i) = 0

/-- The final outcomes of a block count alike. -/
def Blockwise (c : ShorCode) (ω : Term → ZMod 2) (rounds : Nat) : Prop :=
  ∀ b < c.blocks, ∀ i < 3, ∀ j < 3, ω (3 * b + i, rounds) = ω (3 * b + j, rounds)

theorem data_mem {b i : Nat} (hb : b < c.blocks) (hi : i < 3) : 3 * b + i ∈ c.dataQubits :=
  c.mem_dataQubits.mpr (by omega)

theorem exists_ancilla {a : Qubit} (ha : a ∈ c.ancillas) :
    (∃ b < c.blocks, ∃ j < 2, a = c.bitFlipAncilla b j) ∨ ∃ b < c.blocks - 1, a = c.phaseAncilla b := by
  rcases List.mem_append.mp ha with ha | ha
  · obtain ⟨b, hb, ha⟩ := List.mem_flatMap.mp ha
    simp only [List.mem_cons, List.not_mem_nil, or_false] at ha
    rcases ha with rfl | rfl
    · exact .inl ⟨b, List.mem_range.mp hb, 0, by decide, rfl⟩
    · exact .inl ⟨b, List.mem_range.mp hb, 1, by decide, rfl⟩
  · obtain ⟨b, hb, rfl⟩ := List.mem_map.mp ha
    exact .inr ⟨b, List.mem_range.mp hb, rfl⟩

namespace Balanced

variable {p : Pauli} (h : c.Balanced p)

include h

/-- Two whole blocks have an even number of Z. -/
theorem even_pair {b : Nat} (hb : b < c.blocks - 1) : ∑ k ∈ Finset.range 6, p.z (3 * b + k) = 0 := by
  have hsecond := h.even (b + 1) (by omega)
  rw [Nat.mul_succ] at hsecond
  rw [show 6 = 3 + 3 from rfl, Finset.sum_range_add, h.even b (by omega), zero_add, ← hsecond]
  exact Finset.sum_congr rfl fun k _ => by rw [Nat.add_assoc]

theorem phased_level (s : Qubit → ZMod 2) {b i j : Nat} (hb : b < c.blocks) (hi : i < 3) (hj : j < 3) :
    (c.phased s p).x (3 * b + i) = (c.phased s p).x (3 * b + j) := by
  rw [x_phased_data hb hi, x_phased_data hb hj, h.level b hb i hi j hj]

theorem z_phased (s : Qubit → ZMod 2) {a : Qubit} (ha : a ∈ c.phaseAncillas) : (c.phased s p).z a = 0 := by
  obtain ⟨b, hb, rfl⟩ := List.mem_map.mp ha
  have hb := List.mem_range.mp hb
  rw [z_phased_phase hb, h.even_pair hb]

/-- A round keeps an operator balanced. -/
theorem roundOp (s : Qubit → ZMod 2) : c.Balanced (c.roundOp s p) where
  ancillas := by
    intro a ha
    rcases exists_ancilla ha with ⟨b, hb, j, hj, rfl⟩ | ⟨b, hb, rfl⟩
    · rw [x_roundOp_bitFlip hb hj, h.phased_level s hb (i := j) (j := j + 1) (by omega) (by omega),
        CharTwo.add_self_eq_zero]
    · rw [x_roundOp_phase hb, h.even_pair hb]
  level := by
    intro b hb i hi j hj
    rw [x_roundOp_data (data_mem hb hi), x_roundOp_data (data_mem hb hj), h.phased_level s hb hi hj]
  even := by
    intro b hb
    have hgiven : ∑ i ∈ Finset.range 3, ((if i < 2 then s (c.bitFlipAncilla b 0) else 0) +
        if 1 ≤ i then s (c.bitFlipAncilla b 1) else 0) = 0 := by
      simp only [Finset.sum_range_succ, Finset.sum_range_zero]
      norm_num
      linear_combination (s (c.bitFlipAncilla b 0) + s (c.bitFlipAncilla b 1)) * (CharTwo.two_eq_zero (R := ZMod 2))
    rw [Finset.sum_congr rfl fun i hi => z_roundOp_data (s := s) (p := p) hb (Finset.mem_range.mp hi),
      Finset.sum_add_distrib, h.even b hb, hgiven, add_zero]

/-- Before the encoding there is no X at all. -/
theorem encodedOp {q : Qubit} (hq : q ∈ List.range c.numQubits) : (c.encodedOp p).x q = 0 := by
  have hnum : (q : Nat) < 6 * c.blocks - 1 := List.mem_range.mp hq
  by_cases hdata : q ∈ c.dataQubits
  · have hlt := c.mem_dataQubits.mp hdata
    obtain ⟨b, i, hb, hi, rfl⟩ : ∃ b i : Nat, b < c.blocks ∧ i < 3 ∧ q = 3 * b + i :=
      ⟨q / 3, q % 3, Nat.div_lt_of_lt_mul hlt, Nat.mod_lt _ (by decide), (Nat.div_add_mod q 3).symm⟩
    obtain rfl | hi' : i = 0 ∨ i = 1 ∨ i = 2 := by omega
    · exact (x_encodedOp_leader hb).trans (h.even b hb)
    · have hlevel := h.level b hb i hi 0 (by decide)
      rw [x_encodedOp_follower hb hi', hlevel]
      exact CharTwo.add_self_eq_zero _
  · have ha : q ∈ c.ancillas := by
      have hge := mt c.mem_dataQubits.mpr hdata
      exact c.mem_ancillas.mpr ⟨Nat.le_of_not_lt hge, hnum⟩
    rw [x_encodedOp_ancilla ha, h.ancillas q ha]

end Balanced

/-! ## Blockwise sums -/

/-- What a blockwise sum measures is balanced before every round. -/
theorem startOp_balanced {ω : Term → ZMod 2} {rounds : Nat} (hω : c.Blockwise ω rounds) (r j : Nat) :
    c.Balanced (c.startOp ω rounds r j) := by
  induction j generalizing r with
  | zero =>
    have hdata : ∀ q ∈ c.dataQubits, (c.startOp ω rounds r 0).x q = ω (q, rounds) ∧ (c.startOp ω rounds r 0).z q = 0 := by
      intro q hq
      simp [startOp, Pauli.turn, Pauli.measuring, hq]
    refine ⟨fun a ha => ?_, fun b hb i hi j hj => ?_, fun b hb => ?_⟩
    · have hnot : a ∉ c.dataQubits := fun hq => c.data_ne_ancilla hq ha rfl
      simp [startOp, Pauli.turn, Pauli.measuring, hnot]
    · rw [(hdata _ (data_mem hb hi)).1, (hdata _ (data_mem hb hj)).1]
      exact hω b hb i hi j hj
    · exact Finset.sum_eq_zero fun i hi => (hdata _ (data_mem hb (Finset.mem_range.mp hi))).2
  | succ j ih => exact (ih (r + 1)).roundOp _

theorem blockwise_append {ts ts' : List Term} {rounds : Nat} (h : c.Blockwise (countOf ts) rounds)
    (h' : c.Blockwise (countOf ts') rounds) : c.Blockwise (countOf (ts ++ ts')) rounds := by
  intro b hb i hi j hj
  have hboth : ∀ t, countOf (ts ++ ts') t = countOf ts t + countOf ts' t := fun t => by simp [countOf]
  rw [hboth, hboth, h b hb i hi j hj, h' b hb i hi j hj]

/-- Outcomes that are not final count nowhere. -/
theorem blockwise_early {ts : List Term} {rounds : Nat} (h : ∀ t ∈ ts, t.2 < rounds) :
    c.Blockwise (countOf ts) rounds := by
  have hnone : ∀ q, countOf ts (q, rounds) = 0 := fun q => by
    rw [countOf, List.count_eq_zero.mpr fun hmem => Nat.lt_irrefl _ (h _ hmem), Nat.cast_zero]
  intro b _ i _ j _
  rw [hnone, hnone]

theorem blockwise_block (b rounds : Nat) : c.Blockwise (countOf ((block b).map (·, rounds))) rounds := by
  have hcount : ∀ b' i : Nat, i < 3 → countOf ((block b).map (·, rounds)) (3 * b' + i, rounds) = if b' = b then 1 else 0 := by
    intro b' i hi
    have hinj : Function.Injective fun q : Qubit => (q, rounds) := fun q q' he => (Prod.mk.inj he).1
    have hn : (block b).Nodup := by simp [block]
    have hmem : 3 * b' + i ∈ block b ↔ b' = b := by
      have hnum : 3 * b' + i = 3 * b ∨ 3 * b' + i = 3 * b + 1 ∨ 3 * b' + i = 3 * b + 2 ↔ b' = b := by omega
      simpa only [block, List.mem_cons, List.not_mem_nil, or_false] using hnum
    rw [countOf, List.count_map_of_injective _ _ hinj, hn.count, Nat.cast_ite, Nat.cast_one, Nat.cast_zero]
    exact if_congr hmem rfl rfl
  intro b' _ i hi j hj
  rw [hcount b' i hi, hcount b' j hj]

/-- The detectors are blockwise sums. -/
theorem blockwise_detector {rounds : Nat} (hpos : 1 ≤ rounds) {ts : List Term} (h : ts ∈ c.detectorTerms rounds) :
    c.Blockwise (countOf ts) rounds := by
  rcases List.mem_append.mp h with h | h
  · obtain ⟨r, hr, h⟩ := List.mem_flatMap.mp h
    have hr := List.mem_range.mp hr
    refine blockwise_early fun t ht => ?_
    cases r with
    | zero =>
      obtain ⟨a, -, rfl⟩ := List.mem_map.mp h
      rw [List.mem_singleton] at ht
      exact ht ▸ hr
    | succ r =>
      obtain ⟨a, -, rfl⟩ := List.mem_map.mp h
      simp only [List.mem_cons, List.not_mem_nil, or_false] at ht
      rcases ht with rfl | rfl
      · exact Nat.lt_of_succ_lt hr
      · exact hr
  · obtain ⟨b, -, rfl⟩ := List.mem_map.mp h
    rw [closingTerms, List.map_append]
    refine blockwise_append (blockwise_append (blockwise_block b rounds) (blockwise_block (b + 1) rounds)) ?_
    exact blockwise_early (List.forall_mem_singleton.mpr (Nat.sub_lt hpos (by decide)))

/-! ## Clean on the way -/

section Clean

variable {p1 p2 : Binary64} (h1 : p1.isPositive = false) (h2 : p2.isPositive = false)

include h1 h2

theorem clean_extraction (round : Nat) (s : Qubit → ZMod 2) (more : List (ZMod 2)) {p : Pauli} (hp : c.Balanced p) :
    CleanAlong (c.extraction p1 p2 round) (c.ancillas.map s ++ more) p := by
  have hm : ∀ p, pull (Instruction.measureReset c.ancillas).kept (c.ancillas.map s ++ more) p =
      p.measuring c.ancillas s := by
    intro p
    rw [pull_kept]
    exact Pauli.clear_weighted c.ancillas_nodup p s more
  simp only [extraction, noise1_eq_nil h1, ite_self, List.nil_append, List.append_nil, cleanAlong_append,
    Circuit.measurementsOf_append, measurementsOf_gate, measurementsOf_layers, Nat.add_zero, List.drop_zero,
    pull_hadamard c.phaseAncillas_nodup, pull_layers, hm]
  refine ⟨⟨⟨⟨clean_layers h2 c.bitFlipLayers_nodup _ _, cleanAlong_kept ⟨c.phaseAncillas_nodup, fun a ha => ?_⟩ _⟩,
    clean_layers h2 c.phaseLayers_nodup _ _⟩, cleanAlong_kept ⟨c.phaseAncillas_nodup, fun a ha => ?_⟩ _⟩,
    cleanAlong_kept ⟨c.ancillas_nodup, hp.ancillas⟩ _⟩
  · exact mul_eq_zero_of_right _ (hp.z_phased s ha)
  · have hancilla : a ∈ c.ancillas := List.mem_append_right _ ha
    exact mul_eq_zero_of_left (if_pos hancilla) _

theorem clean_rest {ω : Term → ZMod 2} {rounds : Nat} (hω : c.Blockwise ω rounds) {r j : Nat} (hj : r + j = rounds) :
    CleanAlong (c.rest p1 p2 rounds r j) (c.register.weights ω rounds r j) 0 := by
  induction j generalizing r with
  | zero =>
    have hdata : c.dataQubits.Nodup := List.nodup_range
    have hx : ∀ w q, (pull (Instruction.measure c.dataQubits).kept w 0).x q = 0 := by
      intro w q
      rw [pull_kept]
      exact add_zero 0
    rw [rest, readout, noise1_eq_nil h1, List.nil_append]
    refine cleanAlong_append.mpr ⟨cleanAlong_append.mpr ⟨cleanAlong_append.mpr
      ⟨cleanAlong_kept ⟨hdata, fun q _ => ?_⟩ _, cleanAlong_kept ⟨hdata, fun q _ => ?_⟩ _⟩,
      clean_detectorsFor _ _ _ _⟩, cleanAlong_kept ⟨List.nodup_nil, trivial⟩ _⟩
    · rw [pull_kept (Instruction.observable _ _), pull_detectorsFor]
      exact mul_eq_zero_of_left (hx _ q) _
    · rw [pull_kept, pull_detectorsFor]
      rfl
  | succ j ih =>
    have hdrop := weights_drop c.register ω rounds r j
    rw [register_allChecks] at hdrop
    rw [rest, roundProgram, cleanAlong_append, cleanAlong_append, Circuit.measurementsOf_append,
      measurementsOf_extraction, measurementsOf_detectorsFor]
    simp only [Nat.add_zero, hdrop, pull_rest, pull_detectorsFor]
    refine ⟨⟨?_, clean_detectorsFor _ _ _ _⟩, ih (by omega)⟩
    rw [weights, register_allChecks]
    exact clean_extraction h1 h2 r _ _ (startOp_balanced hω (r + 1) j)

theorem clean_encoding (w : List (ZMod 2)) {p : Pauli} (hp : c.Balanced p) : CleanAlong (c.encoding p1 p2) w p := by
  simp only [encoding, noise1_eq_nil h1, List.append_nil, cleanAlong_append, pull_hadamard c.leaders_nodup, pull_layers]
  refine ⟨⟨cleanAlong_kept ⟨List.nodup_range, fun q hq => hp.encodedOp hq⟩ _,
    cleanAlong_kept ⟨c.leaders_nodup, fun q hq => ?_⟩ _⟩, clean_layers h2 c.fanOutLayers_nodup _ _⟩
  -- What the Hadamard gate leaves as X on the first qubit of a block is the Z that the encoding left.
  obtain ⟨b, hb, rfl⟩ := mem_leaders.mp hq
  have hz := (x_encodedOp_leader (p := p) hb).trans (hp.even b hb)
  exact mul_eq_zero_of_right _ ((if_pos hq).symm.trans hz)

theorem clean_compiled {ω : Term → ZMod 2} {rounds : Nat} (hω : c.Blockwise ω rounds) :
    CleanAlong (c.program p1 p2 rounds ++ c.readout p1 rounds) ((c.register.finalLedger rounds).terms.map ω) 0 := by
  have hj : 0 + rounds = rounds := Nat.zero_add _
  have hw := weights_rest (l := c.register) ω rounds hj
  have hzero : (c.register.ledgerAfter 0).length = 0 := rfl
  have hm : Circuit.measurementsOf (c.encoding p1 p2) = 0 := by
    rw [← length_measuredBy, measuredBy_encoding]
    rfl
  rw [hzero, List.drop_zero] at hw
  rw [c.program_rest p1 p2 rounds hj, program, hw, cleanAlong_append, hm, List.drop_zero, pull_rest]
  exact ⟨clean_encoding h1 h2 _ (startOp_balanced hω 0 rounds), clean_rest h1 h2 hω hj⟩

end Clean

/-! ## Runs -/

/-- Noise comes only at positive rates. -/
theorem noiseless_compiled {p1 p2 : Binary64} (h1 : p1.isPositive = false) (h2 : p2.isPositive = false) (rounds : Nat) :
    ∀ i ∈ c.program p1 p2 rounds ++ c.readout p1 rounds, i.kind.isNoise = false ∧ i.qubits.Nodup := by
  have hdata : c.dataQubits.Nodup := List.nodup_range
  have hprogram : ∀ i ∈ c.program p1 p2 rounds, i.kind.isNoise = false ∧ i.qubits.Nodup := by
    induction rounds with
    | zero =>
      simp only [program, encoding, noise1_eq_nil h1, List.append_nil, List.forall_mem_append]
      exact ⟨⟨noiseless_kept ⟨rfl, List.nodup_range⟩, noiseless_kept ⟨rfl, c.leaders_nodup⟩⟩,
        noiseless_layers h2 c.fanOutLayers_nodup⟩
    | succ n ih =>
      have hturn := noiseless_kept (i := .gate .h c.phaseAncillas) ⟨rfl, c.phaseAncillas_nodup⟩
      simp only [program, roundProgram, extraction, noise1_eq_nil h1, ite_self, List.nil_append, List.append_nil,
        List.forall_mem_append]
      exact ⟨ih, ⟨⟨⟨⟨noiseless_layers h2 c.bitFlipLayers_nodup, hturn⟩, noiseless_layers h2 c.phaseLayers_nodup⟩, hturn⟩,
        noiseless_kept ⟨rfl, c.ancillas_nodup⟩⟩, noiseless_detectorsFor _ _⟩
  rw [readout, noise1_eq_nil h1, List.nil_append]
  simp only [List.forall_mem_append]
  exact ⟨hprogram, ⟨⟨noiseless_kept ⟨rfl, hdata⟩, noiseless_kept ⟨rfl, hdata⟩⟩, noiseless_detectorsFor _ _⟩,
    noiseless_kept ⟨rfl, List.nodup_nil⟩⟩

/-- Blockwise sums are zero in every run. -/
theorem weigh_blockwise {p1 p2 : Binary64} (h1 : p1.isPositive = false) (h2 : p2.isPositive = false)
    {ω : Term → ZMod 2} {rounds : Nat} (hω : c.Blockwise ω rounds) {ψ φ : Ket}
    {outcomes : List (ZMod 2)} (hψ : ψ ≠ 0) (h : Runs (c.program p1 p2 rounds ++ c.readout p1 rounds) ψ outcomes φ) :
    weigh ((c.register.finalLedger rounds).terms.map ω) outcomes = 0 := by
  refine h.weigh_eq (compiled_within p1 p2 rounds) (clean_compiled h1 h2 hω) hψ fun q hq => ?_
  have hmem : q ∈ List.range c.numQubits := List.mem_range.mpr hq
  rw [c.program_rest p1 p2 rounds (Nat.zero_add rounds), program, pull_append, pull_encoding]
  exact ⟨if_pos hmem, if_pos hmem⟩

/-- Without noise a Shor memory can run from every state, and whatever its measurements find, no
    detector fires, those of the first round included, and its one observable is zero. -/
theorem shor_silent {params : CodeParams} (hp : params.validate = .ok ()) (hthree : params.distance % 3 = 0)
    (hsize : 6 * params.distance < 2 ^ 31) (h1 : params.depolarize1Rate.isPositive = false)
    (h2 : params.depolarize2Rate.isPositive = false) {rounds : Nat} (hpos : 1 ≤ rounds) :
    ∃ c e, ShorCode.make params = .ok c ∧ c.buildMemory rounds = .ok e ∧
      (∀ a ∈ c.ancillas, ∃ refs ∈ e.circuit.detectors, e.ledger.read refs = [some (a, 0)]) ∧
      (∀ ψ : Ket, ψ ≠ 0 → ∃ outcomes φ, Runs e.circuit.instructions ψ outcomes φ) ∧
      ∀ (ψ φ : Ket) (outcomes : List (ZMod 2)), ψ ≠ 0 → Runs e.circuit.instructions ψ outcomes φ →
        (∀ refs ∈ e.circuit.detectors, parity outcomes refs = 0) ∧
          e.circuit.observables.map (fun (index, refs) => (index, parity outcomes refs)) = [(0, 0)] := by
  obtain ⟨hblocks, hmake⟩ := make_eq hp hthree
  obtain ⟨hu1, hu2⟩ := usable_of_validate hp
  set c : ShorCode := ⟨params⟩ with hc
  have hreach := c.register_inReach hsize
  have hquiet := noiseless_compiled (c := c) h1 h2 rounds
  refine ⟨c, c.compiled rounds, hmake, c.buildMemory_eq hsize hblocks hu1 hu2 hpos, fun a ha => ?_, ?_⟩
  · have hterm : [(a, 0)] ∈ c.detectorTerms rounds := List.mem_append_left _
      (List.mem_flatMap.mpr ⟨0, List.mem_range.mpr hpos, List.mem_map.mpr ⟨a, ha, rfl⟩⟩)
    obtain ⟨refs, hrefs, hread⟩ :=
      List.mem_map.mp (detectors_compiled hreach hpos ▸ List.mem_map_of_mem (f := List.map some) hterm)
    exact ⟨refs, hrefs, hread⟩
  · rw [instructions_compiled]
    refine ⟨fun ψ hψ => Runs.exists (fun i hi => (hquiet i hi).1) (fun i hi => (hquiet i hi).2) hψ, ?_⟩
    intro ψ φ outcomes hψ hruns
    have hlen : outcomes.length = (c.register.finalLedger rounds).length := by
      rw [hruns.length_eq, length_finalLedger]
    have hzero : ∀ {ts}, c.Blockwise (countOf ts) rounds →
        (ts.map ((c.register.finalLedger rounds).reading outcomes)).sum = 0 := fun hω => by
      rw [Ledger.sum_readings, weigh_blockwise h1 h2 hω hψ hruns]
    refine ⟨fun refs hrefs => ?_, ?_⟩
    · obtain ⟨ts, hts, he⟩ := List.mem_map.mp (detector_parities hreach hpos hlen ▸ List.mem_map_of_mem hrefs)
      rw [← he]
      exact hzero (blockwise_detector hpos hts)
    · exact (observable_parities hreach hpos hlen hblocks).trans
        (congrArg (fun a => [(0, a)]) (hzero (blockwise_block 0 rounds)))

/-- Three blocks over two rounds. -/
theorem shor_silent_three : ∃ c e, ShorCode.make ⟨3, .zero, .zero⟩ = .ok c ∧ c.buildMemory 2 = .ok e ∧
    (∀ a ∈ c.ancillas, ∃ refs ∈ e.circuit.detectors, e.ledger.read refs = [some (a, 0)]) ∧
    (∀ ψ : Ket, ψ ≠ 0 → ∃ outcomes φ, Runs e.circuit.instructions ψ outcomes φ) ∧
    ∀ (ψ φ : Ket) (outcomes : List (ZMod 2)), ψ ≠ 0 → Runs e.circuit.instructions ψ outcomes φ →
      (∀ refs ∈ e.circuit.detectors, parity outcomes refs = 0) ∧
        e.circuit.observables.map (fun (index, refs) => (index, parity outcomes refs)) = [(0, 0)] :=
  shor_silent (by rfl) (by decide) (by decide) (by decide) (by decide) (by decide)

end ShorCode

end QuantumMemory

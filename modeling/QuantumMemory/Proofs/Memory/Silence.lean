/-
  QuantumMemory.Proofs.Memory.Silence — a memory without noise stays silent.

  Let every X check and every Z check share an even number of data qubits that the one
  reaches before the other, and an even number the other way round. Then the detector of a
  site, pulled back to any round, has no X on checks (`x_site`): what data qubits pass on to
  a check adds up to such a number. Nothing else could make an outcome uncertain
  (`clean_compiled`), so in every run all detectors are zero, and the observable is if every
  X check has an even part of it (`memory_silent`). Detectors and observable are those that the
  memory declares with noise.
-/

import QuantumMemory.Proofs.Memory.Sites
import QuantumMemory.Proofs.Quantum.Runs

namespace QuantumMemory

/-- The data qubits of both checks that the first reaches before the second. -/
def Graph.sharedInOrder (g : Graph) (first second : Qubit) : List Qubit :=
  ((g.interactions first).filter fun i => (g.interactions second).any fun j => j.2 = i.2 ∧ i.1 < j.1).map (·.2)

namespace Layout

variable {g : Graph} {bases : List CheckBasis} {l : Layout}

/-! ## What checks share -/

theorem length_sharedInOrder {first second : Qubit} (h : g.isData first = false) (h' : g.isData second = false) :
    (g.sharedInOrder first second).length =
      ((g.links first).filter fun i => ∃ j ∈ g.links second, j.data = i.data ∧ i.order < j.order).length := by
  rw [Graph.sharedInOrder, Graph.interactions_check h, Graph.interactions_check h', List.length_map, List.filter_map,
    List.length_map]
  refine congrArg List.length (List.filter_congr fun i _ => Bool.eq_iff_iff.mpr ?_)
  simp

/-- Counted from either check, the data qubits that one reaches before the other are as many. -/
theorem length_later (hs : g.Sound) (c c' : Qubit) :
    ((g.links c).filter fun i => ∃ j ∈ g.links c', j.data = i.data ∧ j.order < i.order).length =
      ((g.links c').filter fun i => ∃ j ∈ g.links c, j.data = i.data ∧ i.order < j.order).length := by
  have hperm : (((g.links c).filter fun i => ∃ j ∈ g.links c', j.data = i.data ∧ j.order < i.order).map (·.data)).Perm
      (((g.links c').filter fun i => ∃ j ∈ g.links c, j.data = i.data ∧ i.order < j.order).map (·.data)) := by
    refine (List.perm_ext_iff_of_nodup ?_ ?_).mpr fun q => ?_
    · exact (List.filter_sublist.map _).nodup (hs.links_data_nodup c)
    · exact (List.filter_sublist.map _).nodup (hs.links_data_nodup c')
    · simp only [List.mem_map, List.mem_filter, decide_eq_true_eq]
      constructor
      · rintro ⟨i, ⟨hi, j, hj, hd, ho⟩, rfl⟩
        exact ⟨j, ⟨hj, i, hi, hd.symm, ho⟩, hd⟩
      · rintro ⟨i, ⟨hi, j, hj, hd, ho⟩, rfl⟩
        exact ⟨j, ⟨hj, i, hi, hd.symm, ho⟩, hd⟩
  have hlen := hperm.length_eq
  rwa [List.length_map, List.length_map] at hlen

theorem sum_indicator {α : Type} (xs : List α) (p : α → Prop) [DecidablePred p] :
    (xs.map fun a => if p a then (1 : ZMod 2) else 0).sum = ((xs.filter fun a => p a).length : ZMod 2) := by
  rw [sum_filter]
  simp

theorem sum_later {c c' : Qubit} (h : g.isData c = false) (h' : g.isData c' = false)
    (heven : Even (g.sharedInOrder c c').length) :
    ((g.links c).map fun i =>
      if ∃ j ∈ g.links c', j.data = i.data ∧ i.order < j.order then (1 : ZMod 2) else 0).sum = 0 := by
  rw [sum_indicator, ← length_sharedInOrder h h', ZMod.natCast_eq_zero_iff_even.mpr heven]

theorem sum_earlier (hs : g.Sound) {c c' : Qubit} (h : g.isData c = false) (h' : g.isData c' = false)
    (heven : Even (g.sharedInOrder c' c).length) :
    ((g.links c).map fun i =>
      if ∃ j ∈ g.links c', j.data = i.data ∧ j.order < i.order then (1 : ZMod 2) else 0).sum = 0 := by
  rw [sum_indicator, length_later hs, ← length_sharedInOrder h' h, ZMod.natCast_eq_zero_iff_even.mpr heven]

namespace Fits

variable (hf : Fits g bases l)

include hf

/-- No data qubit is reached twice at one order. -/
theorem order_ne (hs : g.Sound) {b b' : CheckBasis} {c c' : Qubit} (hc : c ∈ g.checkQubits b)
    (hc' : c' ∈ g.checkQubits b') (hne : c ≠ c') {i j : Link} (hi : i ∈ g.links c) (hj : j ∈ g.links c')
    (hd : j.data = i.data) : i.order ≠ j.order := by
  intro ho
  have hconflict := hf.noConflict i.order (mem_ordersOf.mpr ⟨c, i, hi, rfl⟩)
  have hmem : (b, c, i.data) ∈ atOrder g (groupsOf g bases) i.order :=
    (mem_atOrder hs).mpr ⟨(hf.basis_mem hc).2, hc, hi⟩
  have hmem' : (b', c', j.data) ∈ atOrder g (groupsOf g bases) i.order :=
    (mem_atOrder hs).mpr ⟨(hf.basis_mem hc').2, hc', ho ▸ hj⟩
  have heq := List.inj_on_of_nodup_map hconflict hmem hmem' hd.symm
  exact hne (Prod.mk.inj (Prod.mk.inj heq).2).1

/-- What another check shares it reaches later or earlier. -/
theorem shared_later_or_earlier (hs : g.Sound) {b b' : CheckBasis} {c c' : Qubit} (hc : c ∈ g.checkQubits b)
    (hc' : c' ∈ g.checkQubits b') (hne : c ≠ c') {i : Link} (hi : i ∈ g.links c) :
    (if ∃ j ∈ g.links c', j.data = i.data then (1 : ZMod 2) else 0) +
      (if ∃ j ∈ g.links c', j.data = i.data ∧ i.order < j.order then 1 else 0) =
      if ∃ j ∈ g.links c', j.data = i.data ∧ j.order < i.order then 1 else 0 := by
  by_cases hshared : ∃ j ∈ g.links c', j.data = i.data
  · have hall := hshared
    obtain ⟨j, hj, hd⟩ := hshared
    have hunique : ∀ j' ∈ g.links c', j'.data = i.data → j' = j := fun j' hj' hd' =>
      hs.link_data_inj hj' hj (hd'.trans hd.symm)
    have hlater : (∃ j' ∈ g.links c', j'.data = i.data ∧ i.order < j'.order) ↔ i.order < j.order :=
      ⟨fun ⟨j', hj', hd', ho⟩ => hunique j' hj' hd' ▸ ho, fun ho => ⟨j, hj, hd, ho⟩⟩
    have hearlier : (∃ j' ∈ g.links c', j'.data = i.data ∧ j'.order < i.order) ↔ j.order < i.order :=
      ⟨fun ⟨j', hj', hd', ho⟩ => hunique j' hj' hd' ▸ ho, fun ho => ⟨j, hj, hd, ho⟩⟩
    have ho := hf.order_ne hs hc hc' hne hi hj hd
    rw [if_pos hall]
    simp only [hlater, hearlier]
    by_cases hlt : i.order < j.order
    · rw [if_pos hlt, if_neg (by omega)]
      decide
    · rw [if_neg hlt, if_pos (by omega), add_zero]
  · have hlater : ¬∃ j ∈ g.links c', j.data = i.data ∧ i.order < j.order :=
      fun ⟨j, hj, hd, _⟩ => hshared ⟨j, hj, hd⟩
    have hearlier : ¬∃ j ∈ g.links c', j.data = i.data ∧ j.order < i.order :=
      fun ⟨j, hj, hd, _⟩ => hshared ⟨j, hj, hd⟩
    rw [if_neg hshared, if_neg hlater, if_neg hearlier, add_zero]

end Fits

/-- Every X check and every Z check share an even number of data qubits in either order. -/
def EvenlyShared (g : Graph) : Prop :=
  ∀ x ∈ g.checkQubits .x, ∀ z ∈ g.checkQubits .z,
    Even (g.sharedInOrder x z).length ∧ Even (g.sharedInOrder z x).length

/-- Weights whose operators never have X where a qubit is reset or measured. -/
structure Silent (l : Layout) (ω : Term → ZMod 2) (rounds : Nat) : Prop where
  checks : ∀ r j, r + j = rounds → ∀ c ∈ l.allChecks, (l.startOp ω rounds r j).x c = 0
  data : ∀ q ∈ l.data, (l.startOp ω rounds 0 rounds).x q = 0

/-! ## No X on checks -/

section Silent

variable (hf : Fits g bases l) (hs : g.Sound) (hb : bases.Nodup)

include hf hs hb

/-- The detector of a site has no X on checks before any round. -/
theorem x_site (heven : EvenlyShared g) {rounds : Nat} (hpos : 1 ≤ rounds) {c₀ : Qubit} {r₀ : Nat} {b₀ : CheckBasis}
    (hc₀ : c₀ ∈ g.checkQubits b₀) (hlast : r₀ = rounds → b₀ = .z) {c : Qubit} (hc : c ∈ l.allChecks) {r j : Nat}
    (hj : r + j = rounds) : (l.startOp (countOf (l.siteTerms rounds (c₀, r₀))) rounds r j).x c = 0 := by
  cases j with
  | zero => simp [startOp, Pauli.measuring]
  | succ j =>
    obtain ⟨b, hcb⟩ := hf.mem_allChecks.mp hc
    have hy := (hf.basis_mem hcb).1
    have hy' := CheckBasis.other_ne_y hy
    have hlt : r < rounds := by omega
    obtain ⟨-, hx⟩ := hf.roundOp_check hs hb hcb (fun c' => countOf (l.siteTerms rounds (c₀, r₀)) (c', r))
      (l.startOp (countOf (l.siteTerms rounds (c₀, r₀))) rounds (r + 1) j)
    have hsupport : ∀ q, q ∈ l.support c₀ ↔ ∃ i ∈ g.links c₀, i.data = q := by
      intro q
      rw [hf.support (hf.check_mem hc₀), List.mem_map]
    -- What a link passes on: the support from later rounds, and what this round adds after it.
    have hterm : ∀ i ∈ g.links c, (l.startOp (countOf (l.siteTerms rounds (c₀, r₀))) rounds (r + 1) j).bits b.other i.data +
        arrivals b.other (fun c' => countOf (l.siteTerms rounds (c₀, r₀)) (c', r)) (roundEvents g bases) (i.order + 1)
          i.data =
        (if b₀ = b.other ∧ r + 1 = r₀ ∧ ∃ i' ∈ g.links c₀, i'.data = i.data then 1 else 0) +
          if b₀ = b.other ∧ (r = r₀ ∨ r + 1 = r₀) ∧ ∃ i' ∈ g.links c₀, i'.data = i.data ∧ i.order < i'.order then 1
          else 0 := by
      intro i hi
      have hdata := hf.link_data_mem hs hi
      rw [bits_site hf hs hb hpos hc₀ hlast hy' hdata (by omega), hf.arrivals_one hs hb hc₀ (fun c' _ hne => by
        rw [countOf_site_check l hlt, if_neg fun h => hne h.1]), countOf_site_check l hlt]
      simp only [hsupport, true_and, Nat.succ_le_iff]
      by_cases h : r = r₀ ∨ r + 1 = r₀ <;> simp [h]
    rw [startOp, hx, List.map_congr_left hterm]
    by_cases hother : b₀ = b.other
    · have heven' : Even (g.sharedInOrder c c₀).length ∧ Even (g.sharedInOrder c₀ c).length := by
        subst hother
        cases b with
        | x => exact heven c hcb c₀ hc₀
        | y => exact absurd rfl hy
        | z => exact (heven c₀ hc₀ c hcb).symm
      have hne : c ≠ c₀ := by
        intro he
        subst he
        have hbb := Graph.basis_unique hcb hc₀
        rw [hother] at hbb
        cases b with
        | x => cases hbb
        | y => exact hy rfl
        | z => cases hbb
      have hdata := Graph.not_isData_of_check hcb
      have hdata₀ := Graph.not_isData_of_check hc₀
      by_cases h0 : r = r₀
      · subst h0
        have h1 : ¬r + 1 = r := by omega
        refine (congrArg List.sum (List.map_congr_left fun i _ => ?_)).trans (sum_later hdata hdata₀ heven'.1)
        simp only [hother, h1, true_and, false_and, true_or, if_false, zero_add]
      · by_cases h1 : r + 1 = r₀
        · refine (congrArg List.sum (List.map_congr_left fun i hi => ?_)).trans (sum_earlier hs hdata hdata₀ heven'.2)
          simp only [hother, h0, h1, true_and, false_or]
          exact hf.shared_later_or_earlier hs hcb hc₀ hne hi
        · simp [h0, h1]
    · simp [hother]

/-- The observable has no X on checks that hold an even part of it. -/
theorem x_logical {logical : List Qubit} (heven : ∀ c ∈ g.checkQubits .x, Even (logical.countP (· ∈ g.support c)))
    {rounds : Nat} {c : Qubit} (hc : c ∈ l.allChecks) {r j : Nat} (hj : r + j = rounds) :
    (l.startOp (countOf (logical.map (·, rounds))) rounds r j).x c = 0 := by
  cases j with
  | zero => simp [startOp, Pauli.measuring]
  | succ j =>
    obtain ⟨b, hcb⟩ := hf.mem_allChecks.mp hc
    have hy' := CheckBasis.other_ne_y (hf.basis_mem hcb).1
    have hlt : r < rounds := by omega
    obtain ⟨-, hx⟩ := hf.roundOp_check hs hb hcb (fun c' => countOf (logical.map (·, rounds)) (c', r))
      (l.startOp (countOf (logical.map (·, rounds))) rounds (r + 1) j)
    have hterm : ∀ i ∈ g.links c, (l.startOp (countOf (logical.map (·, rounds))) rounds (r + 1) j).bits b.other i.data +
        arrivals b.other (fun c' => countOf (logical.map (·, rounds)) (c', r)) (roundEvents g bases) (i.order + 1)
          i.data = if b.other = .z then (logical.count i.data : ZMod 2) else 0 := by
      intro i hi
      have hdata := hf.link_data_mem hs hi
      rw [bits_logical hf hs logical hy' hdata (by omega),
        arrivals_zero (fun e _ => countOf_logical_check logical hlt e.check), add_zero]
    rw [startOp, hx, List.map_congr_left hterm]
    cases b with
    | x =>
      have hdata := Graph.not_isData_of_check hcb
      have hcount : ((g.links c).map fun i => if CheckBasis.x.other = .z then (logical.count i.data : ZMod 2) else 0) =
          (g.support c).map fun q => (logical.count q : ZMod 2) := by
        rw [Graph.support_check hdata, List.map_map]
        rfl
      have hn : (g.support c).Nodup := by
        rw [Graph.support_check hdata]
        exact hs.links_data_nodup c
      rw [hcount, ← List.sum_toFinset _ hn, sum_count]
      simpa using ZMod.natCast_eq_zero_iff_even.mpr (heven c hcb)
    | y => simp [CheckBasis.other]
    | z => simp [CheckBasis.other]

theorem silent_site (heven : EvenlyShared g) {rounds : Nat} (hpos : 1 ≤ rounds) {site : Qubit × Nat}
    (h : site ∈ l.detectorSites rounds) : l.Silent (countOf (l.siteTerms rounds site)) rounds := by
  obtain ⟨-, b₀, hc₀, hends⟩ := hf.detectorSites_basis h
  have hlast : site.2 = rounds → b₀ = .z := fun he => hends (.inr he)
  refine ⟨fun r j hj c hc => x_site hf hs hb heven hpos hc₀ hlast hc hj, fun q hq => ?_⟩
  have hbits := bits_site hf hs hb hpos hc₀ hlast (by decide : CheckBasis.x ≠ .y) hq (Nat.zero_add rounds)
  refine hbits.trans (if_neg fun hall => ?_)
  have hz := hends (.inl hall.2.1.symm)
  rw [hall.1] at hz
  cases hz

theorem silent_logical {logical : List Qubit} (heven : ∀ c ∈ g.checkQubits .x, Even (logical.countP (· ∈ g.support c)))
    (rounds : Nat) : l.Silent (countOf (logical.map (·, rounds))) rounds :=
  ⟨fun _ _ hj _ hc => x_logical hf hs hb heven hc hj,
    fun _ hq => bits_logical hf hs logical (by decide : CheckBasis.x ≠ .y) hq (Nat.zero_add rounds)⟩

end Silent

/-! ## Clean on the way -/

theorem clean_detectorsFor (ledger : Ledger) (terms : List (List Term)) (w : List (ZMod 2)) (p : Pauli) :
    CleanAlong (detectorsFor ledger terms) w p := by
  induction terms generalizing w with
  | nil => exact trivial
  | cons ts rest ih =>
    rw [detectorsFor, List.flatMap_cons]
    exact cleanAlong_append.mpr ⟨cleanAlong_kept ⟨List.nodup_nil, trivial⟩ _, ih _⟩

theorem clean_layers {p2 : Binary64} (h2 : p2.isPositive = false) {layers : List (List (Qubit × Qubit))}
    (hn : ∀ layer ∈ layers, (flattenPairs layer).Nodup) (w : List (ZMod 2)) (p : Pauli) :
    CleanAlong (layers.flatMap (layerProgram p2)) w p := by
  induction layers generalizing w with
  | nil => exact trivial
  | cons pairs rest ih =>
    obtain ⟨hpairs, hrest⟩ := List.forall_mem_cons.mp hn
    rw [List.flatMap_cons, layerProgram, Memory.noise2_eq_nil h2, List.append_nil]
    refine cleanAlong_append.mpr ⟨cleanAlong_append.mpr ⟨cleanAlong_kept ⟨hpairs, trivial⟩ _, ?_⟩, ih hrest _⟩
    exact ⟨⟨List.nodup_nil, trivial⟩, trivial⟩

/-- A round without noise. -/
theorem extraction_noiseless {p1 : Binary64} (h1 : p1.isPositive = false) (p2 : Binary64) (round : Nat) :
    l.extraction p1 p2 round = (Instruction.gate .h (l.checks .x)).kept ++ (l.layers.flatMap (layerProgram p2) ++
      ((Instruction.gate .h (l.checks .x)).kept ++ (Instruction.measureReset l.allChecks).kept)) := by
  simp only [extraction, Memory.noise1_eq_nil h1, ite_self, List.nil_append, List.append_nil, List.append_assoc]

section Clean

variable (ht : l.Tidy) {p1 p2 : Binary64} (h1 : p1.isPositive = false) (h2 : p2.isPositive = false)
  (hsub : l.checks .x ⊆ l.allChecks)

include ht h1 h2 hsub

theorem clean_extraction (round : Nat) (s : Qubit → ZMod 2) (more : List (ZMod 2)) {p : Pauli}
    (hafter : ∀ c ∈ l.allChecks, p.x c = 0) (hbefore : ∀ c ∈ l.allChecks, (l.roundOp s p).x c = 0) :
    CleanAlong (l.extraction p1 p2 round) (l.allChecks.map s ++ more) p := by
  rw [extraction_noiseless h1]
  simp only [cleanAlong_append, pull_append, measurementsOf_gate, measurementsOf_layers, List.drop_zero, pull_turn ht,
    pull_layers, pull_measureReset ht]
  refine ⟨cleanAlong_kept ⟨ht.xChecks, fun c hc => ?_⟩ _, clean_layers h2 ht.layers _ _,
    cleanAlong_kept ⟨ht.xChecks, fun c hc => ?_⟩ _, cleanAlong_kept ⟨ht.allChecks, hafter⟩ _⟩
  · -- What turning leaves as X on a check is the Z that the interactions left.
    have hz := hbefore c (hsub hc)
    simp only [roundOp, Pauli.turn, if_pos (show c ∈ l.checks .x from hc)] at hz
    exact mul_eq_zero_of_right _ hz
  · exact mul_eq_zero_of_left (if_pos (hsub hc)) _

theorem clean_rest {ω : Term → ZMod 2} {rounds : Nat} (hω : l.Silent ω rounds) (logical : List Qubit) {r j : Nat}
    (hj : r + j = rounds) : CleanAlong (l.rest p1 p2 rounds logical r j) (l.weights ω rounds r j) 0 := by
  induction j generalizing r with
  | zero =>
    rw [rest, readout, Memory.noise1_eq_nil h1, List.nil_append]
    refine cleanAlong_append.mpr ⟨cleanAlong_append.mpr ⟨cleanAlong_kept ⟨ht.data, fun q _ => ?_⟩ _,
      clean_detectorsFor _ _ _ _⟩, cleanAlong_kept ⟨List.nodup_nil, trivial⟩ _⟩
    rw [pull_kept, pull_detectorsFor]
    rfl
  | succ j ih =>
    rw [rest, roundProgram, cleanAlong_append, cleanAlong_append, Circuit.measurementsOf_append,
      measurementsOf_extraction, measurementsOf_detectorsFor]
    simp only [Nat.add_zero, weights_drop, pull_rest ht, pull_detectorsFor]
    refine ⟨⟨?_, clean_detectorsFor _ _ _ _⟩, ih (by omega)⟩
    exact clean_extraction ht h1 h2 hsub r _ _ (hω.checks (r + 1) j (by omega)) (hω.checks r (j + 1) hj)

theorem clean_compiled {ω : Term → ZMod 2} {rounds : Nat} (hω : l.Silent ω rounds) (logical : List Qubit)
    (hall : ∀ q ∈ l.allQubits, q ∈ l.data ∨ q ∈ l.allChecks) :
    CleanAlong (l.program p1 p2 rounds ++ l.readout p1 rounds logical) ((l.finalLedger rounds).terms.map ω) 0 := by
  have hj : 0 + rounds = rounds := Nat.zero_add _
  have hw := weights_rest (l := l) ω rounds hj
  have hzero : (l.ledgerAfter 0).length = 0 := rfl
  rw [hzero, List.drop_zero] at hw
  have hm : Circuit.measurementsOf (Instruction.reset l.allQubits).kept = 0 := by
    rw [← length_measuredBy, measuredBy_kept]
    rfl
  rw [program_rest p1 p2 rounds logical hj, program, Memory.noise1_eq_nil h1, List.append_nil, hw, cleanAlong_append, hm,
    List.drop_zero, pull_rest ht]
  refine ⟨cleanAlong_kept ⟨ht.allQubits, fun q hq => ?_⟩ _, clean_rest ht h1 h2 hsub hω logical hj⟩
  rcases hall q hq with hd | hc
  · exact hω.data q hd
  · exact hω.checks 0 rounds hj q hc

/-- Silent weights add up to zero in every run. -/
theorem weigh_silent {n : Nat} {ω : Term → ZMod 2} {rounds : Nat} (hω : l.Silent ω rounds) (logical : List Qubit)
    (hall : ∀ q ∈ l.allQubits, q ∈ l.data ∨ q ∈ l.allChecks) (hn : ∀ q < n, q ∈ l.allQubits)
    (hwithin : ∀ i ∈ l.program p1 p2 rounds ++ l.readout p1 rounds logical, ∀ q ∈ i.qubits, q < n) {ψ φ : Ket}
    {outcomes : List (ZMod 2)} (hψ : ψ ≠ 0)
    (h : Runs (l.program p1 p2 rounds ++ l.readout p1 rounds logical) ψ outcomes φ) :
    weigh ((l.finalLedger rounds).terms.map ω) outcomes = 0 := by
  refine h.weigh_eq hwithin (clean_compiled ht h1 h2 hsub hω logical hall) hψ fun q hq => ?_
  have hj : 0 + rounds = rounds := Nat.zero_add _
  rw [program_rest p1 p2 rounds logical hj, program, Memory.noise1_eq_nil h1, List.append_nil, pull_append, pull_kept]
  have hmem := hn q hq
  simp [Instruction.pull, Instruction.reset, Pauli.clear, hmem]

end Clean

theorem noiseless_kept {i : Instruction} (h : i.kind.isNoise = false ∧ i.qubits.Nodup) :
    ∀ i' ∈ i.kept, i'.kind.isNoise = false ∧ i'.qubits.Nodup := by
  intro i' hi'
  exact Instruction.eq_of_mem_kept hi' ▸ h

theorem noiseless_detectorsFor (ledger : Ledger) (terms : List (List Term)) :
    ∀ i ∈ detectorsFor ledger terms, i.kind.isNoise = false ∧ i.qubits.Nodup := by
  intro i hi
  obtain ⟨ts, -, hi⟩ := List.mem_flatMap.mp hi
  exact noiseless_kept ⟨rfl, List.nodup_nil⟩ i hi

theorem noiseless_layers {p2 : Binary64} (h2 : p2.isPositive = false) {layers : List (List (Qubit × Qubit))}
    (hn : ∀ layer ∈ layers, (flattenPairs layer).Nodup) :
    ∀ i ∈ layers.flatMap (layerProgram p2), i.kind.isNoise = false ∧ i.qubits.Nodup := by
  intro i hi
  obtain ⟨layer, hlayer, hi⟩ := List.mem_flatMap.mp hi
  rw [layerProgram, Memory.noise2_eq_nil h2, List.append_nil] at hi
  rcases List.mem_append.mp hi with hi | hi
  · exact noiseless_kept ⟨rfl, hn layer hlayer⟩ i hi
  · exact List.mem_singleton.mp hi ▸ ⟨rfl, List.nodup_nil⟩

/-- Noise comes only at positive rates. -/
theorem noiseless_compiled {p1 p2 : Binary64} (h1 : p1.isPositive = false) (h2 : p2.isPositive = false) (ht : l.Tidy)
    (rounds : Nat) (logical : List Qubit) :
    ∀ i ∈ l.program p1 p2 rounds ++ l.readout p1 rounds logical, i.kind.isNoise = false ∧ i.qubits.Nodup := by
  have hprogram : ∀ i ∈ l.program p1 p2 rounds, i.kind.isNoise = false ∧ i.qubits.Nodup := by
    induction rounds with
    | zero =>
      rw [program, Memory.noise1_eq_nil h1, List.append_nil]
      exact noiseless_kept ⟨rfl, ht.allQubits⟩
    | succ n ih =>
      rw [program, roundProgram, extraction_noiseless h1]
      simp only [List.forall_mem_append]
      exact ⟨ih, ⟨noiseless_kept ⟨rfl, ht.xChecks⟩, noiseless_layers h2 ht.layers, noiseless_kept ⟨rfl, ht.xChecks⟩,
        noiseless_kept ⟨rfl, ht.allChecks⟩⟩, noiseless_detectorsFor _ _⟩
  rw [readout, Memory.noise1_eq_nil h1, List.nil_append]
  simp only [List.forall_mem_append]
  exact ⟨hprogram, ⟨noiseless_kept ⟨rfl, ht.data⟩, noiseless_detectorsFor _ _⟩, noiseless_kept ⟨rfl, List.nodup_nil⟩⟩

/-- Without noise a memory has the detectors and the observable that any memory has. It can run
    from every state, and whatever its measurements find, no detector fires; the observable is
    zero when every X check has an even part of it. -/
theorem memory_silent (hg : g.Built) (hsize : g.size < 2 ^ 30) (hb : bases.Nodup) {policy : BoundaryPolicy}
    (hl : Layout.ofGraph g bases policy = .ok l) (heven : EvenlyShared g) (name : String) {params : CodeParams}
    (hp : params.validate = .ok ()) (h1 : params.depolarize1Rate.isPositive = false)
    (h2 : params.depolarize2Rate.isPositive = false) {rounds : Nat} (hpos : 1 ≤ rounds) {logical : List Qubit}
    (hlog : ∀ q ∈ logical, q ∈ g.dataQubits) :
    ∃ e, l.buildMemory name params rounds logical = .ok e ∧
      e.circuit.detectors.map e.ledger.read = (l.detectorTerms rounds).map (List.map some) ∧
      (e.circuit.observables.map fun o => (o.1, e.ledger.read o.2)) =
        (if logical = [] then [] else [(0, logical.map fun q => some (q, rounds))]) ∧
      (∀ ψ : Ket, ψ ≠ 0 → ∃ outcomes φ, Runs e.circuit.instructions ψ outcomes φ) ∧
      ∀ (ψ φ : Ket) (outcomes : List (ZMod 2)), ψ ≠ 0 → Runs e.circuit.instructions ψ outcomes φ →
        (∀ refs ∈ e.circuit.detectors, parity outcomes refs = 0) ∧
        ((∀ c ∈ g.checkQubits .x, Even (logical.countP (· ∈ g.support c))) →
          ∀ o ∈ e.circuit.observables, parity outcomes o.2 = 0) := by
  have hf := ofGraph_ok hl
  have hs := hg.sound
  have ht := hf.tidy hs hb
  have hreach := hf.inReach hb hsize
  obtain ⟨hu1, hu2⟩ := usable_of_validate hp
  have hlog' : ∀ q ∈ logical, q ∈ l.data := by rw [hf.data]; exact hlog
  have hwithin := hf.compiled_within hs params.depolarize1Rate params.depolarize2Rate rounds logical
  have hall : ∀ q ∈ l.allQubits, q ∈ l.data ∨ q ∈ l.allChecks := fun q hq => hf.data_or_check (hf.mem_allQubits.mp hq)
  have hn : ∀ q < g.size, q ∈ l.allQubits := fun q hq => hf.mem_allQubits.mpr hq
  refine ⟨_, buildMemory_eq ht hreach name hu1 hu2 hpos hlog', detectors_compiled ht hreach _ _ hpos _,
    observables_compiled ht hreach _ _ hpos hlog', ?_⟩
  rw [instructions_compiled]
  have hquiet := noiseless_compiled h1 h2 ht rounds logical
  refine ⟨fun ψ hψ => Runs.exists (fun i hi => (hquiet i hi).1) (fun i hi => (hquiet i hi).2) hψ, ?_⟩
  intro ψ φ outcomes hψ hruns
  have hlen : outcomes.length = (l.finalLedger rounds).length := by rw [hruns.length_eq, length_finalLedger]
  have hzero : ∀ {ts}, l.Silent (countOf ts) rounds → (ts.map ((l.finalLedger rounds).reading outcomes)).sum = 0 :=
    fun hω => by rw [Ledger.sum_readings, weigh_silent ht h1 h2 (hf.checks_subset .x) hω logical hall hn hwithin hψ hruns]
  refine ⟨fun refs hrefs => ?_, fun hobs o ho => ?_⟩
  · have hparity := detector_parities ht hreach name params hpos logical hlen
    rw [detectorTerms_eq l hpos, List.map_map] at hparity
    obtain ⟨site, hsite, he⟩ := List.mem_map.mp (hparity ▸ List.mem_map_of_mem hrefs)
    rw [← he]
    exact hzero (silent_site hf hs hb heven hpos hsite)
  · have hparity := observable_parities ht hreach name params hpos logical hlen hlog'
    have hmem := hparity ▸ List.mem_map_of_mem ho
    have hsum := hzero (silent_logical hf hs hb hobs rounds)
    rw [List.map_map] at hsum
    split at hmem
    · cases hmem
    · rw [List.mem_singleton] at hmem
      exact (Prod.mk.inj hmem).2.trans hsum

/-- A Bell pair over two rounds, with the product of both Z as its observable. -/
theorem memory_silent_bellPair :
    ∃ e, bellLayout.buildMemory "bell" ⟨1, .zero, .zero⟩ 2 [0, 1] = .ok e ∧
      e.circuit.detectors.map e.ledger.read =
        [[some (2, 0)], [some (2, 0), some (2, 1)], [some (3, 0), some (3, 1)],
          [some (0, 2), some (1, 2), some (2, 1)]] ∧
      (e.circuit.observables.map fun o => (o.1, e.ledger.read o.2)) = [(0, [some (0, 2), some (1, 2)])] ∧
      (∀ ψ : Ket, ψ ≠ 0 → ∃ outcomes φ, Runs e.circuit.instructions ψ outcomes φ) ∧
      ∀ (ψ φ : Ket) (outcomes : List (ZMod 2)), ψ ≠ 0 → Runs e.circuit.instructions ψ outcomes φ →
        (∀ refs ∈ e.circuit.detectors, parity outcomes refs = 0) ∧
          ∀ o ∈ e.circuit.observables, parity outcomes o.2 = 0 := by
  have heven : EvenlyShared bellPair := by
    unfold EvenlyShared
    decide
  obtain ⟨e, hbuild, hdeclared, hlisted, hruns, hsilent⟩ := memory_silent bellPair_built (by decide) (by decide)
    bellLayout_ok heven "bell" (by rfl : CodeParams.validate ⟨1, .zero, .zero⟩ = .ok ()) (by decide) (by decide)
    (by decide : 1 ≤ 2) (by decide : ∀ q ∈ [0, 1], _)
  refine ⟨e, hbuild, hdeclared, hlisted, hruns, fun ψ φ outcomes hψ h => ?_⟩
  obtain ⟨hdetectors, hobservable⟩ := hsilent ψ φ outcomes hψ h
  exact ⟨hdetectors, hobservable (by decide)⟩

end Layout

end QuantumMemory

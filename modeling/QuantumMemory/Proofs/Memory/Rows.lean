/-
  QuantumMemory.Proofs.Memory.Rows — data in rows, and what a fault does to them.

  The final outcomes of a row of data qubits, pulled back, are Z on the row before every
  round, and nothing on the checks that are measured there. Within a round an X check has Z
  as well, as often as its interactions still to come reach the row (`toRow`). A fault meets
  two rows only through a check whose interactions still to come reach both an odd number of
  times; where the orders rule that out (`HooksInRow`), it meets one at most: in a layer of
  interactions (`narrow_layers`) and so in all that a round does (`narrow_extraction`).
-/

import QuantumMemory.Proofs.Memory.Sites
import QuantumMemory.Proofs.Pauli.Faults

namespace QuantumMemory

namespace Layout

variable {g : Graph} {bases : List CheckBasis} {l : Layout} {row : Qubit → Nat}

/-- The data qubits of a row. -/
def rowOf (l : Layout) (row : Qubit → Nat) (ρ : Nat) : List Qubit := l.data.filter fun q => row q = ρ

/-- How many of a check's interactions at order `k` and later reach a row, modulo two. -/
def toRow (g : Graph) (row : Qubit → Nat) (c : Qubit) (k ρ : Nat) : ZMod 2 :=
  ((g.links c).map fun i => if k ≤ i.order ∧ row i.data = ρ then 1 else 0).sum

/-- The later interactions of an X check reach one row an odd number of times, or none. -/
def HooksInRow (g : Graph) (row : Qubit → Nat) : Prop :=
  ∀ c ∈ g.checkQubits .x, ∀ k, ∃ ρ₀, ∀ ρ, ρ ≠ ρ₀ → toRow g row c k ρ = 0

/-- On data the operator is Z on a row. -/
def OnRow (l : Layout) (row : Qubit → Nat) (ρ : Nat) (p : Pauli) : Prop :=
  ∀ q ∈ l.data, p.x q = 0 ∧ p.z q = if row q = ρ then 1 else 0

/-- An interaction counts from its own order on and not after it. -/
theorem toRow_link (hs : g.Sound) (row : Qubit → Nat) {c : Qubit} {i : Link} (hi : i ∈ g.links c) (ρ : Nat) :
    toRow g row c i.order ρ = toRow g row c (i.order + 1) ρ + if row i.data = ρ then 1 else 0 := by
  have hpair : (g.links c).Pairwise fun a b =>
      ¬((a.order = i.order ∧ row a.data = ρ) ∧ b.order = i.order ∧ row b.data = ρ) :=
    (List.pairwise_map.mp (hs.links_orders_nodup c)).imp fun hne h => hne (h.1.1.trans h.2.1.symm)
  have hone := sum_at_most_one hpair 1
  have hex : (∃ a ∈ g.links c, a.order = i.order ∧ row a.data = ρ) ↔ row i.data = ρ := by
    constructor
    · intro h
      obtain ⟨a, ha, ho, hr⟩ := h
      rwa [hs.link_order_inj ha hi ho] at hr
    · intro h
      exact ⟨i, hi, rfl, h⟩
  rw [if_congr hex rfl rfl] at hone
  rw [toRow, toRow, ← hone, ← List.sum_map_add]
  refine congrArg List.sum (List.map_congr_left fun a _ => ?_)
  by_cases hr : row a.data = ρ
  · rcases Nat.lt_trichotomy a.order i.order with h | h | h
    · have h1 : ¬i.order ≤ a.order := by omega
      have h2 : ¬i.order + 1 ≤ a.order := by omega
      have h3 : a.order ≠ i.order := by omega
      simp [h1, h2, h3]
    · simp [h, hr]
    · have h1 : i.order ≤ a.order := by omega
      have h2 : i.order + 1 ≤ a.order := by omega
      have h3 : a.order ≠ i.order := by omega
      simp [h1, h2, h3, hr]
  · simp [hr]

/-! ## Rows before a round -/

section Rounds

variable (hf : Fits g bases l) (hs : g.Sound) (row)

include hf hs

/-- Before every round the outcomes of a row are Z on it. -/
theorem startOp_onRow (ρ : Nat) {rounds r j : Nat} (hj : r + j = rounds) :
    OnRow l row ρ (l.startOp (countOf ((l.rowOf row ρ).map (·, rounds))) rounds r j) := by
  intro q hq
  have hx := bits_logical hf hs (l.rowOf row ρ) (by decide : CheckBasis.x ≠ .y) hq hj
  have hz := bits_logical hf hs (l.rowOf row ρ) (by decide : CheckBasis.z ≠ .y) hq hj
  have hcount : ((l.rowOf row ρ).count q : ZMod 2) = if row q = ρ then 1 else 0 := by
    rw [rowOf, (hf.data_nodup.filter _).count]
    by_cases h : row q = ρ <;> simp [h, hq]
  rw [if_neg (by decide)] at hx
  rw [if_pos rfl, hcount] at hz
  exact ⟨hx, hz⟩

omit hf hs in
theorem rowWeights_check (ρ : Nat) {rounds r : Nat} (hr : r < rounds) :
    (fun c => countOf ((l.rowOf row ρ).map (·, rounds)) (c, r)) = fun _ => 0 :=
  funext fun c => countOf_logical_check _ hr c

/-- Before a round the checks have no Z, and X checks have X as their interactions reach the row. -/
theorem roundOp_row (hb : bases.Nodup) {ρ : Nat} {p : Pauli} (hp : OnRow l row ρ p) {b : CheckBasis} {c : Qubit}
    (hc : c ∈ g.checkQubits b) :
    (l.roundOp (fun _ => 0) p).z c = 0 ∧
      (l.roundOp (fun _ => 0) p).x c = if b = .x then toRow g row c 0 ρ else 0 := by
  obtain ⟨hz, hx⟩ := hf.roundOp_check hs hb hc (fun _ => 0) p
  refine ⟨hz, hx.trans ?_⟩
  cases b with
  | x =>
    rw [if_pos rfl, toRow]
    refine congrArg List.sum (List.map_congr_left fun i hi => ?_)
    rw [arrivals_none, add_zero]
    refine (hp i.data (hf.link_data_mem hs hi)).2.trans ?_
    simp
  | y => exact absurd rfl (hf.basis_mem hc).1
  | z =>
    rw [if_neg (by decide)]
    refine List.sum_eq_zero fun a ha => ?_
    obtain ⟨i, hi, rfl⟩ := List.mem_map.mp ha
    rw [arrivals_none, add_zero]
    exact (hp i.data (hf.link_data_mem hs hi)).1

end Rounds

/-! ## Rows within a round -/

section Interactions

variable (hf : Fits g bases l) (hs : g.Sound)

include hf hs

/-- Data qubits keep their row through the interactions. -/
theorem interact_onRow {ρ : Nat} {p : Pauli} (hp : OnRow l row ρ p) (orders : List Nat) :
    OnRow l row ρ (interact ((events g bases orders).map Event.pair) (l.opened (fun _ => 0) p)) := by
  intro q hq
  have hx := hf.bits_interact_data hs (by decide : CheckBasis.x ≠ .y) hq (fun _ => 0) p orders
  have hz := hf.bits_interact_data hs (by decide : CheckBasis.z ≠ .y) hq (fun _ => 0) p orders
  rw [arrivals_none, add_zero] at hx hz
  exact ⟨hx.trans (hp q hq).1, hz.trans (hp q hq).2⟩

/-- With the orders after `k` still to come, Z checks have nothing, and X checks have Z as those
    interactions reach the row. -/
theorem interact_check (hb : bases.Nodup) {ρ : Nat} {p : Pauli} (hp : OnRow l row ρ p) {past orders : List Nat} {k : Nat}
    (hpast : ∀ m ∈ past, m < k) (hlater : ∀ m ∈ orders, k ≤ m) (hsplit : past ++ orders = ordersOf g) {b : CheckBasis}
    {c : Qubit} (hc : c ∈ g.checkQubits b) :
    (interact ((events g bases orders).map Event.pair) (l.opened (fun _ => 0) p)).x c = 0 ∧
      (interact ((events g bases orders).map Event.pair) (l.opened (fun _ => 0) p)).z c =
        if b = .x then toRow g row c k ρ else 0 := by
  have hascend := ordersOf_ascend g
  rw [← hsplit] at hascend
  have ho := (List.pairwise_append.mp hascend).2.1
  have hsub : ∀ m ∈ orders, m ∈ ordersOf g := fun m hm => hsplit ▸ List.mem_append_right _ hm
  obtain ⟨hown, hother⟩ := hf.bits_interact_check hs hc (fun _ => 0) p ho hsub
  rw [sum_events_check hs hb (ho.imp Nat.ne_of_lt) (hf.basis_mem hc).2 hc] at hother
  simp only [arrivals_none, add_zero] at hother
  have hmem : ∀ i ∈ g.links c, i.order ∈ orders ↔ k ≤ i.order := by
    intro i hi
    have hi' : i.order ∈ past ++ orders := hsplit ▸ mem_ordersOf.mpr ⟨c, i, hi, rfl⟩
    constructor
    · exact hlater i.order
    · intro hle
      rcases List.mem_append.mp hi' with h | h
      · have hlt := hpast _ h
        omega
      · exact h
  cases b with
  | x =>
    refine ⟨hown, hother.trans ?_⟩
    rw [if_pos rfl, toRow, ← sum_filter]
    refine congrArg List.sum (List.map_congr_left fun i hi => ?_)
    have hz : p.bits CheckBasis.x.other i.data = if row i.data = ρ then 1 else 0 :=
      (hp i.data (hf.link_data_mem hs hi)).2
    rw [hz]
    by_cases h : k ≤ i.order
    · simp [(hmem i hi).mpr h, h]
    · simp [mt (hmem i hi).mp h, h]
  | y => exact absurd rfl (hf.basis_mem hc).1
  | z =>
    rw [if_neg (by decide)]
    refine ⟨hother.trans (List.sum_eq_zero fun a ha => ?_), hown⟩
    obtain ⟨i, hi, rfl⟩ := List.mem_map.mp ha
    exact (hp i.data (hf.link_data_mem hs (List.mem_of_mem_filter hi))).1

end Interactions

/-! ## Noise meets one row -/

section Noise

variable {n : Nat} {w : Nat → List (ZMod 2)} {ops : Nat → Pauli}

theorem narrow_kept {i : Instruction} (h : i.kind.isNoise = false) : Along (Narrow n) i.kept w ops :=
  along_kept (narrow_of_quiet h ops)

/-- Noise on single qubits that meet one operator each. -/
theorem narrow_noise1 (r : Binary64) {qubits : List Qubit}
    (h : ∀ q ∈ qubits, ∃ k₀, ∀ k, k ≠ k₀ → (ops k).x q = 0 ∧ (ops k).z q = 0) :
    Along (Narrow n) (Memory.noise1 r qubits) w ops := by
  unfold Memory.noise1
  split
  · refine along_kept fun f hf => ?_
    obtain ⟨-, q, hq, honly⟩ := hf
    obtain ⟨k₀, hk₀⟩ := h q hq
    exact ⟨k₀, fun k hk => Pauli.pairing_apart honly (List.forall_mem_singleton.mpr (hk₀ k hk))⟩
  · exact trivial

theorem narrow_noise2 (r : Binary64) {pairs : List (Qubit × Qubit)}
    (h : ∀ pair ∈ pairs, ∀ f : Pauli, f.OnlyOn [pair.1, pair.2] →
      ∃ k₀, ∀ k, k ≠ k₀ → Pauli.pairing n f (ops k) = 0) :
    Along (Narrow n) (Memory.noise2 r pairs) w ops := by
  unfold Memory.noise2
  split
  · refine along_kept fun f hf => ?_
    obtain ⟨-, pair, hpair, honly⟩ := hf
    rw [Instruction.pairs, Instruction.noise, pairUp_flattenPairs] at hpair
    exact h pair hpair f honly
  · exact trivial

theorem narrow_detectorsFor (ledger : Ledger) (terms : List (List Term)) :
    Along (Narrow n) (detectorsFor ledger terms) w ops := by
  refine along_of_forall fun i hi => narrow_of_quiet ?_
  obtain ⟨ts, -, hi⟩ := List.mem_flatMap.mp hi
  rw [Instruction.eq_of_mem_kept hi]
  rfl

end Noise

section Narrow

variable (hf : Fits g bases l) (hs : g.Sound) (hb : bases.Nodup)

include hf hs

omit hf hs in
theorem onRow_narrow {ops : Nat → Pauli} (hops : ∀ ρ, OnRow l row ρ (ops ρ)) {q : Qubit} (hq : q ∈ l.data) :
    ∃ ρ₀, ∀ ρ, ρ ≠ ρ₀ → (ops ρ).x q = 0 ∧ (ops ρ).z q = 0 := by
  refine ⟨row q, fun ρ hρ => ?_⟩
  obtain ⟨hx, hz⟩ := hops ρ q hq
  rw [if_neg (Ne.symm hρ)] at hz
  exact ⟨hx, hz⟩

/-- A fault on the qubits of an interaction, right after it. -/
theorem narrow_event (hhooks : HooksInRow g row) {ops : Nat → Pauli} (hops : ∀ ρ, OnRow l row ρ (ops ρ)) {orders : List Nat}
    {e : Event} (he : e ∈ events g bases orders)
    (hcheck : ∀ ρ, (ops ρ).x e.check = 0 ∧
      (ops ρ).z e.check = if e.basis = .x then toRow g row e.check (e.order + 1) ρ else 0)
    {f : Pauli} (hfault : f.OnlyOn [e.pair.1, e.pair.2]) :
    ∃ ρ₀, ∀ ρ, ρ ≠ ρ₀ → Pauli.pairing g.size f (ops ρ) = 0 := by
  obtain ⟨-, -, hc, hlink⟩ := (mem_events hs).mp he
  have hdata := hf.event_data_mem hs he
  have hmem := hf.check_mem hc
  have hne : e.check ≠ e.data := fun heq => hf.check_not_data hmem (heq ▸ hdata)
  have honly : f.OnlyOn [e.check, e.data] := by
    intro q hq
    refine hfault q fun hin => hq ?_
    unfold Event.pair pairOf at hin
    split at hin
    · exact hin
    · simpa [or_comm] using hin
  have hpairing : ∀ ρ, Pauli.pairing g.size f (ops ρ) =
      f.x e.check * (if e.basis = .x then toRow g row e.check (e.order + 1) ρ else 0) +
        f.x e.data * if row e.data = ρ then 1 else 0 := by
    intro ρ
    rw [Pauli.pairing_pair hne (hf.check_lt hmem) (hf.data_lt hdata) honly, (hcheck ρ).1, (hcheck ρ).2,
      (hops ρ e.data hdata).1, (hops ρ e.data hdata).2, mul_zero, mul_zero, add_zero, add_zero]
  simp only [hpairing]
  by_cases hx : e.basis = .x
  · simp only [if_pos hx]
    rw [hx] at hc
    have hbits : ∀ a : ZMod 2, a = 0 ∨ a = 1 := by decide
    rcases hbits (f.x e.check) with h0 | h1
    · refine ⟨row e.data, fun ρ hρ => ?_⟩
      rw [h0, zero_mul, if_neg (Ne.symm hρ), mul_zero, add_zero]
    · rcases hbits (f.x e.data) with h0 | h1'
      · obtain ⟨ρ₀, hρ₀⟩ := hhooks e.check hc (e.order + 1)
        refine ⟨ρ₀, fun ρ hρ => ?_⟩
        rw [h0, hρ₀ ρ hρ, mul_zero, zero_mul, add_zero]
      · -- X on both qubits is X on the check before the interaction.
        obtain ⟨ρ₀, hρ₀⟩ := hhooks e.check hc e.order
        refine ⟨ρ₀, fun ρ hρ => ?_⟩
        have hboth := toRow_link hs row hlink ρ
        rw [hρ₀ ρ hρ] at hboth
        rw [h1, h1', one_mul, one_mul, ← hboth]
  · refine ⟨row e.data, fun ρ hρ => ?_⟩
    rw [if_neg hx, if_neg (Ne.symm hρ), mul_zero, mul_zero, add_zero]

include hb

theorem narrow_layers (hhooks : HooksInRow g row) (p2 : Binary64) {p : Nat → Pauli} (hp : ∀ ρ, OnRow l row ρ (p ρ))
    {past orders : List Nat} (hsplit : past ++ orders = ordersOf g) (w : Nat → List (ZMod 2)) :
    Along (Narrow g.size) ((orders.map fun k => (events g bases [k]).map Event.pair).flatMap (layerProgram p2)) w
      fun ρ => l.opened (fun _ => 0) (p ρ) := by
  induction orders generalizing past w with
  | nil => exact trivial
  | cons k rest ih =>
    have hsplit' : (past ++ [k]) ++ rest = ordersOf g := by rw [List.append_assoc, List.singleton_append, hsplit]
    have hascend := ordersOf_ascend g
    rw [← hsplit'] at hascend
    obtain ⟨hpast, -, hbetween⟩ := List.pairwise_append.mp hascend
    have hpast' : ∀ m ∈ past ++ [k], m < k + 1 := by
      intro m hm
      rcases List.mem_append.mp hm with h | h
      · have hlt := (List.pairwise_append.mp hpast).2.2 m h k (List.mem_singleton_self k)
        omega
      · rw [List.mem_singleton] at h
        omega
    have hlater : ∀ m ∈ rest, k + 1 ≤ m := fun m hm => hbetween k (by simp) m hm
    rw [List.map_cons, List.flatMap_cons, layerProgram, along_append]
    refine ⟨along_append.mpr ⟨along_append.mpr ⟨narrow_kept rfl, narrow_noise2 p2 fun pair hpair f honly => ?_⟩,
      ⟨narrow_of_quiet rfl _, trivial⟩⟩, ih hsplit' _⟩
    obtain ⟨e, he, rfl⟩ := List.mem_map.mp hpair
    obtain ⟨hk, -, hc, -⟩ := (mem_events hs).mp he
    rw [List.mem_singleton] at hk
    simp only [pull_layers, Fits.flatten_orders]
    refine narrow_event hf hs hhooks (fun ρ => interact_onRow hf hs (hp ρ) rest) he (fun ρ => ?_) honly
    rw [hk]
    exact interact_check hf hs hb (hp ρ) hpast' hlater hsplit' hc

omit hf hs hb in
theorem narrow_hook (hhooks : HooksInRow g row) {b : CheckBasis} {c : Qubit} (hc : c ∈ g.checkQubits b) (k : Nat) :
    ∃ ρ₀, ∀ ρ, ρ ≠ ρ₀ → (if b = .x then toRow g row c k ρ else 0) = 0 := by
  by_cases hx : b = .x
  · subst hx
    simpa using hhooks c hc k
  · exact ⟨0, fun ρ _ => if_neg hx⟩

/-- Before a round each check meets one row. -/
theorem narrow_roundOp (hhooks : HooksInRow g row) {p : Nat → Pauli} (hp : ∀ ρ, OnRow l row ρ (p ρ)) {c : Qubit}
    (hc : c ∈ l.allChecks) :
    ∃ ρ₀, ∀ ρ, ρ ≠ ρ₀ → (l.roundOp (fun _ => 0) (p ρ)).x c = 0 ∧ (l.roundOp (fun _ => 0) (p ρ)).z c = 0 := by
  obtain ⟨b, hcb⟩ := hf.mem_allChecks.mp hc
  obtain ⟨ρ₀, hρ₀⟩ := narrow_hook hhooks hcb 0
  refine ⟨ρ₀, fun ρ hρ => ?_⟩
  obtain ⟨hz, hx⟩ := roundOp_row row hf hs hb (hp ρ) hcb
  exact ⟨hx.trans (hρ₀ ρ hρ), hz⟩

theorem narrow_extraction (ht : l.Tidy) (hhooks : HooksInRow g row) (p1 p2 : Binary64) (round : Nat) {p : Nat → Pauli}
    (hp : ∀ ρ, OnRow l row ρ (p ρ)) (more : Nat → List (ZMod 2)) :
    Along (Narrow g.size) (l.extraction p1 p2 round) (fun ρ => (l.allChecks.map fun _ => 0) ++ more ρ) p := by
  have hmeasured : ∀ c ∈ l.allChecks, ∃ ρ₀, ∀ ρ, ρ ≠ ρ₀ →
      ((p ρ).measuring l.allChecks fun _ => 0).x c = 0 ∧ ((p ρ).measuring l.allChecks fun _ => 0).z c = 0 :=
    fun c hc => ⟨0, fun ρ _ => ⟨if_pos hc, if_pos hc⟩⟩
  have hopened : ∀ ρ, OnRow l row ρ (l.opened (fun _ => 0) (p ρ)) := by
    intro ρ q hq
    obtain ⟨hx, hz⟩ := hp ρ q hq
    exact ⟨(hf.bits_opened_data hq _ _ .x).trans hx, (hf.bits_opened_data hq _ _ .z).trans hz⟩
  have hidle : ∀ q ∈ l.idleData, q ∈ l.data := by
    intro q hq
    rw [hf.idleData] at hq
    rw [hf.data]
    exact List.mem_of_mem_filter hq
  simp only [extraction, along_append, Circuit.measurementsOf_append, measurementsOf_first,
    measurementsOf_gate, measurementsOf_noise1, measurementsOf_layers, pull_turn ht, pull_noise1, pull_layers,
    pull_measureReset ht, Nat.add_zero, List.drop_zero]
  refine ⟨⟨⟨⟨⟨⟨⟨⟨?_, narrow_kept rfl⟩, narrow_noise1 p1 fun c hc => ?_⟩, ?_⟩, narrow_noise1 p1 fun q hq => ?_⟩,
    narrow_kept rfl⟩, narrow_noise1 p1 fun c hc => hmeasured c (hf.checks_subset .x hc)⟩, narrow_noise1 p1 hmeasured⟩,
    narrow_kept rfl⟩
  · split
    · exact trivial
    · exact narrow_noise1 p1 fun c hc => narrow_roundOp hf hs hb hhooks hp hc
  · -- The X checks right before the interactions.
    rw [hf.checks] at hc
    obtain ⟨ρ₀, hρ₀⟩ := narrow_hook hhooks hc 0
    refine ⟨ρ₀, fun ρ hρ => ?_⟩
    rw [hf.layers_flatten]
    obtain ⟨hx, hz⟩ := interact_check hf hs hb (hp ρ) (k := 0) (fun m hm => absurd hm List.not_mem_nil)
      (fun m _ => Nat.zero_le m) (List.nil_append (ordersOf g)) hc
    exact ⟨hx, hz.trans (hρ₀ ρ hρ)⟩
  · rw [hf.layers]
    exact narrow_layers hf hs hb hhooks p2 hp (List.nil_append _) _
  · exact onRow_narrow hopened (hidle q hq)

end Narrow

end Layout

end QuantumMemory

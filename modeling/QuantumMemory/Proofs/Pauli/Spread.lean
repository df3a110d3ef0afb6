/-
  QuantumMemory.Proofs.Pauli.Spread — how far operators spread in a round.

  Of what a round makes, the bits of a data qubit gain what its checks of the basis add
  (`bits_roundOp`), and a check ends with its own weight and with what its data qubits pass
  on from checks of the other basis (`roundOp_check`). One check on its own reaches each data
  qubit of its support once (`arrivals_one`).
-/

import Mathlib.Algebra.BigOperators.Group.List.Lemmas
import QuantumMemory.Proofs.Pauli.Round

namespace QuantumMemory

/-- X for Z, and Z for X. -/
def CheckBasis.other : CheckBasis → CheckBasis
  | .x => .z
  | .y => .y
  | .z => .x

theorem CheckBasis.other_ne_y {b : CheckBasis} (h : b ≠ .y) : b.other ≠ .y := by
  cases b with
  | y => exact absurd rfl h
  | x | z => decide

theorem CheckBasis.ne_other {b : CheckBasis} (h : b ≠ .y) : b ≠ b.other := by
  cases b with
  | y => exact absurd rfl h
  | x | z => decide

namespace Layout

variable {g : Graph} {bases : List CheckBasis} {l : Layout}

/-! ## The events of a round -/

/-- All interactions of a round as they happen. -/
def roundEvents (g : Graph) (bases : List CheckBasis) : List Event := events g bases (ordersOf g)

theorem events_rolesApart (hs : g.Sound) (orders : List Nat) : RolesApart (events g bases orders) where
  check_ne_data := by
    intro e he e' he' heq
    have hcheck := Graph.not_isData_of_check ((mem_events hs).mp he).2.2.1
    rw [heq, events_isData hs he'] at hcheck
    cases hcheck
  basis_unique := by
    intro e he e' he' heq
    have hcheck := ((mem_events hs).mp he).2.2.1
    rw [heq] at hcheck
    exact Graph.basis_unique hcheck ((mem_events hs).mp he').2.2.1

/-- The events of a check are its links. -/
theorem events_check_perm (hs : g.Sound) (hb : bases.Nodup) {orders : List Nat} (ho : orders.Nodup) {b : CheckBasis}
    (hbase : b ∈ bases) {c : Qubit} (hc : c ∈ g.checkQubits b) :
    ((events g bases orders).filter fun e => e.check = c).Perm
      (((g.links c).filter fun k => k.order ∈ orders).map fun k => ⟨k.order, b, c, k.data⟩) := by
  refine (List.perm_ext_iff_of_nodup ((events_nodup hb ho).filter _) ?_).mpr fun e => ?_
  · refine ((hs.links_nodup c).filter _).map fun k k' he => ?_
    simp only [Event.mk.injEq, true_and] at he
    obtain ⟨h1, h2⟩ := he
    cases k
    cases k'
    simp_all
  · simp only [List.mem_filter, mem_events hs, List.mem_map, decide_eq_true_eq]
    constructor
    · rintro ⟨⟨h1, -, h3, h4⟩, rfl⟩
      exact ⟨_, ⟨h4, h1⟩, by rw [← Graph.basis_unique h3 hc]⟩
    · rintro ⟨k, ⟨h1, h2⟩, rfl⟩
      exact ⟨⟨h2, hbase, hc, h1⟩, rfl⟩

theorem sum_filter {α : Type} (xs : List α) (p : α → Prop) [DecidablePred p] (f : α → ZMod 2) :
    (xs.map fun a => if p a then f a else 0).sum = ((xs.filter fun a => p a).map f).sum := by
  induction xs with
  | nil => rfl
  | cons a rest ih =>
    rw [List.map_cons, List.sum_cons, ih, List.filter_cons]
    by_cases h : p a <;> simp [h]

/-- A sum of which at most one summand is not zero. -/
theorem sum_at_most_one {α : Type} {xs : List α} {p : α → Prop} [DecidablePred p]
    (h : xs.Pairwise fun a b => ¬(p a ∧ p b)) (v : ZMod 2) :
    (xs.map fun a => if p a then v else 0).sum = if ∃ a ∈ xs, p a then v else 0 := by
  induction xs with
  | nil => simp
  | cons a rest ih =>
    obtain ⟨ha, hrest⟩ := List.pairwise_cons.mp h
    rw [List.map_cons, List.sum_cons, ih hrest]
    by_cases hp : p a
    · have hnone : ¬∃ a' ∈ rest, p a' := by
        intro hex
        obtain ⟨a', ha', hp'⟩ := hex
        exact ha a' ha' ⟨hp, hp'⟩
      simp [hp, hnone]
    · simp [hp]

/-- A sum over the events of a check is one over its links. -/
theorem sum_events_check (hs : g.Sound) (hb : bases.Nodup) {orders : List Nat} (ho : orders.Nodup) {b : CheckBasis}
    (hbase : b ∈ bases) {c : Qubit} (hc : c ∈ g.checkQubits b) (f : Event → ZMod 2) :
    ((events g bases orders).map fun e => if e.check = c then f e else 0).sum =
      (((g.links c).filter fun k => k.order ∈ orders).map fun k => f ⟨k.order, b, c, k.data⟩).sum := by
  rw [sum_filter, ((events_check_perm hs hb ho hbase hc).map f).sum_eq, List.map_map]
  rfl

theorem ordersOf_nodup (g : Graph) : (ordersOf g).Nodup := (ordersOf_ascend g).imp Nat.ne_of_lt

/-- Each link of a check has its order in the round. -/
theorem links_in_round (c : Qubit) : ((g.links c).filter fun k => k.order ∈ ordersOf g) = g.links c :=
  List.filter_eq_self.mpr fun k hk => by simpa using mem_ordersOf.mpr ⟨c, k, hk, rfl⟩

theorem arrivals_congr {b : CheckBasis} {v w : Qubit → ZMod 2} {events : List Event}
    (h : ∀ e ∈ events, e.basis = b → v e.check = w e.check) (k : Nat) (q : Qubit) :
    arrivals b v events k q = arrivals b w events k q := by
  refine congrArg List.sum (List.map_congr_left fun e he => ?_)
  by_cases hb : e.basis = b
  · rw [h e he hb]
  · simp [hb]

/-! ## One round -/

theorem bits_interact (hs : g.Sound) (hd : Declares bases g) (orders : List Nat) (p : Pauli) {b : CheckBasis}
    (hy : b ≠ .y) : (interact ((events g bases orders).map Event.pair) p).bits b =
      relay ((events g bases orders).map (Event.hop b)) (p.bits b) := by
  have hbasis : ∀ e ∈ events g bases orders, e.basis ≠ .y := by
    intro e he
    obtain ⟨n, hn, hr⟩ := Graph.mem_checkQubits.mp ((mem_events hs).mp he).2.2.1
    exact (hd e.check n e.basis hn hr).1
  cases b with
  | x =>
    rw [List.map_congr_left fun e he => Event.hop_x (hbasis e he)]
    show (interact _ p).x = relay _ p.x
    rw [interact, x_foldr_cx, List.map_map]
    rfl
  | y => exact absurd rfl hy
  | z =>
    rw [List.map_congr_left fun e he => Event.hop_z (hbasis e he)]
    exact z_foldr_cx _ p

namespace Fits

variable (hf : Fits g bases l)

include hf

omit hf in
theorem flatten_orders (g : Graph) (bases : List CheckBasis) (orders : List Nat) :
    (orders.map fun k => (events g bases [k]).map Event.pair).flatten = (events g bases orders).map Event.pair := by
  rw [events, List.map_flatMap, List.flatMap_def]
  refine congrArg List.flatten (List.map_congr_left fun k _ => ?_)
  rw [events_one]

theorem layers_flatten : l.layers.flatten = (roundEvents g bases).map Event.pair := by
  rw [hf.layers, flatten_orders, roundEvents]

theorem check_mem {b : CheckBasis} {c : Qubit} (hc : c ∈ g.checkQubits b) : c ∈ l.allChecks :=
  hf.mem_allChecks.mpr ⟨b, hc⟩

theorem basis_mem {b : CheckBasis} {c : Qubit} (hc : c ∈ g.checkQubits b) : b ≠ .y ∧ b ∈ bases := by
  obtain ⟨n, hn, hr⟩ := Graph.mem_checkQubits.mp hc
  exact hf.declares c n b hn hr

theorem mem_checks {b b' : CheckBasis} {c : Qubit} (hc : c ∈ g.checkQubits b) : c ∈ l.checks b' ↔ b = b' := by
  rw [hf.checks]
  exact ⟨fun h => Graph.basis_unique hc h, fun h => h ▸ hc⟩

theorem support_nodup (hs : g.Sound) {c : Qubit} (hc : c ∈ l.allChecks) : (l.support c).Nodup := by
  rw [hf.support hc]
  exact hs.links_data_nodup c

/-- What one check passes on goes to the data qubits that it still reaches. -/
theorem arrivals_one (hs : g.Sound) (hb : bases.Nodup) {b b' : CheckBasis} {c : Qubit} (hc : c ∈ g.checkQubits b')
    {s : Qubit → ZMod 2} (hs' : ∀ c' ∈ l.allChecks, c' ≠ c → s c' = 0) (k : Nat) (q : Qubit) :
    arrivals b s (roundEvents g bases) k q =
      if b' = b ∧ ∃ i ∈ g.links c, i.data = q ∧ k ≤ i.order then s c else 0 := by
  have hother : ∀ e ∈ roundEvents g bases, e.check ≠ c → s e.check = 0 := fun e he =>
    hs' e.check (hf.check_mem ((mem_events hs).mp he).2.2.1)
  by_cases heq : b' = b
  · subst heq
    have hone : arrivals b' s (roundEvents g bases) k q = ((roundEvents g bases).map fun e =>
        if e.check = c then (if e.basis = b' ∧ e.data = q ∧ k ≤ e.order then s c else 0) else 0).sum := by
      refine congrArg List.sum (List.map_congr_left fun e he => ?_)
      by_cases hec : e.check = c
      · rw [if_pos hec, hec]
      · rw [if_neg hec, hother e he hec, ite_self]
    have hpair : (g.links c).Pairwise fun i i' => ¬((i.data = q ∧ k ≤ i.order) ∧ i'.data = q ∧ k ≤ i'.order) :=
      (List.pairwise_map.mp (hs.links_data_nodup c)).imp fun hne h => hne (h.1.1.trans h.2.1.symm)
    rw [hone, roundEvents, sum_events_check hs hb (ordersOf_nodup g) (hf.basis_mem hc).2 hc, links_in_round]
    simp only [true_and]
    exact sum_at_most_one hpair (s c)
  · have hzero : arrivals b s (roundEvents g bases) k q = arrivals b 0 (roundEvents g bases) k q := by
      refine arrivals_congr (fun e he hbe => hother e he fun hec => heq ?_) k q
      exact Graph.basis_unique hc (hec ▸ hbe ▸ ((mem_events hs).mp he).2.2.1)
    rw [hzero, arrivals_zero (fun _ _ => rfl), if_neg fun h => heq h.1]

/-- Data qubits keep their bits where the checks are measured. -/
theorem bits_opened_data {q : Qubit} (hq : q ∈ l.data) (s : Qubit → ZMod 2) (p : Pauli) (b : CheckBasis) :
    (l.opened s p).bits b q = p.bits b q := by
  have hall : q ∉ l.allChecks := fun h => hf.check_not_data h hq
  have hx : q ∉ l.checks .x := fun h => hall (hf.checks_subset .x h)
  cases b <;> simp [Pauli.bits, opened, Pauli.turn, Pauli.measuring, hall, hx]

/-- A check has its weight in its basis and nothing in the other. -/
theorem bits_opened_check {b : CheckBasis} {c : Qubit} (hc : c ∈ g.checkQubits b) (s : Qubit → ZMod 2) (p : Pauli) :
    (l.opened s p).bits b c = s c ∧ (l.opened s p).bits b.other c = 0 := by
  have hall := hf.check_mem hc
  have hx : c ∈ l.checks .x ↔ b = .x := hf.mem_checks hc
  cases b with
  | x => simp [Pauli.bits, CheckBasis.other, opened, Pauli.turn, Pauli.measuring, hall, hx]
  | y => exact absurd rfl (hf.basis_mem hc).1
  | z => simp [Pauli.bits, CheckBasis.other, opened, Pauli.turn, Pauli.measuring, hall, hx]

theorem arrivals_opened (hs : g.Sound) (s : Qubit → ZMod 2) (p : Pauli) (b : CheckBasis) (orders : List Nat) (k : Nat)
    (q : Qubit) :
    arrivals b ((l.opened s p).bits b) (events g bases orders) k q = arrivals b s (events g bases orders) k q :=
  arrivals_congr (fun _ he hb => (hf.bits_opened_check (hb ▸ ((mem_events hs).mp he).2.2.1) s p).1) k q

/-- The bits of data qubits part way through the interactions; the events left are given. -/
theorem bits_interact_data (hs : g.Sound) {b : CheckBasis} (hy : b ≠ .y) {q : Qubit} (hq : q ∈ l.data)
    (s : Qubit → ZMod 2) (p : Pauli) (orders : List Nat) :
    (interact ((events g bases orders).map Event.pair) (l.opened s p)).bits b q =
      p.bits b q + arrivals b s (events g bases orders) 0 q := by
  have hcheck : ∀ e ∈ events g bases orders, e.check ≠ q := by
    intro e he heq
    exact hf.check_not_data (hf.check_mem ((mem_events hs).mp he).2.2.1) (heq ▸ hq)
  rw [bits_interact hs hf.declares orders _ hy, relay_data (events_rolesApart hs orders) _ hcheck,
    hf.bits_opened_data hq, hf.arrivals_opened hs]

theorem link_data_mem (hs : g.Sound) {c : Qubit} {i : Link} (hi : i ∈ g.links c) : i.data ∈ l.data := by
  rw [hf.data, Graph.mem_dataQubits]
  exact hs.link_isData hi

theorem event_data_mem (hs : g.Sound) {orders : List Nat} {e : Event} (he : e ∈ events g bases orders) :
    e.data ∈ l.data := hf.link_data_mem hs ((mem_events hs).mp he).2.2.2

/-- The bits of checks part way through the interactions. -/
theorem bits_interact_check (hs : g.Sound) {b : CheckBasis} {c : Qubit} (hc : c ∈ g.checkQubits b)
    (s : Qubit → ZMod 2) (p : Pauli) {orders : List Nat} (ho : orders.Pairwise (· < ·))
    (hsub : ∀ k ∈ orders, k ∈ ordersOf g) :
    (interact ((events g bases orders).map Event.pair) (l.opened s p)).bits b c = s c ∧
      (interact ((events g bases orders).map Event.pair) (l.opened s p)).bits b.other c =
        ((events g bases orders).map fun e => if e.check = c then
          p.bits b.other e.data + arrivals b.other s (events g bases orders) (e.order + 1) e.data else 0).sum := by
  have hdata : ∀ e ∈ events g bases orders, e.data ≠ c := by
    intro e he heq
    exact hf.check_not_data (hf.check_mem hc) (heq ▸ hf.event_data_mem hs he)
  have hbasis : ∀ e ∈ events g bases orders, e.check = c → e.basis = b := by
    intro e he heq
    exact Graph.basis_unique ((mem_events hs).mp he).2.2.1 (heq ▸ hc)
  obtain ⟨hown, hother⟩ := hf.bits_opened_check hc s p
  have hy := (hf.basis_mem hc).1
  have hy' := CheckBasis.other_ne_y hy
  have hne := CheckBasis.ne_other hy
  refine ⟨?_, ?_⟩
  · rw [bits_interact hs hf.declares orders _ hy, relay_source _ hdata hbasis, hown]
  · rw [bits_interact hs hf.declares orders _ hy', relay_check (events_rolesApart hs orders)
      (events_ascend hf.noConflict ho hsub) _ hdata fun e he heq => hbasis e he heq ▸ hne, hother, zero_add]
    refine congrArg List.sum (List.map_congr_left fun e he => ?_)
    rw [hf.bits_opened_data (hf.event_data_mem hs he), hf.arrivals_opened hs]

theorem bits_turn_data {q : Qubit} (hq : q ∈ l.data) (p : Pauli) (b : CheckBasis) :
    (p.turn (l.checks .x)).bits b q = p.bits b q := by
  have hx : q ∉ l.checks .x := fun h => hf.check_not_data (hf.checks_subset .x h) hq
  cases b <;> simp [Pauli.bits, Pauli.turn, hx]

/-- Turned, the bits of a check's basis are its Z, and the others its X. -/
theorem turn_check {b : CheckBasis} {c : Qubit} (hc : c ∈ g.checkQubits b) (p : Pauli) :
    (p.turn (l.checks .x)).z c = p.bits b c ∧ (p.turn (l.checks .x)).x c = p.bits b.other c := by
  have hx : c ∈ l.checks .x ↔ b = .x := hf.mem_checks hc
  cases b with
  | x => simp [Pauli.turn, Pauli.bits, CheckBasis.other, hx]
  | y => exact absurd rfl (hf.basis_mem hc).1
  | z => simp [Pauli.turn, Pauli.bits, CheckBasis.other, hx]

/-- A round adds to data qubits what their checks measure. -/
theorem bits_roundOp (hs : g.Sound) {b : CheckBasis} (hy : b ≠ .y) {q : Qubit} (hq : q ∈ l.data)
    (s : Qubit → ZMod 2) (p : Pauli) :
    (l.roundOp s p).bits b q = p.bits b q + arrivals b s (roundEvents g bases) 0 q := by
  rw [roundOp, hf.bits_turn_data hq, hf.layers_flatten, roundEvents, hf.bits_interact_data hs hy hq]

/-- Before a round a check has Z as it is measured, and X as its data qubits pass on. -/
theorem roundOp_check (hs : g.Sound) (hb : bases.Nodup) {b : CheckBasis} {c : Qubit} (hc : c ∈ g.checkQubits b)
    (s : Qubit → ZMod 2) (p : Pauli) :
    (l.roundOp s p).z c = s c ∧ (l.roundOp s p).x c = ((g.links c).map fun k =>
      p.bits b.other k.data + arrivals b.other s (roundEvents g bases) (k.order + 1) k.data).sum := by
  obtain ⟨hown, hother⟩ := hf.bits_interact_check hs hc s p (ordersOf_ascend g) fun _ hk => hk
  rw [sum_events_check hs hb (ordersOf_nodup g) (hf.basis_mem hc).2 hc, links_in_round] at hother
  obtain ⟨hz, hx⟩ := hf.turn_check hc (interact l.layers.flatten (l.opened s p))
  rw [roundOp, hz, hx, hf.layers_flatten, roundEvents]
  exact ⟨hown, hother⟩

end Fits

end Layout

end QuantumMemory

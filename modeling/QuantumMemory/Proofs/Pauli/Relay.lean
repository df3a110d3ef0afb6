/-
  QuantumMemory.Proofs.Pauli.Relay — operators pulled back through the interactions of a
  round.

  Pulled back through a CX gate, the Z of its target is passed on to the control and the X
  of its control to the target. So through interactions the bits of each kind hop on their
  own: checks of one basis pass theirs to data qubits (`relay_data`), and data qubits pass on
  what they have by then to checks of the other (`relay_check`). What a data qubit has by
  then are the arrivals of later interactions.
-/

import QuantumMemory.Proofs.Graph.Schedule
import QuantumMemory.Proofs.Pauli.Frame

namespace QuantumMemory

/-- The bits after every hop, the last one first, has added the bit of its start to its end. -/
def relay (hops : List (Qubit × Qubit)) (v : Qubit → ZMod 2) : Qubit → ZMod 2 :=
  hops.foldr (fun hop v q => v q + if q = hop.1 then v hop.2 else 0) v

theorem relay_cons (hop : Qubit × Qubit) (hops : List (Qubit × Qubit)) (v : Qubit → ZMod 2) (q : Qubit) :
    relay (hop :: hops) v q = relay hops v q + if q = hop.1 then relay hops v hop.2 else 0 := rfl

theorem z_foldr_cx (pairs : List (Qubit × Qubit)) (p : Pauli) :
    (pairs.foldr (fun pair p => p.cx pair) p).z = relay pairs p.z := by
  induction pairs with
  | nil => rfl
  | cons pair rest ih =>
    funext q
    rw [List.foldr_cons, relay_cons, Pauli.cx, ih]

theorem x_foldr_cx (pairs : List (Qubit × Qubit)) (p : Pauli) :
    (pairs.foldr (fun pair p => p.cx pair) p).x = relay (pairs.map Prod.swap) p.x := by
  induction pairs with
  | nil => rfl
  | cons pair rest ih =>
    funext q
    rw [List.foldr_cons, List.map_cons, relay_cons, Pauli.cx, ih]
    rfl

/-- A qubit that no hop ends at keeps its bit. -/
theorem relay_apart {hops : List (Qubit × Qubit)} (v : Qubit → ZMod 2) {q : Qubit} (h : ∀ hop ∈ hops, hop.1 ≠ q) :
    relay hops v q = v q := by
  induction hops with
  | nil => rfl
  | cons hop rest ih =>
    obtain ⟨hhop, hrest⟩ := List.forall_mem_cons.mp h
    rw [relay_cons, ih hrest, if_neg (Ne.symm hhop), add_zero]

/-- Where no hop ends at the start of another, each passes on the bit from before. -/
theorem relay_once {hops : List (Qubit × Qubit)} (h : ∀ hop ∈ hops, ∀ hop' ∈ hops, hop.1 ≠ hop'.2)
    (v : Qubit → ZMod 2) (q : Qubit) :
    relay hops v q = v q + (hops.map fun hop => if q = hop.1 then v hop.2 else 0).sum := by
  induction hops with
  | nil => simp [relay]
  | cons hop rest ih =>
    have hstart : relay rest v hop.2 = v hop.2 :=
      relay_apart v fun hop' hmem => h hop' (List.mem_cons_of_mem _ hmem) hop List.mem_cons_self
    have hrest := ih fun hop' hmem hop'' hmem' =>
      h hop' (List.mem_cons_of_mem _ hmem) hop'' (List.mem_cons_of_mem _ hmem')
    rw [relay_cons, hstart, hrest, List.map_cons, List.sum_cons]
    ring

namespace Event

/-- End and start of the hop at an event, of the bits that checks of the basis pass to data. -/
def hop (b : CheckBasis) (e : Event) : Qubit × Qubit := if e.basis = b then (e.data, e.check) else (e.check, e.data)

theorem hop_z {e : Event} (h : e.basis ≠ .y) : e.hop .z = e.pair := by
  unfold hop pair Layout.pairOf
  cases hb : e.basis with
  | x => rfl
  | y => exact absurd hb h
  | z => rfl

theorem hop_x {e : Event} (h : e.basis ≠ .y) : e.hop .x = e.pair.swap := by
  unfold hop pair Layout.pairOf
  cases hb : e.basis with
  | x => rfl
  | y => exact absurd hb h
  | z => rfl

end Event

/-- What checks of the basis pass to a data qubit at events of the order `k` and later ones. -/
def arrivals (b : CheckBasis) (v : Qubit → ZMod 2) (events : List Event) (k : Nat) (q : Qubit) : ZMod 2 :=
  (events.map fun e => if e.basis = b ∧ e.data = q ∧ k ≤ e.order then v e.check else 0).sum

/-- No qubit is both check and data, and a check has one basis. -/
structure RolesApart (events : List Event) : Prop where
  check_ne_data : ∀ e ∈ events, ∀ e' ∈ events, e.check ≠ e'.data
  basis_unique : ∀ e ∈ events, ∀ e' ∈ events, e.check = e'.check → e.basis = e'.basis

theorem RolesApart.tail {e : Event} {events : List Event} (h : RolesApart (e :: events)) : RolesApart events where
  check_ne_data := fun e he e' he' => h.check_ne_data e (List.mem_cons_of_mem _ he) e' (List.mem_cons_of_mem _ he')
  basis_unique := fun e he e' he' => h.basis_unique e (List.mem_cons_of_mem _ he) e' (List.mem_cons_of_mem _ he')

section Relay

variable {b : CheckBasis} {events : List Event}

/-- The checks that pass bits on keep theirs. -/
theorem relay_source (v : Qubit → ZMod 2) {c : Qubit} (hc : ∀ e ∈ events, e.data ≠ c)
    (hb : ∀ e ∈ events, e.check = c → e.basis = b) : relay (events.map (Event.hop b)) v c = v c := by
  refine relay_apart v fun hop hhop => ?_
  obtain ⟨e, he, rfl⟩ := List.mem_map.mp hhop
  unfold Event.hop
  split
  · exact hc e he
  · rename_i hne
    exact fun heq => hne (hb e he heq)

theorem relay_data (hr : RolesApart events) (v : Qubit → ZMod 2) {q : Qubit} (hq : ∀ e ∈ events, e.check ≠ q) :
    relay (events.map (Event.hop b)) v q = v q + arrivals b v events 0 q := by
  induction events with
  | nil => simp [relay, arrivals]
  | cons e rest ih =>
    obtain ⟨hqe, hqrest⟩ := List.forall_mem_cons.mp hq
    rw [List.map_cons, relay_cons, ih hr.tail hqrest, arrivals, arrivals, List.map_cons, List.sum_cons]
    by_cases hb : e.basis = b
    · have hsource : relay (rest.map (Event.hop b)) v e.check = v e.check := by
        refine relay_source v (fun e' he' => ?_) fun e' he' heq => ?_
        · exact (hr.check_ne_data e List.mem_cons_self e' (List.mem_cons_of_mem _ he')).symm
        · exact (hr.basis_unique e' (List.mem_cons_of_mem _ he') e List.mem_cons_self heq).trans hb
      simp only [Event.hop, hb, if_true, true_and, Nat.zero_le, and_true, hsource, eq_comm (a := q)]
      ring
    · simp only [Event.hop, hb, if_false, false_and, if_neg (Ne.symm hqe)]
      ring

/-- The checks of the other basis get what their data qubits have by then. -/
theorem relay_check (hr : RolesApart events)
    (ha : events.Pairwise fun e e' => e.order ≤ e'.order ∧ (e.data = e'.data → e.order < e'.order))
    (v : Qubit → ZMod 2) {c : Qubit} (hc : ∀ e ∈ events, e.data ≠ c) (hb : ∀ e ∈ events, e.check = c → e.basis ≠ b) :
    relay (events.map (Event.hop b)) v c = v c +
      (events.map fun e => if e.check = c then v e.data + arrivals b v events (e.order + 1) e.data else 0).sum := by
  induction events with
  | nil => simp [relay]
  | cons e rest ih =>
    obtain ⟨hce, hcrest⟩ := List.forall_mem_cons.mp hc
    obtain ⟨hbe, hbrest⟩ := List.forall_mem_cons.mp hb
    obtain ⟨hae, harest⟩ := List.pairwise_cons.mp ha
    -- What arrives after an event of the rest does not arrive at the first event.
    have hlater : ∀ e' ∈ rest, arrivals b v (e :: rest) (e'.order + 1) e'.data =
        arrivals b v rest (e'.order + 1) e'.data := by
      intro e' he'
      have hnot : ¬(e.basis = b ∧ e.data = e'.data ∧ e'.order + 1 ≤ e.order) := by
        intro h
        have hlt := (hae e' he').2 h.2.1
        omega
      rw [arrivals, arrivals, List.map_cons, List.sum_cons, if_neg hnot, zero_add]
    have hrest : (rest.map fun e' => if e'.check = c then
          v e'.data + arrivals b v (e :: rest) (e'.order + 1) e'.data else 0) =
        rest.map fun e' => if e'.check = c then v e'.data + arrivals b v rest (e'.order + 1) e'.data else 0 :=
      List.map_congr_left fun e' he' => by rw [hlater e' he']
    rw [List.map_cons, List.map_cons, relay_cons, List.sum_cons, hrest, ih hr.tail harest hcrest hbrest]
    by_cases heq : e.check = c
    · have hdata : relay (rest.map (Event.hop b)) v e.data = v e.data + arrivals b v rest 0 e.data :=
        relay_data hr.tail v fun e' he' => hr.check_ne_data e' (List.mem_cons_of_mem _ he') e List.mem_cons_self
      have hall : arrivals b v (e :: rest) (e.order + 1) e.data = arrivals b v rest 0 e.data := by
        rw [arrivals, List.map_cons, List.sum_cons, if_neg (by omega), zero_add, arrivals]
        refine congrArg List.sum (List.map_congr_left fun e' he' => ?_)
        by_cases hd : e'.data = e.data
        · have hlt := (hae e' he').2 hd.symm
          simp only [hd, Nat.zero_le, and_true, Nat.succ_le_of_lt hlt]
        · simp only [hd, false_and, and_false, if_false]
      simp only [Event.hop, hbe heq, if_false, if_pos heq.symm, if_pos heq, hdata, hall]
      ring
    · have hend : c ≠ (e.hop b).1 := by
        unfold Event.hop
        split
        · exact Ne.symm hce
        · exact fun h => heq h.symm
      rw [if_neg hend, if_neg heq]
      ring

/-- From no checks nothing arrives. -/
theorem arrivals_zero {v : Qubit → ZMod 2} (h : ∀ e ∈ events, v e.check = 0) (k : Nat) (q : Qubit) :
    arrivals b v events k q = 0 := by
  refine List.sum_eq_zero fun a ha => ?_
  obtain ⟨e, he, rfl⟩ := List.mem_map.mp ha
  simp only [h e he, ite_self]

@[simp] theorem arrivals_none (b : CheckBasis) (events : List Event) (k : Nat) (q : Qubit) :
    arrivals b (fun _ => 0) events k q = 0 := arrivals_zero (fun _ _ => rfl) k q

end Relay

end QuantumMemory

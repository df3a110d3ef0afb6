/-
  QuantumMemory.Proofs.Graph.Schedule — the interactions of a round in the order they happen.

  An `Event` is an interaction with its order: those of the given orders are `events`, order
  by order and group by group. Each link of a check is one event (`mem_events`,
  `events_nodup`), and of two events on one data qubit the earlier has the smaller order
  (`events_ascend`).
-/

import Mathlib.Data.List.Flatten
import QuantumMemory.Proofs.Graph.Views

namespace QuantumMemory

/-- An interaction and when it happens. -/
structure Event where
  order : Nat
  basis : CheckBasis
  check : Qubit
  data : Qubit
  deriving DecidableEq

/-- Control and target. -/
def Event.pair (e : Event) : Qubit × Qubit := Layout.pairOf e.basis e.check e.data

namespace Layout

variable {g : Graph} {bases : List CheckBasis} {policy : BoundaryPolicy} {l : Layout}

/-! ## The orders of a graph -/

theorem mem_insertOrder {n m : Nat} {orders : List Nat} : m ∈ insertOrder n orders ↔ m = n ∨ m ∈ orders := by
  induction orders with
  | nil => simp [insertOrder]
  | cons k rest ih =>
    simp only [insertOrder]
    split
    · simp
    · split
      · rename_i he
        subst he
        simp
      · rw [List.mem_cons, ih, List.mem_cons]; tauto

theorem insertOrder_ascends {n : Nat} {orders : List Nat} (h : orders.Pairwise (· < ·)) :
    (insertOrder n orders).Pairwise (· < ·) := by
  induction orders with
  | nil => simp [insertOrder]
  | cons k rest ih =>
    obtain ⟨h1, h2⟩ := List.pairwise_cons.mp h
    simp only [insertOrder]
    split
    · rename_i hlt
      refine List.pairwise_cons.mpr ⟨fun m hm => ?_, h⟩
      rcases List.mem_cons.mp hm with rfl | hm
      · exact hlt
      · exact Nat.lt_trans hlt (h1 m hm)
    · split
      · exact h
      · refine List.pairwise_cons.mpr ⟨fun m hm => ?_, ih h2⟩
        rcases mem_insertOrder.mp hm with rfl | hm
        · omega
        · exact h1 m hm

theorem ordersOf_ascend (g : Graph) : (ordersOf g).Pairwise (· < ·) :=
  List.foldlRecOn g.edges _ .nil fun _ h _ _ => insertOrder_ascends h

theorem mem_ordersOf {k : Nat} : k ∈ ordersOf g ↔ ∃ c l, l ∈ g.links c ∧ l.order = k := by
  have fold : ∀ (edges : List Edge) (orders : List Nat),
      k ∈ edges.foldl (fun orders e => insertOrder e.order orders) orders ↔ k ∈ orders ∨ ∃ e ∈ edges, e.order = k := by
    intro edges
    induction edges with
    | nil => simp
    | cons e rest ih =>
      intro orders
      rw [List.foldl_cons, ih, mem_insertOrder, List.exists_mem_cons_iff, eq_comm]
      tauto
  rw [ordersOf, fold]
  constructor
  · rintro (h | ⟨e, he, rfl⟩)
    · cases h
    · exact ⟨e.check, _, Graph.mem_edges.mp he, rfl⟩
  · rintro ⟨c, l, hl, rfl⟩
    exact .inr ⟨⟨c, l.data, l.order⟩, Graph.mem_edges.mpr hl, rfl⟩

/-! ## Events -/

/-- The check groups of a graph. -/
def groupsOf (g : Graph) (bases : List CheckBasis) : List CheckGroup :=
  bases.map fun basis => ⟨basis, g.checkQubits basis⟩

/-- The interactions of the given orders as they happen. -/
def events (g : Graph) (bases : List CheckBasis) (orders : List Nat) : List Event :=
  orders.flatMap fun order =>
    (atOrder g (groupsOf g bases) order).map fun (basis, check, data) => ⟨order, basis, check, data⟩

theorem events_one (g : Graph) (bases : List CheckBasis) (k : Nat) :
    events g bases [k] = (atOrder g (groupsOf g bases) k).map fun (basis, check, data) => ⟨k, basis, check, data⟩ := by
  simp [events]

theorem mem_atOrder (hs : g.Sound) {order : Nat} {i : CheckBasis × Qubit × Qubit} :
    i ∈ atOrder g (groupsOf g bases) order ↔
      i.1 ∈ bases ∧ i.2.1 ∈ g.checkQubits i.1 ∧ ⟨order, i.2.2⟩ ∈ g.links i.2.1 := by
  obtain ⟨basis, check, data⟩ := i
  simp only [atOrder, groupsOf, List.mem_flatMap, List.mem_map, List.mem_filterMap, Option.map_eq_some_iff,
    exists_exists_and_eq_and, Prod.mk.injEq]
  constructor
  · rintro ⟨b, hb, c, hc, d, hd, rfl, rfl, rfl⟩
    exact ⟨hb, hc, (Graph.neighbour?_check hs (Graph.not_isData_of_check hc)).mp hd⟩
  · rintro ⟨hb, hc, hd⟩
    exact ⟨basis, hb, check, hc, data, (Graph.neighbour?_check hs (Graph.not_isData_of_check hc)).mpr hd, rfl, rfl, rfl⟩

theorem mem_events (hs : g.Sound) {orders : List Nat} {e : Event} :
    e ∈ events g bases orders ↔ e.order ∈ orders ∧ e.basis ∈ bases ∧ e.check ∈ g.checkQubits e.basis ∧
      ⟨e.order, e.data⟩ ∈ g.links e.check := by
  simp only [events, List.mem_flatMap, List.mem_map]
  constructor
  · rintro ⟨k, hk, i, hi, rfl⟩
    exact ⟨hk, (mem_atOrder hs).mp hi⟩
  · rintro ⟨hk, hi⟩
    exact ⟨e.order, hk, (e.basis, e.check, e.data), (mem_atOrder hs).mpr hi, rfl⟩

theorem events_isData (hs : g.Sound) {orders : List Nat} {e : Event} (h : e ∈ events g bases orders) :
    g.isData e.data = true :=
  hs.link_isData ((mem_events hs).mp h).2.2.2

/-- Of bases that do not repeat, no two have a check in common. -/
theorem checks_once (hb : bases.Nodup) : (bases.flatMap g.checkQubits).Nodup := by
  refine List.nodup_flatMap.mpr ⟨fun b _ => Graph.checkQubits_nodup b, ?_⟩
  exact hb.imp fun hne q hq hq' => hne (Graph.basis_unique hq hq')

/-- At one order no check interacts twice. -/
theorem atOrder_checks_nodup (hn : (bases.flatMap g.checkQubits).Nodup) (order : Nat) :
    ((atOrder g (groupsOf g bases) order).map (·.2.1)).Nodup := by
  have hsub : ((atOrder g (groupsOf g bases) order).map (·.2.1)).Sublist (bases.flatMap g.checkQubits) := by
    rw [atOrder, groupsOf, List.flatMap_map, List.map_flatMap]
    refine List.Sublist.flatMap_right _ fun b _ => ?_
    induction g.checkQubits b with
    | nil => exact .slnil
    | cons c rest ih =>
      rw [List.filterMap_cons]
      cases g.neighbour? c order with
      | none => exact .cons _ ih
      | some d => exact .cons_cons _ ih
  exact hsub.nodup hn

theorem events_nodup (hb : bases.Nodup) {orders : List Nat} (ho : orders.Nodup) : (events g bases orders).Nodup := by
  refine List.nodup_flatMap.mpr ⟨fun k _ => ?_, ho.imp fun hne => ?_⟩
  · refine (List.Nodup.of_map _ (atOrder_checks_nodup (checks_once (g := g) hb) k)).map ?_
    rintro ⟨b, c, d⟩ ⟨b', c', d'⟩ he
    simp only [Event.mk.injEq] at he
    obtain ⟨-, rfl, rfl, rfl⟩ := he
    rfl
  · rintro e he he'
    obtain ⟨i, -, rfl⟩ := List.mem_map.mp he
    obtain ⟨j, -, hj⟩ := List.mem_map.mp he'
    exact hne (congrArg Event.order hj).symm

/-- No order uses a data qubit twice. -/
def NoConflict (g : Graph) (bases : List CheckBasis) : Prop :=
  ∀ order ∈ ordersOf g, ((atOrder g (groupsOf g bases) order).map (·.2.2)).Nodup

/-- Time goes by orders, and strictly so on each data qubit. -/
theorem events_ascend (hc : NoConflict g bases) {orders : List Nat} (ho : orders.Pairwise (· < ·))
    (hsub : ∀ k ∈ orders, k ∈ ordersOf g) :
    (events g bases orders).Pairwise fun e e' => e.order ≤ e'.order ∧ (e.data = e'.data → e.order < e'.order) := by
  refine List.pairwise_flatMap.mpr ⟨fun k hk => ?_, ho.imp fun hlt => ?_⟩
  · have hn := List.pairwise_map.mp (hc k (hsub k hk))
    exact List.pairwise_map.mpr (hn.imp fun hne => ⟨Nat.le_refl _, fun he => absurd he hne⟩)
  · rintro e he e' he'
    obtain ⟨i, -, rfl⟩ := List.mem_map.mp he
    obtain ⟨j, -, rfl⟩ := List.mem_map.mp he'
    exact ⟨Nat.le_of_lt hlt, fun _ => hlt⟩

end Layout

end QuantumMemory

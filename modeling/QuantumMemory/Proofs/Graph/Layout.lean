/-
  QuantumMemory.Proofs.Graph.Layout — what a layout takes from its graph.

  A graph has a layout when every check is of a declared basis other than Y and no order
  uses a data qubit twice (`ofGraph_ok`). The layout then has the checks and the data of
  the graph, the supports of the checks, and one layer for each order (`Fits`); its
  operations name no qubit twice (`Fits.tidy`), and on fewer than 2^30 qubits all that its
  detectors compare is within reach (`Fits.inReach`). Both need that no check is listed
  twice: that the bases do not repeat, or that those which do have no checks (`once_of_joined`).
-/

import Mathlib.Data.List.Perm.Subperm
import QuantumMemory.Proofs.Build.Program
import QuantumMemory.Proofs.Graph.Schedule
import QuantumMemory.Proofs.Success

namespace QuantumMemory

namespace Layout

variable {g : Graph} {bases : List CheckBasis} {policy : BoundaryPolicy} {l : Layout}

theorem layerOf_ok {groups : List CheckGroup} {order : Nat} {layer : List (Qubit × Qubit)}
    (h : layerOf g groups order = .ok layer) :
    ((atOrder g groups order).map (·.2.2)).Nodup ∧
      layer = (atOrder g groups order).map fun (basis, check, data) => pairOf basis check data := by
  simp only [layerOf] at h
  split at h
  · cases h
  · rename_i hnone
    cases h
    exact ⟨(firstRepeat?_eq_none.mp hnone).1, rfl⟩

theorem mapM_layerOf_ok {groups : List CheckGroup} {orders : List Nat} {layers : List (List (Qubit × Qubit))}
    (h : orders.mapM (layerOf g groups) = .ok layers) :
    (∀ k ∈ orders, ((atOrder g groups k).map (·.2.2)).Nodup) ∧
      layers = orders.map fun k => (atOrder g groups k).map fun (basis, check, data) => pairOf basis check data := by
  induction orders generalizing layers with
  | nil => cases h; simp
  | cons k rest ih =>
    rw [List.mapM_cons] at h
    obtain ⟨layer, hk, hmore⟩ := exists_of_bind h
    obtain ⟨others, hr, hlayers⟩ := exists_of_bind hmore
    cases hlayers
    obtain ⟨hn, rfl⟩ := layerOf_ok hk
    obtain ⟨hns, rfl⟩ := ih hr
    exact ⟨List.forall_mem_cons.mpr ⟨hn, hns⟩, rfl⟩

/-- The checks of a graph are of the declared bases, and none is a Y check. -/
def Declares (bases : List CheckBasis) (g : Graph) : Prop :=
  ∀ q n b, g.node? q = some n → n.role = .check b → b ≠ .y ∧ b ∈ bases

theorem declares_of_faultless
    (h : (g.nodes.toList.zipIdx.findSome? fun (node, q) => nodeFault? bases node q) = none) : Declares bases g := by
  intro q n b hn hr
  have hm : (n, q) ∈ g.nodes.toList.zipIdx := by
    simpa [Graph.node?, List.mk_mem_zipIdx_iff_getElem?] using hn
  have hf := List.findSome?_eq_none_iff.mp h _ hm
  simp only [nodeFault?, hr] at hf
  cases b with
  | y => simp at hf
  | x => simpa using hf
  | z => simpa using hf

/-- How a layout follows its graph. -/
structure Fits (g : Graph) (bases : List CheckBasis) (l : Layout) : Prop where
  declares : Declares bases g
  noConflict : NoConflict g bases
  allQubits : l.allQubits = List.range g.size
  data : l.data = g.dataQubits
  groups : l.groups = groupsOf g bases
  layers : l.layers = (ordersOf g).map fun k => (events g bases [k]).map Event.pair
  idleData : l.idleData = g.dataQubits.filter fun q => g.edges.all fun e => e.data ≠ q
  supports : l.supports = l.allChecks.map fun check => (check, g.support check)

theorem ofGraph_ok (h : ofGraph g bases policy = .ok l) : Fits g bases l := by
  unfold ofGraph at h
  cases hf : g.nodes.toList.zipIdx.findSome? fun (node, q) => nodeFault? bases node q with
  | some e => rw [hf] at h; cases h
  | none =>
    rw [hf] at h
    obtain ⟨layers, hm, hl⟩ := exists_of_bind h
    cases hl
    obtain ⟨hn, hlayers⟩ := mapM_layerOf_ok hm
    refine ⟨declares_of_faultless hf, hn, rfl, rfl, rfl, ?_, rfl, rfl⟩
    refine hlayers.trans (List.map_congr_left fun k _ => ?_)
    rw [events_one, List.map_map]
    rfl

theorem layers_total (hn : NoConflict g bases) :
    ∃ layers, (ordersOf g).mapM (layerOf g (groupsOf g bases)) = .ok layers := by
  have hlayers : ∀ orders : List Nat, (∀ k ∈ orders, ((atOrder g (groupsOf g bases) k).map (·.2.2)).Nodup) →
      ∃ layers, orders.mapM (layerOf g (groupsOf g bases)) = .ok layers := by
    intro orders
    induction orders with
    | nil => exact fun _ => ⟨[], rfl⟩
    | cons k rest ih =>
      intro h
      obtain ⟨hk, hrest⟩ := List.forall_mem_cons.mp h
      obtain ⟨layers, hl⟩ := ih hrest
      have hnone := firstRepeat?_eq_none.mpr ⟨hk, fun q _ => List.not_mem_nil⟩
      refine ⟨(atOrder g (groupsOf g bases) k).map (fun (basis, check, data) => pairOf basis check data) :: layers, ?_⟩
      rw [List.mapM_cons, hl]
      simp only [layerOf, hnone, bind, Except.bind, pure, Except.pure]
  exact hlayers (ordersOf g) hn

/-- Nothing but its conflicts and its other checks keeps a graph from having a layout. -/
theorem ofGraph_total (hd : Declares bases g) (hn : NoConflict g bases) (policy : BoundaryPolicy) :
    ∃ l, ofGraph g bases policy = .ok l := by
  have hfault : (g.nodes.toList.zipIdx.findSome? fun (node, q) => nodeFault? bases node q) = none := by
    refine List.findSome?_eq_none_iff.mpr fun a ha => ?_
    obtain ⟨n, q⟩ := a
    have hnode : g.node? q = some n := by
      simpa [Graph.node?, List.mk_mem_zipIdx_iff_getElem?] using ha
    cases hr : n.role with
    | data => simp [nodeFault?, hr]
    | check b =>
      obtain ⟨hy, hb⟩ := hd q n b hnode hr
      cases b <;> simp_all [nodeFault?]
  obtain ⟨layers, hl⟩ := layers_total hn
  simp only [groupsOf] at hl
  unfold ofGraph
  simp only [hfault, hl, bind, Except.bind, pure, Except.pure]
  exact ⟨_, rfl⟩

theorem nodeFault?_ne_layerConflict (node : Node) (p : Qubit) (k : Nat) (q : Qubit) :
    nodeFault? bases node p ≠ some (.layerConflict k q) := by
  intro h
  unfold nodeFault? at h
  cases hr : node.role with
  | data =>
    rw [hr] at h
    cases h
  | check b =>
    rw [hr] at h
    cases b with
    | y => cases h
    | x =>
      simp only at h
      split at h <;> cases h
    | z =>
      simp only at h
      split at h <;> cases h

theorem ofGraph_ne_layerConflict (hn : NoConflict g bases) (policy : BoundaryPolicy) (k : Nat) (q : Qubit) :
    ofGraph g bases policy ≠ .error (.layerConflict k q) := by
  obtain ⟨layers, hl⟩ := layers_total hn
  simp only [groupsOf] at hl
  intro h
  unfold ofGraph at h
  cases hf : g.nodes.toList.zipIdx.findSome? fun (node, q) => nodeFault? bases node q with
  | some e =>
    obtain ⟨⟨n, p⟩, -, hfault⟩ := List.exists_of_findSome?_eq_some hf
    rw [hf] at h
    cases h
    exact nodeFault?_ne_layerConflict n p k q hfault
  | none =>
    rw [hf] at h
    simp only [hl, bind, Except.bind, pure, Except.pure] at h
    cases h

/-- Where at one order no two checks go to one data qubit, no layer has a conflict. -/
theorem noConflict_of_reach (hs : g.Sound) (hb : bases.Nodup)
    (h : ∀ b b' c c' k data, c ∈ g.checkQubits b → c' ∈ g.checkQubits b' → ⟨k, data⟩ ∈ g.links c →
      ⟨k, data⟩ ∈ g.links c' → c = c') : NoConflict g bases := by
  intro k _
  refine List.Nodup.map_on (fun i hi i' hi' he => ?_) (List.Nodup.of_map _ (atOrder_checks_nodup (checks_once hb) k))
  obtain ⟨-, hc, hlink⟩ := (mem_atOrder hs).mp hi
  obtain ⟨-, hc', hlink'⟩ := (mem_atOrder hs).mp hi'
  rw [← he] at hlink'
  have hsame := h _ _ _ _ _ _ hc hc' hlink hlink'
  rw [← hsame] at hc'
  exact Prod.ext (Graph.basis_unique hc hc') (Prod.ext hsame he)

/-- The policy decides which checks are skipped. -/
theorem skipped_by_policy (h : ofGraph g bases policy = .ok l) :
    (policy = .emit → l.skipped = []) ∧
      (policy = .skip → l.skipped = (groupsOf g bases).flatMap (lighterThanHeaviest g)) := by
  unfold ofGraph at h
  cases hf : g.nodes.toList.zipIdx.findSome? fun (node, q) => nodeFault? bases node q with
  | some e => rw [hf] at h; cases h
  | none =>
    rw [hf] at h
    obtain ⟨layers, -, hl⟩ := exists_of_bind h
    cases hl
    constructor
    · rintro rfl
      rfl
    · rintro rfl
      rfl

theorem skipped_emit (h : ofGraph g bases .emit = .ok l) : l.skipped = [] := (skipped_by_policy h).1 rfl

theorem skipped_skip (h : ofGraph g bases .skip = .ok l) :
    l.skipped = (groupsOf g bases).flatMap (lighterThanHeaviest g) := (skipped_by_policy h).2 rfl

namespace Fits

variable (hf : Fits g bases l)

include hf

theorem allChecks : l.allChecks = bases.flatMap g.checkQubits := by
  rw [Layout.allChecks, hf.groups, groupsOf, List.flatMap_map]

theorem mem_allChecks {q : Qubit} : q ∈ l.allChecks ↔ ∃ b, q ∈ g.checkQubits b := by
  rw [hf.allChecks, List.mem_flatMap]
  constructor
  · rintro ⟨b, -, hq⟩; exact ⟨b, hq⟩
  · rintro ⟨b, hq⟩
    obtain ⟨n, hn, hr⟩ := Graph.mem_checkQubits.mp hq
    exact ⟨b, (hf.declares q n b hn hr).2, hq⟩

theorem allChecks_nodup (hb : bases.Nodup) : l.allChecks.Nodup := by
  rw [hf.allChecks]
  exact checks_once hb

/-- A basis whose checks have interactions is listed once: at the order of one of them it
    would otherwise use a data qubit twice. -/
theorem once_of_joined (hs : g.Sound) (hj : ∀ b c, c ∈ g.checkQubits b → g.links c ≠ []) : l.allChecks.Nodup := by
  rw [hf.allChecks, List.nodup_flatMap]
  refine ⟨fun b _ => Graph.checkQubits_nodup b, List.pairwise_iff_forall_sublist.mpr fun {b b'} hsub c hc hc' => ?_⟩
  obtain rfl := Graph.basis_unique hc hc'
  obtain ⟨link, hlink⟩ := List.exists_mem_of_ne_nil _ (hj b c hc)
  have htwice : ((atOrder g (groupsOf g [b, b]) link.order).map (·.2.2)).Nodup :=
    (((hsub.map _).flatMap _).map _).nodup (hf.noConflict link.order (mem_ordersOf.mpr ⟨c, link, hlink, rfl⟩))
  have hmem : link.data ∈ (atOrder g (groupsOf g [b]) link.order).map (·.2.2) :=
    List.mem_map.mpr ⟨(b, c, link.data), (mem_atOrder hs).mpr ⟨by simp, hc, hlink⟩, rfl⟩
  have hsplit : atOrder g (groupsOf g [b, b]) link.order =
      atOrder g (groupsOf g [b]) link.order ++ atOrder g (groupsOf g [b]) link.order := by
    simp [atOrder, groupsOf]
  rw [hsplit, List.map_append] at htwice
  exact (List.nodup_append.mp htwice).2.2 _ hmem _ hmem rfl

theorem data_nodup : l.data.Nodup := by rw [hf.data]; exact Graph.dataQubits_nodup

theorem check_not_data {q : Qubit} (h : q ∈ l.allChecks) : q ∉ l.data := by
  rw [hf.data, Graph.mem_dataQubits]
  obtain ⟨b, hq⟩ := hf.mem_allChecks.mp h
  simp [Graph.not_isData_of_check hq]

/-- A declared basis has a group, and any other has no checks. -/
theorem checks (b : CheckBasis) : l.checks b = g.checkQubits b := by
  by_cases hb : b ∈ bases
  · have hfind : l.groups.find? (·.basis == b) = some ⟨b, g.checkQubits b⟩ := by
      rw [hf.groups, groupsOf, List.find?_map, Option.map_eq_some_iff]
      refine ⟨b, ?_, rfl⟩
      cases h : bases.find? ((fun x => x.basis == b) ∘ fun basis => (⟨basis, g.checkQubits basis⟩ : CheckGroup)) with
      | none => simpa using List.find?_eq_none.mp h b hb
      | some b' => simpa using List.find?_some h
    rw [Layout.checks, hfind]
  · have hnone : l.groups.find? (·.basis == b) = none := by
      rw [hf.groups, groupsOf, List.find?_eq_none]
      intro group hg
      obtain ⟨b', hb', rfl⟩ := List.mem_map.mp hg
      simp only [beq_iff_eq]
      exact fun he => hb (he ▸ hb')
    have hempty : g.checkQubits b = [] := by
      refine List.eq_nil_iff_forall_not_mem.mpr fun q hq => ?_
      obtain ⟨n, hn, hr⟩ := Graph.mem_checkQubits.mp hq
      exact hb (hf.declares q n b hn hr).2
    rw [Layout.checks, hnone, hempty]

theorem checks_nodup (b : CheckBasis) : (l.checks b).Nodup := by rw [hf.checks]; exact Graph.checkQubits_nodup b

theorem checks_subset (b : CheckBasis) : l.checks b ⊆ l.allChecks := by
  intro q hq
  rw [hf.checks] at hq
  exact hf.mem_allChecks.mpr ⟨b, hq⟩

theorem support {q : Qubit} (h : q ∈ l.allChecks) : l.support q = (g.links q).map (·.data) := by
  obtain ⟨b, hq⟩ := hf.mem_allChecks.mp h
  have hfind : l.supports.find? (·.1 == q) = some (q, g.support q) := by
    rw [hf.supports, List.find?_map, Option.map_eq_some_iff]
    refine ⟨q, ?_, rfl⟩
    cases hx : l.allChecks.find? ((fun x => x.1 == q) ∘ fun check => (check, g.support check)) with
    | none => simpa using List.find?_eq_none.mp hx q h
    | some q' => simpa using List.find?_some hx
  rw [Layout.support, hfind]
  exact Graph.support_check (Graph.not_isData_of_check hq)

theorem mem_allQubits {q : Qubit} : q ∈ l.allQubits ↔ q < g.size := by rw [hf.allQubits, List.mem_range]

theorem data_lt {q : Qubit} (h : q ∈ l.data) : q < g.size := by
  rw [hf.data] at h; exact Graph.qubitsWhere_lt h

theorem check_lt {q : Qubit} (h : q ∈ l.allChecks) : q < g.size := by
  obtain ⟨b, hq⟩ := hf.mem_allChecks.mp h
  exact Graph.qubitsWhere_lt hq

theorem data_or_check {q : Qubit} (h : q < g.size) : q ∈ l.data ∨ q ∈ l.allChecks := by
  have hnode : g.node? q = some g.nodes[q] := Array.getElem?_eq_getElem h
  cases hr : g.nodes[q].role with
  | data =>
    left
    rw [hf.data, Graph.mem_dataQubits, Graph.isData_iff]
    exact ⟨_, hnode, by rw [hr]; rfl⟩
  | check b => exact .inr (hf.mem_allChecks.mpr ⟨b, Graph.mem_checkQubits.mpr ⟨_, hnode, hr⟩⟩)

/-- Checks and data together are no more than the qubits. -/
theorem sizes (hn : l.allChecks.Nodup) : l.data.length + l.allChecks.length ≤ g.size := by
  have hall : (l.data ++ l.allChecks).Nodup :=
    List.nodup_append.mpr ⟨hf.data_nodup, hn, fun p hp q hq he => hf.check_not_data hq (he ▸ hp)⟩
  have hsub : l.data ++ l.allChecks ⊆ List.range g.size := by
    intro q hq
    rw [List.mem_range]
    rcases List.mem_append.mp hq with hq | hq
    · exact hf.data_lt hq
    · exact hf.check_lt hq
  simpa using (hall.subperm hsub).length_le

omit hf in
/-- The targets of events are their checks and their data. -/
theorem targets_perm (events : List Event) :
    (flattenPairs (events.map Event.pair)).Perm (events.map (·.check) ++ events.map (·.data)) := by
  induction events with
  | nil => exact .nil
  | cons e rest ih =>
    have hswap : (flattenPairs ((e :: rest).map Event.pair)).Perm
        (e.check :: e.data :: flattenPairs (rest.map Event.pair)) := by
      obtain ⟨k, basis, check, data⟩ := e
      cases basis with
      | x => exact .refl _
      | y => exact .swap _ _ _
      | z => exact .swap _ _ _
    refine hswap.trans (.cons _ ((ih.cons e.data).trans ?_))
    exact List.perm_middle.symm

theorem layer_nodup (hs : g.Sound) (hn : l.allChecks.Nodup) {layer : List (Qubit × Qubit)} (h : layer ∈ l.layers) :
    (flattenPairs layer).Nodup := by
  rw [hf.layers] at h
  obtain ⟨k, hk, rfl⟩ := List.mem_map.mp h
  refine (targets_perm _).nodup_iff.mpr (List.nodup_append.mpr ⟨?_, ?_, ?_⟩)
  · rw [events_one, List.map_map]
    exact atOrder_checks_nodup (hf.allChecks ▸ hn) k
  · rw [events_one, List.map_map]
    exact hf.noConflict k hk
  · intro c hc d hd he
    obtain ⟨e, hmem, rfl⟩ := List.mem_map.mp hc
    obtain ⟨e', hmem', rfl⟩ := List.mem_map.mp hd
    have hcheck := Graph.not_isData_of_check ((mem_events hs).mp hmem).2.2.1
    rw [he, events_isData hs hmem'] at hcheck
    cases hcheck

/-- A layout that lists no check twice is tidy. -/
theorem tidy_of_once (hs : g.Sound) (hn : l.allChecks.Nodup) : l.Tidy where
  allQubits := by rw [hf.allQubits]; exact List.nodup_range
  xChecks := hf.checks_nodup .x
  layers := fun _ h => hf.layer_nodup hs hn h
  allChecks := hn
  data := hf.data_nodup
  zChecks := hf.checks_subset .z
  support := by
    intro c hc q hq
    rw [hf.support (hf.checks_subset .z hc)] at hq
    obtain ⟨k, hk, rfl⟩ := List.mem_map.mp hq
    rw [hf.data, Graph.mem_dataQubits]
    exact hs.link_isData hk

theorem tidy (hs : g.Sound) (hb : bases.Nodup) : l.Tidy := hf.tidy_of_once hs (hf.allChecks_nodup hb)

theorem inReach_of_once (hn : l.allChecks.Nodup) (h : g.size < 2 ^ 30) : l.InReach := by
  have hsize := hf.sizes hn
  constructor <;> simp only [RecordOffset.reach] <;> omega

theorem inReach (hb : bases.Nodup) (h : g.size < 2 ^ 30) : l.InReach := hf.inReach_of_once (hf.allChecks_nodup hb) h

end Fits

end Layout

/-! ## A Bell pair

  The smallest graph with checks of both bases: two data qubits, one Z check and one X
  check on both. -/

def bellPair : Graph :=
  ⟨#[⟨.data, none, none, []⟩, ⟨.data, none, none, []⟩, ⟨.check .z, none, none, [⟨1, 0⟩, ⟨2, 1⟩]⟩,
    ⟨.check .x, none, none, [⟨3, 0⟩, ⟨4, 1⟩]⟩]⟩

theorem bellPair_built : bellPair.Built := by
  have hdata := @Graph.Built.addQubit _ _ .data none none 1 (@Graph.Built.addQubit _ _ .data none none 0 .empty rfl) rfl
  have hchecks := @Graph.Built.addQubit _ _ (.check .x) none none 3
    (@Graph.Built.addQubit _ _ (.check .z) none none 2 hdata rfl) rfl
  have hz := @Graph.Built.addInteraction _ _ 2 1 2 (@Graph.Built.addInteraction _ _ 2 0 1 hchecks rfl) rfl
  exact @Graph.Built.addInteraction _ _ 3 1 4 (@Graph.Built.addInteraction _ _ 3 0 3 hz rfl) rfl

def bellLayout : Layout where
  allQubits := [0, 1, 2, 3]
  data := [0, 1]
  groups := [⟨.z, [2]⟩, ⟨.x, [3]⟩]
  layers := [[(0, 2)], [(1, 2)], [(3, 0)], [(3, 1)]]
  idleData := []
  supports := [(2, [0, 1]), (3, [0, 1])]
  skipped := []

theorem bellLayout_ok : Layout.ofGraph bellPair [.z, .x] .skip = .ok bellLayout := by rfl

end QuantumMemory

/-
  QuantumMemory.Proofs.Graph.Views — what the views of a sound graph show: the qubits of a
  role, each once, and the links of a check as its interactions, its support and its
  neighbours.
-/

import QuantumMemory.Code.Layout
import QuantumMemory.Proofs.Graph.Built

namespace QuantumMemory

namespace Graph

variable {g : Graph}

/-- The links of a qubit, none if there is no such qubit. -/
def links (g : Graph) (q : Qubit) : List Link := ((g.node? q).map (·.links)).getD []

theorem links_of_node {q : Qubit} {n : Node} (h : g.node? q = some n) : g.links q = n.links := by
  simp [links, h]

theorem mem_links {q : Qubit} {l : Link} : l ∈ g.links q ↔ ∃ n, g.node? q = some n ∧ l ∈ n.links := by
  unfold links
  cases g.node? q <;> simp

theorem links_addInteraction {g' : Graph} {check data : Qubit} {order : Nat}
    (h : g.addInteraction check data order = .ok g') (q : Qubit) :
    g'.links q = if check = q then insertLink ⟨order, data⟩ (g.links q) else g.links q := by
  obtain ⟨node, hnode, -, -, -, -, rfl⟩ := addInteraction_ok h
  rw [links, node?_modify]
  by_cases he : check = q
  · subst he
    rw [if_pos rfl, if_pos rfl, links_of_node hnode, hnode]
    rfl
  · rw [if_neg he, if_neg he]
    rfl

theorem Sound.links_ascend (hs : g.Sound) (q : Qubit) : (g.links q).Pairwise (·.order < ·.order) := by
  unfold links
  cases h : g.node? q with
  | none => exact .nil
  | some n => exact hs.ordersAscend q n h

theorem Sound.links_data_nodup (hs : g.Sound) (q : Qubit) : ((g.links q).map (·.data)).Nodup := by
  unfold links
  cases h : g.node? q with
  | none => exact .nil
  | some n => exact hs.dataOnce q n h

theorem Sound.links_nodup (hs : g.Sound) (q : Qubit) : (g.links q).Nodup :=
  .of_map _ (hs.links_data_nodup q)

theorem Sound.link_isData (hs : g.Sound) {q : Qubit} {l : Link} (h : l ∈ g.links q) : g.isData l.data = true := by
  obtain ⟨n, hn, hl⟩ := mem_links.mp h
  exact hs.linkData q n hn l hl

theorem Sound.links_orders_nodup (hs : g.Sound) (q : Qubit) : ((g.links q).map (·.order)).Nodup :=
  List.pairwise_map.mpr ((hs.links_ascend q).imp Nat.ne_of_lt)

theorem Sound.link_order_inj (hs : g.Sound) {q : Qubit} {l l' : Link} (h : l ∈ g.links q) (h' : l' ∈ g.links q)
    (he : l.order = l'.order) : l = l' :=
  List.inj_on_of_nodup_map (hs.links_orders_nodup q) h h' he

theorem Sound.link_data_inj (hs : g.Sound) {q : Qubit} {l l' : Link} (h : l ∈ g.links q) (h' : l' ∈ g.links q)
    (he : l.data = l'.data) : l = l' :=
  List.inj_on_of_nodup_map (hs.links_data_nodup q) h h' he

/-! ## The qubits of a role -/

theorem mem_qubitsWhere {p : Node → Bool} {q : Qubit} :
    q ∈ g.qubitsWhere p ↔ ∃ n, g.node? q = some n ∧ p n = true := by
  simp only [qubitsWhere, List.mem_filterMap, Prod.exists, Option.ite_none_right_eq_some, Option.some.injEq]
  constructor
  · rintro ⟨n, k, hm, hp, rfl⟩
    exact ⟨n, by simpa [node?, List.mk_mem_zipIdx_iff_getElem?] using hm, hp⟩
  · rintro ⟨n, hn, hp⟩
    exact ⟨n, q, by simpa [node?, List.mk_mem_zipIdx_iff_getElem?] using hn, hp, rfl⟩

theorem qubitsWhere_ascend (p : Node → Bool) : (g.qubitsWhere p).Pairwise (· < ·) := by
  have hidx : (g.nodes.toList.zipIdx).Pairwise (fun a b => a.2 < b.2) := by
    have h := List.zipIdx_map_snd 0 g.nodes.toList
    exact List.pairwise_map.mp (h ▸ List.pairwise_lt_range')
  refine List.pairwise_filterMap.mpr (hidx.imp ?_)
  rintro ⟨m, i⟩ ⟨n, j⟩ hlt a ha b hb
  simp only [Option.ite_none_right_eq_some, Option.some.injEq] at ha hb
  obtain ⟨-, rfl⟩ := ha
  obtain ⟨-, rfl⟩ := hb
  exact hlt

theorem qubitsWhere_nodup (p : Node → Bool) : (g.qubitsWhere p).Nodup := (qubitsWhere_ascend p).imp Nat.ne_of_lt

theorem qubitsWhere_lt {p : Node → Bool} {q : Qubit} (h : q ∈ g.qubitsWhere p) : q < g.size := by
  obtain ⟨n, hn, -⟩ := mem_qubitsWhere.mp h
  exact (Array.getElem?_eq_some_iff.mp hn).1

theorem mem_dataQubits {q : Qubit} : q ∈ g.dataQubits ↔ g.isData q = true := by
  rw [dataQubits, mem_qubitsWhere, isData_iff]

theorem mem_checkQubits {basis : CheckBasis} {q : Qubit} :
    q ∈ g.checkQubits basis ↔ ∃ n, g.node? q = some n ∧ n.role = .check basis := by
  simp only [checkQubits, mem_qubitsWhere, beq_iff_eq]

theorem dataQubits_nodup : g.dataQubits.Nodup := qubitsWhere_nodup _

theorem checkQubits_nodup (basis : CheckBasis) : (g.checkQubits basis).Nodup := qubitsWhere_nodup _

theorem not_isData_of_check {basis : CheckBasis} {q : Qubit} (h : q ∈ g.checkQubits basis) : g.isData q = false := by
  obtain ⟨n, hn, hr⟩ := mem_checkQubits.mp h
  simp [isData, role?, hn, hr, Role.isData]

/-- A check has one basis. -/
theorem basis_unique {b b' : CheckBasis} {q : Qubit} (h : q ∈ g.checkQubits b) (h' : q ∈ g.checkQubits b') : b = b' := by
  obtain ⟨n, hn, hr⟩ := mem_checkQubits.mp h
  obtain ⟨n', hn', hr'⟩ := mem_checkQubits.mp h'
  rw [hn] at hn'
  cases hn'
  rw [hr] at hr'
  exact Role.check.inj hr'

/-! ## The interactions of a check -/

theorem interactions_check {q : Qubit} (h : g.isData q = false) :
    g.interactions q = (g.links q).map fun l => (l.order, l.data) := by
  unfold interactions links
  cases hn : g.node? q with
  | none => rfl
  | some n =>
    have hr : n.role.isData = false := by simpa [isData, role?, hn] using h
    simp [hr]

theorem support_check {q : Qubit} (h : g.isData q = false) : g.support q = (g.links q).map (·.data) := by
  simp [support, interactions_check h]

theorem neighbour?_check (hs : g.Sound) {q : Qubit} (h : g.isData q = false) {order : Nat} {data : Qubit} :
    g.neighbour? q order = some data ↔ ⟨order, data⟩ ∈ g.links q := by
  rw [neighbour?, interactions_check h, List.find?_map, Option.map_map, Option.map_eq_some_iff]
  constructor
  · rintro ⟨l, hl, rfl⟩
    have hm := List.mem_of_find?_eq_some hl
    have ho := List.find?_some hl
    simp only [Function.comp_apply, beq_iff_eq] at ho
    subst ho
    exact hm
  · intro hm
    obtain ⟨l, hl⟩ : ∃ l, (g.links q).find? ((fun i => i.1 == order) ∘ fun l => (l.order, l.data)) = some l := by
      refine Option.isSome_iff_exists.mp (List.find?_isSome.mpr ⟨_, hm, by simp⟩)
    have ho := List.find?_some hl
    simp only [Function.comp_apply, beq_iff_eq] at ho
    have he := hs.link_order_inj (List.mem_of_find?_eq_some hl) hm ho
    exact ⟨l, hl, by rw [he]; rfl⟩

theorem mem_edges {e : Edge} : e ∈ g.edges ↔ ⟨e.order, e.data⟩ ∈ g.links e.check := by
  simp only [edges, List.mem_flatMap, List.mem_map, Prod.exists, mem_links]
  constructor
  · rintro ⟨n, q, hm, l, hl, rfl⟩
    exact ⟨n, by simpa [node?, List.mk_mem_zipIdx_iff_getElem?] using hm, hl⟩
  · rintro ⟨n, hn, hl⟩
    exact ⟨n, e.check, by simpa [node?, List.mk_mem_zipIdx_iff_getElem?] using hn, _, hl, rfl⟩

end Graph

end QuantumMemory

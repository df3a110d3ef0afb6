/-
  QuantumMemory.Proofs.Graph.Edges — the edges of a graph and their order.

  Edges go by check and then by order (`Edge.Before`), those of a sound graph strictly so
  (`Sound.edges_ascend`). A strictly ascending list is known from its members. Edges are apart
  (`Edge.Apart`) if those of one check differ in their data as well as in their order.
-/

import Mathlib.Data.List.Sort
import QuantumMemory.Proofs.Graph.Views

namespace QuantumMemory

namespace Edge

/-- By check and then by order. -/
def Before (e e' : Edge) : Prop := e.check < e'.check ∨ (e.check = e'.check ∧ e.order < e'.order)

theorem Before.asymm {e e' : Edge} (h : Before e e') : ¬Before e' e := by
  rintro (hlt' | ⟨heq', ho'⟩)
  · rcases h with hlt | ⟨heq, -⟩
    · exact Nat.lt_asymm hlt hlt'
    · exact Nat.ne_of_lt hlt' heq.symm
  · rcases h with hlt | ⟨-, ho⟩
    · exact Nat.ne_of_lt hlt heq'.symm
    · exact Nat.lt_asymm ho ho'

instance : Std.Irrefl Before := ⟨fun _ h => h.asymm h⟩

instance : Std.Antisymm Before := ⟨fun _ _ h h' => absurd h' h.asymm⟩

/-- Of one check they lead to two data qubits, at two orders. -/
def Apart (e e' : Edge) : Prop := e.check = e'.check → e.data ≠ e'.data ∧ e.order ≠ e'.order

theorem Apart.symm {e e' : Edge} (h : Apart e e') : Apart e' e := fun he => (h he.symm).imp Ne.symm Ne.symm

instance : Std.Symm Apart := ⟨fun _ _ => Apart.symm⟩

end Edge

namespace Graph

variable {g : Graph}

theorem isData_of_links {q : Qubit} (hs : g.Sound) {l : Link} (h : l ∈ g.links q) : g.isData q = false := by
  obtain ⟨n, hn, hl⟩ := mem_links.mp h
  rw [Bool.eq_false_iff, ne_eq, isData_iff]
  rintro ⟨n', hn', hdata⟩
  rw [hn] at hn'
  cases hn'
  rw [hs.dataLinks q n hn hdata] at hl
  cases hl

theorem edges_ascend_of_links (hlinks : ∀ q n, g.node? q = some n → n.links.Pairwise (·.order < ·.order)) :
    g.edges.Pairwise Edge.Before := by
  have hnumbers : g.nodes.toList.zipIdx.Pairwise fun a b => a.2 < b.2 := by
    have h := List.zipIdx_map_snd 0 g.nodes.toList
    exact List.pairwise_map.mp (h ▸ List.pairwise_lt_range')
  refine List.pairwise_flatMap.mpr ⟨fun a ha => ?_, hnumbers.imp fun hlt => ?_⟩
  · obtain ⟨n, q⟩ := a
    have hn : g.node? q = some n := by
      simpa [node?, List.mk_mem_zipIdx_iff_getElem?] using ha
    exact List.pairwise_map.mpr ((hlinks q n hn).imp fun ho => .inr ⟨rfl, ho⟩)
  · intro e he e' he'
    obtain ⟨l, -, rfl⟩ := List.mem_map.mp he
    obtain ⟨l', -, rfl⟩ := List.mem_map.mp he'
    exact .inl hlt

theorem Sound.edges_ascend (hs : g.Sound) : g.edges.Pairwise Edge.Before := edges_ascend_of_links hs.ordersAscend

theorem Sound.edges_nodup (hs : g.Sound) : g.edges.Nodup := hs.edges_ascend.nodup

end Graph

end QuantumMemory

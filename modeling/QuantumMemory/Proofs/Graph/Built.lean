/-
  QuantumMemory.Proofs.Graph.Built — which graphs there are, and what holds of all of them.

  A graph is what adding qubits and interactions makes of the empty one (`Built`). Whatever
  the order of the additions, only checks have links, the links of a check lead to data
  qubits, ascend strictly in their order and repeat no data qubit, and no two qubits stand
  on one coordinate (`Built.sound`).
-/

import Mathlib.Data.List.Nodup
import Mathlib.Data.List.Sort
import Mathlib.Tactic.Common
import QuantumMemory.Lattice.Graph

namespace QuantumMemory

namespace Graph

/-- The graphs that adding qubits and interactions makes. -/
inductive Built : Graph → Prop
  | empty : Built .empty
  | addQubit {g g' : Graph} {role : Role} {coordinate : Option Coordinate} {label : Option String} {q : Qubit} :
    Built g → g.addQubit role coordinate label = .ok (g', q) → Built g'
  | addInteraction {g g' : Graph} {check data : Qubit} {order : Nat} :
    Built g → g.addInteraction check data order = .ok g' → Built g'

structure Sound (g : Graph) : Prop where
  dataLinks : ∀ q n, g.node? q = some n → n.role.isData = true → n.links = []
  linkData : ∀ q n, g.node? q = some n → ∀ l ∈ n.links, g.isData l.data = true
  ordersAscend : ∀ q n, g.node? q = some n → n.links.Pairwise (·.order < ·.order)
  ordersPositive : ∀ q n, g.node? q = some n → ∀ l ∈ n.links, 0 < l.order
  dataOnce : ∀ q n, g.node? q = some n → (n.links.map (·.data)).Nodup
  placesApart : ∀ p q m n, g.node? p = some m → g.node? q = some n → m.coordinate ≠ none →
    m.coordinate = n.coordinate → p = q

/-! ## Links -/

theorem mem_insertLink {link l : Link} {links : List Link} :
    l ∈ insertLink link links ↔ l = link ∨ l ∈ links := by
  induction links with
  | nil => simp [insertLink]
  | cons other rest ih =>
    simp only [insertLink]
    split
    · simp
    · rw [List.mem_cons, ih, List.mem_cons]; tauto

theorem insertLink_ascends {link : Link} {links : List Link} (h : links.Pairwise (·.order < ·.order))
    (hne : ∀ l ∈ links, l.order ≠ link.order) : (insertLink link links).Pairwise (·.order < ·.order) := by
  induction links with
  | nil => simp [insertLink]
  | cons other rest ih =>
    obtain ⟨h1, h2⟩ := List.pairwise_cons.mp h
    simp only [insertLink]
    split
    · rename_i hlt
      refine List.pairwise_cons.mpr ⟨fun l hl => ?_, h⟩
      rcases List.mem_cons.mp hl with rfl | hl
      · exact hlt
      · exact Nat.lt_trans hlt (h1 l hl)
    · rename_i hge
      have hother := hne other List.mem_cons_self
      refine List.pairwise_cons.mpr ⟨fun l hl => ?_, ih h2 fun l hl => hne l (List.mem_cons_of_mem _ hl)⟩
      rcases mem_insertLink.mp hl with rfl | hl
      · omega
      · exact h1 l hl

theorem insertLink_perm (link : Link) (links : List Link) : (insertLink link links).Perm (link :: links) := by
  induction links with
  | nil => simp [insertLink]
  | cons other rest ih =>
    simp only [insertLink]
    split
    · exact .refl _
    · exact (List.Perm.cons other ih).trans (List.Perm.swap link other rest)

theorem clash?_none {check : Qubit} {link : Link} {links : List Link} (h : clash? check link links = none) :
    ∀ l ∈ links, l.data ≠ link.data ∧ l.order ≠ link.order := by
  intro l hl
  have := List.findSome?_eq_none_iff.mp h l hl
  split at this
  · cases this
  · split at this
    · cases this
    · exact ⟨‹_›, ‹_›⟩

/-! ## What the two additions do -/

@[simp] theorem node?_empty (q : Qubit) : Graph.empty.node? q = none := rfl

theorem addQubit_ok {g g' : Graph} {role : Role} {coordinate : Option Coordinate} {label : Option String} {q : Qubit}
    (h : g.addQubit role coordinate label = .ok (g', q)) :
    q = g.size ∧ g' = ⟨g.nodes.push ⟨role, coordinate, label, []⟩⟩ ∧ ∀ c, coordinate = some c → g.find? c = none := by
  simp only [addQubit] at h
  split at h
  · cases h
  · rename_i hnone
    cases h
    refine ⟨rfl, rfl, fun c hc => ?_⟩
    subst hc
    cases hf : g.find? c with
    | none => rfl
    | some p => simp [hf] at hnone

theorem addQubit_fresh {g : Graph} (role : Role) {coordinate : Option Coordinate} (label : Option String)
    (h : ∀ c, coordinate = some c → g.find? c = none) :
    g.addQubit role coordinate label = .ok (⟨g.nodes.push ⟨role, coordinate, label, []⟩⟩, g.size) := by
  cases coordinate with
  | none => rfl
  | some c => simp [addQubit, h c rfl]

theorem node?_push (g : Graph) (n : Node) (q : Qubit) :
    (⟨g.nodes.push n⟩ : Graph).node? q = if q = g.size then some n else g.node? q :=
  Array.getElem?_push

theorem find?_none {g : Graph} {c : Coordinate} (h : g.find? c = none) :
    ∀ q n, g.node? q = some n → n.coordinate ≠ some c := by
  intro q n hn hc
  have := Array.findIdx?_eq_none_iff.mp h n (Array.mem_of_getElem? hn)
  simp [hc] at this

/-- What an interaction needs, and that it adds one link. -/
theorem addInteraction_ok {g g' : Graph} {check data : Qubit} {order : Nat}
    (h : g.addInteraction check data order = .ok g') :
    ∃ node, g.node? check = some node ∧ node.role.isData = false ∧ g.isData data = true ∧ 0 < order ∧
      (∀ l ∈ node.links, l.data ≠ data ∧ l.order ≠ order) ∧
      g' = ⟨g.nodes.modify check fun n => { n with links := insertLink ⟨order, data⟩ n.links }⟩ := by
  simp only [addInteraction] at h
  split at h
  · cases h
  rename_i node hnode
  split at h
  · cases h
  rename_i hcheck
  split at h
  · cases h
  rename_i role hrole
  split at h
  · cases h
  rename_i hdata
  split at h
  · cases h
  rename_i horder
  split at h
  · cases h
  rename_i hclash
  cases h
  exact ⟨node, hnode, by simpa using hcheck, by simpa [isData, hrole] using hdata, by omega,
    clash?_none hclash, rfl⟩

theorem node?_modify (g : Graph) (check q : Qubit) (f : Node → Node) :
    (⟨g.nodes.modify check f⟩ : Graph).node? q = if check = q then (g.node? q).map f else g.node? q :=
  Array.getElem?_modify

theorem isData_iff {g : Graph} {q : Qubit} :
    g.isData q = true ↔ ∃ n, g.node? q = some n ∧ n.role.isData = true := by
  unfold isData role?
  cases g.node? q <;> simp

theorem isData_addQubit {g g' : Graph} {role : Role} {coordinate : Option Coordinate} {label : Option String} {q : Qubit}
    (h : g.addQubit role coordinate label = .ok (g', q)) {p : Qubit} (hp : g.isData p = true) : g'.isData p = true := by
  obtain ⟨-, rfl, -⟩ := addQubit_ok h
  obtain ⟨n, hn, hr⟩ := isData_iff.mp hp
  have hlt : p < g.size := (Array.getElem?_eq_some_iff.mp hn).1
  refine isData_iff.mpr ⟨n, ?_, hr⟩
  rw [node?_push, if_neg (Nat.ne_of_lt hlt)]
  exact hn

/-! ## Every graph is sound -/

theorem empty_sound : Graph.empty.Sound := by
  constructor <;> (intros; simp_all)

theorem addQubit_sound {g g' : Graph} (hs : g.Sound) {role : Role} {coordinate : Option Coordinate}
    {label : Option String} {q : Qubit} (h : g.addQubit role coordinate label = .ok (g', q)) : g'.Sound := by
  have stays := fun p => @isData_addQubit _ _ _ _ _ _ h p
  obtain ⟨rfl, rfl, hfree⟩ := addQubit_ok h
  have old : ∀ p n, p ≠ g.size → (⟨g.nodes.push ⟨role, coordinate, label, []⟩⟩ : Graph).node? p = some n →
      g.node? p = some n := by
    intro p n hp hn
    rwa [node?_push, if_neg hp] at hn
  have new : ∀ n, (⟨g.nodes.push ⟨role, coordinate, label, []⟩⟩ : Graph).node? g.size = some n →
      n = ⟨role, coordinate, label, []⟩ := by
    intro n hn
    rw [node?_push, if_pos rfl] at hn
    exact (Option.some.inj hn).symm
  refine ⟨fun p n hn hr => ?_, fun p n hn l hl => ?_, fun p n hn => ?_, fun p n hn l hl => ?_, fun p n hn => ?_,
    fun p p' m n hm hn hc he => ?_⟩
  · by_cases e : p = g.size
    · subst e; rw [new n hn]
    · exact hs.dataLinks p n (old p n e hn) hr
  · by_cases e : p = g.size
    · subst e; rw [new n hn] at hl; cases hl
    · exact stays _ (hs.linkData p n (old p n e hn) l hl)
  · by_cases e : p = g.size
    · subst e; rw [new n hn]; exact .nil
    · exact hs.ordersAscend p n (old p n e hn)
  · by_cases e : p = g.size
    · subst e; rw [new n hn] at hl; cases hl
    · exact hs.ordersPositive p n (old p n e hn) l hl
  · by_cases e : p = g.size
    · subst e; rw [new n hn]; exact .nil
    · exact hs.dataOnce p n (old p n e hn)
  · obtain ⟨c, hmc⟩ := Option.ne_none_iff_exists'.mp hc
    by_cases e : p = g.size
    · by_cases e' : p' = g.size
      · rw [e, e']
      · subst e
        have hm' := new m hm
        subst hm'
        exact absurd (he.symm.trans hmc) (find?_none (hfree c hmc) p' n (old p' n e' hn))
    · by_cases e' : p' = g.size
      · subst e'
        have hn' := new n hn
        subst hn'
        exact absurd hmc (find?_none (hfree c (he.symm.trans hmc)) p m (old p m e hm))
      · exact hs.placesApart p p' m n (old p m e hm) (old p' n e' hn) hc he

/-- A node after an interaction is added, from the node before it. -/
theorem node?_addInteraction {g g' : Graph} {check data : Qubit} {order : Nat}
    (h : g.addInteraction check data order = .ok g') {q : Qubit} {n' : Node} (hn : g'.node? q = some n') :
    ∃ n, g.node? q = some n ∧ n'.role = n.role ∧ n'.coordinate = n.coordinate ∧ n'.label = n.label ∧
      n'.links = if check = q then insertLink ⟨order, data⟩ n.links else n.links := by
  obtain ⟨node, -, -, -, -, -, rfl⟩ := addInteraction_ok h
  rw [node?_modify] at hn
  split at hn
  · rename_i e
    obtain ⟨n, hq, rfl⟩ := Option.map_eq_some_iff.mp hn
    exact ⟨n, hq, rfl, rfl, rfl, by simp [e]⟩
  · rename_i e
    exact ⟨n', hn, rfl, rfl, rfl, by simp [e]⟩

theorem isData_addInteraction {g g' : Graph} {check data : Qubit} {order : Nat}
    (h : g.addInteraction check data order = .ok g') (q : Qubit) : g'.isData q = g.isData q := by
  obtain ⟨node, -, -, -, -, -, rfl⟩ := addInteraction_ok h
  unfold isData role?
  rw [node?_modify]
  split
  · cases g.node? q <;> rfl
  · rfl

theorem addInteraction_sound {g g' : Graph} (hs : g.Sound) {check data : Qubit} {order : Nat}
    (h : g.addInteraction check data order = .ok g') : g'.Sound := by
  obtain ⟨node, hnode, hcheck, hdata, hpos, hclash, -⟩ := addInteraction_ok h
  have ends : ∀ q n, check = q → g.node? q = some n → n = node := by
    rintro q n rfl hn; exact Option.some.inj (hn.symm.trans hnode)
  refine ⟨fun q n' hn hr => ?_, fun q n' hn l hl => ?_, fun q n' hn => ?_, fun q n' hn l hl => ?_, fun q n' hn => ?_,
    fun p q m' n' hm hn hc he => ?_⟩
  · obtain ⟨n, hq, hrole, -, -, hl⟩ := node?_addInteraction h hn
    rw [hrole] at hr
    by_cases e : check = q
    · rw [ends q n e hq, hcheck] at hr; cases hr
    · rw [hl, if_neg e]; exact hs.dataLinks q n hq hr
  · obtain ⟨n, hq, -, -, -, hlinks⟩ := node?_addInteraction h hn
    rw [isData_addInteraction h]
    rw [hlinks] at hl
    split at hl
    · rcases mem_insertLink.mp hl with rfl | hl
      · exact hdata
      · exact hs.linkData q n hq l hl
    · exact hs.linkData q n hq l hl
  · obtain ⟨n, hq, -, -, -, hlinks⟩ := node?_addInteraction h hn
    rw [hlinks]
    split
    · rename_i e
      have hn := ends q n e hq
      subst hn
      exact insertLink_ascends (hs.ordersAscend q n hq) fun l hl => (hclash l hl).2
    · exact hs.ordersAscend q n hq
  · obtain ⟨n, hq, -, -, -, hlinks⟩ := node?_addInteraction h hn
    rw [hlinks] at hl
    split at hl
    · rcases mem_insertLink.mp hl with rfl | hl
      · exact hpos
      · exact hs.ordersPositive q n hq l hl
    · exact hs.ordersPositive q n hq l hl
  · obtain ⟨n, hq, -, -, -, hlinks⟩ := node?_addInteraction h hn
    rw [hlinks]
    split
    · rename_i e
      have hn := ends q n e hq
      subst hn
      refine ((insertLink_perm _ _).map _).nodup_iff.mpr (List.nodup_cons.mpr ⟨fun hmem => ?_, hs.dataOnce q n hq⟩)
      obtain ⟨l, hl, hld⟩ := List.mem_map.mp hmem
      exact (hclash l hl).1 hld
    · exact hs.dataOnce q n hq
  · obtain ⟨m, hp, -, hmc, -, -⟩ := node?_addInteraction h hm
    obtain ⟨n, hq, -, hnc, -, -⟩ := node?_addInteraction h hn
    rw [hmc] at hc he
    rw [hnc] at he
    exact hs.placesApart p q m n hp hq hc he

theorem Built.sound {g : Graph} (h : g.Built) : g.Sound := by
  induction h with
  | empty => exact empty_sound
  | addQubit _ h ih => exact addQubit_sound ih h
  | addInteraction _ h ih => exact addInteraction_sound ih h

end Graph

end QuantumMemory

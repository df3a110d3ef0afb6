/-
  QuantumMemory.Proofs.Graph.Index — entries, joints and index of a graph stay in agreement.

  `Agrees` says that qubits carry their places as numbers, that the index has just the
  coordinates of the qubits, that every joint goes from a check to a data qubit, and that the
  joints of one check differ in data and order. An accepted call keeps it
  (`Agrees.withQubit`, `Agrees.withJoint`) and a refused one changes nothing
  (`perform_edit_cases`). The sorted views then show the accepted interactions and nothing
  else (`Agrees.edges_ascend`, `Agrees.interactions_check`).

  Main result: `grown_lawful`, over every run of calls, refused ones among them.
-/

import Mathlib.Data.List.Pairwise
import Mathlib.Data.Prod.Lex
import QuantumMemory.Lattice.Index
import QuantumMemory.Proofs.Graph.Builder
import QuantumMemory.Proofs.Graph.Edges
import QuantumMemory.Proofs.Success

namespace QuantumMemory

/-! ## Sorting -/

namespace Graph

/-- By order and then by the other qubit. -/
def NoLater (i j : Nat × Qubit) : Prop := toLex i ≤ toLex j

instance : DecidableRel NoLater := fun i j => inferInstanceAs (Decidable (toLex i ≤ toLex j))

instance : Std.Total NoLater := ⟨fun i j => le_total (toLex i) (toLex j)⟩

instance : IsTrans (Nat × Qubit) NoLater := ⟨fun i j k => @le_trans _ _ (toLex i) (toLex j) (toLex k)⟩

instance : Std.Antisymm NoLater := ⟨fun i j => @le_antisymm _ _ (toLex i) (toLex j)⟩

theorem insertInteraction_eq (i : Nat × Qubit) (is : List (Nat × Qubit)) :
    insertInteraction i is = is.orderedInsert NoLater i := by
  induction is with
  | nil => rfl
  | cons j rest ih =>
    rw [insertInteraction, List.orderedInsert_cons, ih]
    exact if_congr Prod.Lex.toLex_le_toLex.symm rfl rfl

theorem sorted_interactions (is : List (Nat × Qubit)) : is.foldr insertInteraction [] = is.insertionSort NoLater := by
  have hinsert : insertInteraction = List.orderedInsert NoLater := funext fun i => funext (insertInteraction_eq i)
  rw [hinsert]
  rfl

theorem sorted_congr {is js : List (Nat × Qubit)} (h : is.Perm js) :
    is.foldr insertInteraction [] = js.foldr insertInteraction [] := by
  rw [sorted_interactions, sorted_interactions]
  have hperm := ((is.perm_insertionSort NoLater).trans h).trans (js.perm_insertionSort NoLater).symm
  exact hperm.eq_of_pairwise' (is.pairwise_insertionSort NoLater) (js.pairwise_insertionSort NoLater)

/-- Sorted, the same interactions come in the same order. -/
theorem sorted_of_perm {is js : List (Nat × Qubit)} (h : is.Perm js) (hjs : js.Pairwise NoLater) :
    is.foldr insertInteraction [] = js := by
  rw [sorted_interactions]
  exact (((is.perm_insertionSort NoLater).trans h).eq_of_pairwise' (is.pairwise_insertionSort NoLater) hjs)

end Graph

namespace Edge

def NoLater (e e' : Edge) : Prop := toLex (e.check, e.order) ≤ toLex (e'.check, e'.order)

instance : DecidableRel NoLater :=
  fun e e' => inferInstanceAs (Decidable (toLex (e.check, e.order) ≤ toLex (e'.check, e'.order)))

instance : Std.Total NoLater := ⟨fun e e' => le_total (toLex (e.check, e.order)) (toLex (e'.check, e'.order))⟩

instance : IsTrans Edge NoLater := ⟨fun _ _ _ h h' => le_trans h h'⟩

theorem noLater_iff {e e' : Edge} : NoLater e e' ↔ e.check < e'.check ∨ (e.check = e'.check ∧ e.order ≤ e'.order) :=
  Prod.Lex.toLex_le_toLex

/-- Edges that are apart and in order are strictly so. -/
theorem NoLater.before {e e' : Edge} (h : NoLater e e') (hapart : Apart e e') : Before e e' := by
  rcases noLater_iff.mp h with hlt | ⟨hcheck, horder⟩
  · exact .inl hlt
  · exact .inr ⟨hcheck, Nat.lt_of_le_of_ne horder (hapart hcheck).2⟩

end Edge

/-- A joint as an edge, if its first end is the check. -/
def Joint.edge (j : Joint) : Edge := ⟨j.first, j.second, j.order⟩

namespace IndexedGraph

open QuantumMemory.Graph (sorted_of_perm)

variable {g : IndexedGraph}

theorem insertEdge_eq (e : Edge) (es : List Edge) : insertEdge e es = es.orderedInsert Edge.NoLater e := by
  induction es with
  | nil => rfl
  | cons other rest ih =>
    rw [insertEdge, List.orderedInsert_cons, ih]
    exact if_congr Edge.noLater_iff.symm rfl rfl

theorem edges_eq (g : IndexedGraph) : g.edges = (g.joints.map g.edgeOf).insertionSort Edge.NoLater := by
  have hinsert : insertEdge = List.orderedInsert Edge.NoLater := funext fun e => funext (insertEdge_eq e)
  rw [edges, hinsert]
  rfl

/-! ## Calls -/

theorem perform_get (g : IndexedGraph) : perform g (get : GraphEdit IndexedGraph) = (.ok g, g) := rfl

theorem perform_bind_eq {α β : Type} (g : IndexedGraph) (x : GraphEdit α) (f : α → GraphEdit β) :
    perform g (x >>= f) =
      match perform g x with
      | (.ok a, g') => perform g' (f a)
      | (.error e, g') => (.error e, g') := by
  simp only [perform, run_bind_eq]
  rcases (ExceptT.run x).run g with ⟨e | a, g'⟩ <;> rfl

/-- The graph with one more qubit, in its entries and in its index. -/
def withQubit (g : IndexedGraph) (role : Role) (coordinate : Option Coordinate) (label : Option String) :
    IndexedGraph where
  entries := g.entries ++ [⟨g.size, role, coordinate, label⟩]
  joints := g.joints
  index c := if coordinate = some c then some g.size else g.index c

def withJoint (g : IndexedGraph) (j : Joint) : IndexedGraph := { g with joints := g.joints ++ [j] }

/-- A qubit is added where the index has none, and refused where it has one. -/
theorem perform_addQubit_cases (g : IndexedGraph) (role : Role) (coordinate : Option Coordinate) (label : Option String) :
    ((∀ c, coordinate = some c → g.index c = none) ∧
      perform g (addQubit role coordinate label) = (.ok g.size, g.withQubit role coordinate label)) ∨
    ∃ c q, coordinate = some c ∧ g.index c = some q ∧
      perform g (addQubit role coordinate label) = (.error (.duplicateCoordinate c q), g) := by
  cases coordinate with
  | none =>
    refine .inl ⟨fun c hc => (by cases hc), ?_⟩
    rw [addQubit, perform_bind_eq, perform_get]
    rfl
  | some c =>
    cases hi : g.index c with
    | none =>
      refine .inl ⟨fun c' hc => ?_, ?_⟩
      · cases hc
        exact hi
      rw [addQubit, perform_bind_eq, perform_get]
      simp only [Option.bind_some, hi, Option.map_none]
      have hindex : (fun c' => if c' = c then some g.size else g.index c') = (g.withQubit role (some c) label).index := by
        funext c'
        exact if_congr ⟨fun h => congrArg some h.symm, fun h => (Option.some.inj h).symm⟩ rfl rfl
      show _ = (Except.ok g.size, (⟨_, _, (g.withQubit role (some c) label).index⟩ : IndexedGraph))
      rw [← hindex]
      rfl
    | some q =>
      refine .inr ⟨c, q, rfl, hi, ?_⟩
      rw [addQubit, perform_bind_eq, perform_get]
      simp only [Option.bind_some, hi, Option.map_some]
      rfl

theorem perform_addInteraction_cases (g : IndexedGraph) (check data : Qubit) (order : Nat) :
    (g.allow check data order = .ok () ∧
      perform g (addInteraction check data order) = (.ok (), g.withJoint ⟨check, data, order⟩)) ∨
    ∃ e, g.allow check data order = .error e ∧ perform g (addInteraction check data order) = (.error e, g) := by
  cases ha : g.allow check data order with
  | error e =>
    refine .inr ⟨e, rfl, ?_⟩
    rw [addInteraction, perform_bind_eq, perform_get]
    simp only [ha]
    rfl
  | ok =>
    refine .inl ⟨rfl, ?_⟩
    rw [addInteraction, perform_bind_eq, perform_get]
    simp only [ha]
    rfl

/-- A call is refused with nothing changed, or it adds one qubit or one joint. -/
theorem perform_edit_cases (g : IndexedGraph) (call : GraphCall) :
    (∃ e, perform g call.edit = (.error e, g)) ∨
    (∃ role coordinate label, call = .addQubit role coordinate label ∧ (∀ c, coordinate = some c → g.index c = none) ∧
      perform g call.edit = (.ok (some g.size), g.withQubit role coordinate label)) ∨
    ∃ check data order, call = .addInteraction check data order ∧ g.allow check data order = .ok () ∧
      perform g call.edit = (.ok none, g.withJoint ⟨check, data, order⟩) := by
  cases call with
  | addQubit role coordinate label =>
    rcases perform_addQubit_cases g role coordinate label with ⟨hfree, hdone⟩ | ⟨c, q, -, -, hdone⟩
    · refine .inr (.inl ⟨role, coordinate, label, rfl, hfree, ?_⟩)
      rw [GraphCall.edit, perform_bind_eq, hdone]
      rfl
    · refine .inl ⟨.duplicateCoordinate c q, ?_⟩
      rw [GraphCall.edit, perform_bind_eq, hdone]
  | addInteraction check data order =>
    rcases perform_addInteraction_cases g check data order with ⟨hallow, hdone⟩ | ⟨e, -, hdone⟩
    · refine .inr (.inr ⟨check, data, order, rfl, hallow, ?_⟩)
      rw [GraphCall.edit, perform_bind_eq, hdone]
      rfl
    · refine .inl ⟨e, ?_⟩
      rw [GraphCall.edit, perform_bind_eq, hdone]

/-- An interaction is allowed from a check to a data qubit, at an order and to a data qubit
    that the check does not have yet. -/
theorem allow_iff {check data : Qubit} {order : Nat} :
    g.allow check data order = .ok () ↔
      (∃ b, g.role? check = some (.check b)) ∧ g.role? data = some .data ∧ 0 < order ∧
        ∀ l ∈ g.links check, l.data ≠ data ∧ l.order ≠ order := by
  unfold allow
  cases hcheck : g.role? check with
  | none => simp
  | some role =>
    cases role with
    | data => simp [Role.isData]
    | check b =>
      cases hdata : g.role? data with
      | none => simp [Role.isData]
      | some other =>
        cases other with
        | check b' => simp [Role.isData]
        | data =>
          simp only [Role.isData, Bool.not_true, Bool.false_eq_true, if_false]
          by_cases hzero : order = 0
          · simp [hzero]
          · rw [if_neg hzero]
            constructor
            · intro h
              refine ⟨⟨b, rfl⟩, trivial, Nat.pos_of_ne_zero hzero, ?_⟩
              cases hclash : Graph.clash? check ⟨order, data⟩ (g.links check) with
              | some e =>
                rw [hclash] at h
                cases h
              | none => exact Graph.clash?_none hclash
            · rintro ⟨-, -, -, hnew⟩
              rw [Graph.clash?_eq_none hnew]

theorem not_data_of_check {q : Qubit} {b : CheckBasis} (h : g.role? q = some (.check b)) : g.role? q ≠ some .data := by
  rw [h]
  exact fun he => Role.noConfusion (Option.some.inj he)

/-! ## Agreement -/

/-- Qubits are numbered by their places, and the index has their coordinates and no others.
    Joints go from checks to data, those of one check to different data at different orders. -/
structure Agrees (g : IndexedGraph) : Prop where
  numbered : g.entries.map (·.id) = List.range g.size
  indexed : ∀ c q, g.index c = some q ↔ ∃ n, g.node? q = some n ∧ n.coordinate = some c
  ends : ∀ j ∈ g.joints, (∃ b, g.role? j.first = some (.check b)) ∧ g.role? j.second = some .data ∧ 0 < j.order
  apart : (g.joints.map Joint.edge).Pairwise Edge.Apart

theorem agrees_empty : Agrees empty where
  numbered := rfl
  indexed _ _ := ⟨fun h => (by cases h), fun ⟨_, h, _⟩ => (by cases h)⟩
  ends _ h := by cases h
  apart := .nil

theorem node?_withQubit (g : IndexedGraph) (role : Role) (coordinate : Option Coordinate) (label : Option String)
    (q : Qubit) :
    (g.withQubit role coordinate label).node? q =
      if q = g.size then some ⟨g.size, role, coordinate, label⟩ else g.node? q := by
  show (g.entries ++ [_])[q]? = _
  by_cases hq : q = g.size
  · rw [if_pos hq, hq, size, List.getElem?_concat_length]
  · rw [if_neg hq, List.getElem?_append]
    split
    · rfl
    · rename_i hge
      have hlt : g.entries.length < q := Nat.lt_of_le_of_ne (Nat.le_of_not_lt hge) (Ne.symm hq)
      rw [node?, List.getElem?_eq_none (Nat.le_of_lt hlt), List.getElem?_singleton, if_neg]
      exact Nat.sub_ne_zero_of_lt hlt

theorem lt_size {q : Qubit} {n : QubitEntry} (h : g.node? q = some n) : q < g.size :=
  (List.getElem?_eq_some_iff.mp h).1

/-- A new qubit leaves those that there are. -/
theorem role?_withQubit {q : Qubit} {r : Role} (h : g.role? q = some r) (role : Role) (coordinate : Option Coordinate)
    (label : Option String) : (g.withQubit role coordinate label).role? q = some r := by
  obtain ⟨n, hn, hr⟩ := Option.map_eq_some_iff.mp h
  rw [role?, node?_withQubit, if_neg (Nat.ne_of_lt (lt_size hn)), hn, Option.map_some, hr]

namespace Agrees

variable (h : g.Agrees)

include h

theorem withQubit {role : Role} {coordinate : Option Coordinate} (label : Option String)
    (hfree : ∀ c, coordinate = some c → g.index c = none) : (g.withQubit role coordinate label).Agrees := by
  refine ⟨?_, fun c q => ?_, fun j hj => ?_, h.apart⟩
  · show (g.entries ++ [_]).map QubitEntry.id = List.range (g.entries ++ [_]).length
    rw [List.map_append, h.numbered, List.length_append, List.length_singleton, List.range_succ]
    rfl
  · rw [node?_withQubit]
    show (if coordinate = some c then some g.size else g.index c) = some q ↔ _
    by_cases hc : coordinate = some c
    · -- The index had nothing on the new coordinate, so no older qubit stands on it.
      rw [if_pos hc]
      constructor
      · intro hq
        obtain rfl := Option.some.inj hq
        exact ⟨_, if_pos rfl, hc⟩
      · rintro ⟨n, hn, hnc⟩
        by_cases hq : q = g.size
        · rw [hq]
        · rw [if_neg hq] at hn
          have hold := (h.indexed c q).mpr ⟨n, hn, hnc⟩
          rw [hfree c hc] at hold
          cases hold
    · rw [if_neg hc, h.indexed]
      constructor
      · rintro ⟨n, hn, hnc⟩
        exact ⟨n, (if_neg (Nat.ne_of_lt (lt_size hn))).trans hn, hnc⟩
      · rintro ⟨n, hn, hnc⟩
        by_cases hq : q = g.size
        · rw [if_pos hq] at hn
          obtain rfl := Option.some.inj hn
          exact absurd hnc hc
        · rw [if_neg hq] at hn
          exact ⟨n, hn, hnc⟩
  · obtain ⟨⟨b, hcheck⟩, hdata, horder⟩ := h.ends j hj
    exact ⟨⟨b, role?_withQubit hcheck _ _ _⟩, role?_withQubit hdata _ _ _, horder⟩

/-! ## Views in agreement -/

theorem edgeOf {j : Joint} (hj : j ∈ g.joints) : g.edgeOf j = j.edge := by
  obtain ⟨⟨b, hcheck⟩, -⟩ := h.ends j hj
  have hfirst : g.isCheck j.first = true := by rw [isCheck, hcheck]; rfl
  rw [IndexedGraph.edgeOf, if_pos hfirst, Joint.edge]

theorem edges_perm : g.edges.Perm (g.joints.map Joint.edge) := by
  rw [edges_eq, ← List.map_congr_left fun j hj => h.edgeOf hj]
  exact List.perm_insertionSort _ _

theorem mem_edges {e : Edge} : e ∈ g.edges ↔ ∃ j ∈ g.joints, j.edge = e := by
  rw [h.edges_perm.mem_iff, List.mem_map]

theorem edges_ascend : g.edges.Pairwise Edge.Before := by
  have hsorted : g.edges.Pairwise Edge.NoLater := by
    rw [edges_eq]
    exact List.pairwise_insertionSort _ _
  have hapart : g.edges.Pairwise Edge.Apart := (h.edges_perm.pairwise_iff Edge.Apart.symm).mpr h.apart
  exact hsorted.imp₂ (fun _ _ hle hap => hle.before hap) hapart

/-- Among the edges of one check it is the orders that ascend. -/
theorem orders_ascend (q : Qubit) : (g.edges.filter (·.check == q)).Pairwise (·.order < ·.order) := by
  refine List.Pairwise.imp_of_mem (fun {e e'} he he' hbefore => ?_) (h.edges_ascend.filter _)
  have hcheck := beq_iff_eq.mp (List.mem_filter.mp he).2
  have hcheck' := beq_iff_eq.mp (List.mem_filter.mp he').2
  rcases hbefore with hlt | ⟨-, horder⟩
  · rw [hcheck, hcheck'] at hlt
    exact absurd hlt (Nat.lt_irrefl q)
  · exact horder

theorem edge_ends {e : Edge} (he : e ∈ g.edges) :
    (∃ b, g.role? e.check = some (.check b)) ∧ g.role? e.data = some .data ∧ 0 < e.order := by
  obtain ⟨j, hj, rfl⟩ := h.mem_edges.mp he
  exact h.ends j hj

omit h in
theorem filterMap_across {f : Joint → Option (Nat × Qubit)} {end? : Edge → Bool} {view : Edge → Nat × Qubit}
    {js : List Joint} (hf : ∀ j ∈ js, f j = if end? j.edge then some (view j.edge) else none) :
    js.filterMap f = ((js.map Joint.edge).filter end?).map view := by
  induction js with
  | nil => rfl
  | cons j rest ih =>
    obtain ⟨hj, hrest⟩ := List.forall_mem_cons.mp hf
    rw [List.filterMap_cons, hj, List.map_cons, List.filter_cons, ih hrest]
    cases end? j.edge <;> rfl

/-- A check stands at the first end of its joints. -/
theorem across_check {q : Qubit} (hq : g.role? q ≠ some .data) :
    (g.joints.filterMap fun j => (j.across? q).map (j.order, ·)) =
      ((g.joints.map Joint.edge).filter (·.check == q)).map fun e => (e.order, e.data) := by
  refine filterMap_across fun j hj => ?_
  have hsecond : j.second ≠ q := fun he => hq (he ▸ (h.ends j hj).2.1)
  show _ = if (j.first == q) = true then some (j.order, j.second) else none
  rw [Joint.across?, if_neg hsecond]
  by_cases hfirst : j.first = q
  · rw [if_pos hfirst, if_pos (beq_iff_eq.mpr hfirst)]
    rfl
  · rw [if_neg hfirst, if_neg (mt beq_iff_eq.mp hfirst)]
    rfl

/-- A data qubit stands at the second. -/
theorem across_data {q : Qubit} (hq : g.role? q = some .data) :
    (g.joints.filterMap fun j => (j.across? q).map (j.order, ·)) =
      ((g.joints.map Joint.edge).filter (·.data == q)).map fun e => (e.order, e.check) := by
  refine filterMap_across fun j hj => ?_
  obtain ⟨⟨b, hcheck⟩, -⟩ := h.ends j hj
  have hfirst : j.first ≠ q := fun he => not_data_of_check hcheck (he ▸ hq)
  show _ = if (j.second == q) = true then some (j.order, j.first) else none
  rw [Joint.across?, if_neg hfirst]
  by_cases hsecond : j.second = q
  · rw [if_pos hsecond, if_pos (beq_iff_eq.mpr hsecond)]
    rfl
  · rw [if_neg hsecond, if_neg (mt beq_iff_eq.mp hsecond)]
    rfl

omit h in
theorem interactions_eq (g : IndexedGraph) {q : Qubit} (hq : g.role? q ≠ none) :
    g.interactions q =
      (g.joints.filterMap fun j => (j.across? q).map (j.order, ·)).foldr Graph.insertInteraction [] := by
  unfold IndexedGraph.interactions
  cases hn : g.node? q with
  | none => exact absurd (by rw [role?, hn]; rfl) hq
  | some n => rfl

theorem interactions_check {q : Qubit} (hq : g.role? q ≠ some .data) :
    g.interactions q = (g.edges.filter (·.check == q)).map fun e => (e.order, e.data) := by
  by_cases hnone : g.role? q = none
  · have hempty : g.edges.filter (·.check == q) = [] := by
      refine List.filter_eq_nil_iff.mpr fun e he hcheck => ?_
      obtain ⟨⟨b, hb⟩, -⟩ := h.edge_ends he
      rw [beq_iff_eq.mp hcheck, hnone] at hb
      cases hb
    have hentry : g.node? q = none := Option.map_eq_none_iff.mp hnone
    rw [hempty, IndexedGraph.interactions, hentry]
    rfl
  · rw [interactions_eq g hnone, h.across_check hq]
    refine sorted_of_perm ((h.edges_perm.symm.filter _).map _) ?_
    exact List.pairwise_map.mpr ((h.orders_ascend q).imp fun horder => Prod.Lex.toLex_le_toLex.mpr (.inl horder))

theorem interactions_data {q : Qubit} (hq : g.role? q = some .data) :
    g.interactions q =
      ((g.edges.filter (·.data == q)).map fun e => (e.order, e.check)).foldr Graph.insertInteraction [] := by
  have hsome : g.role? q ≠ none := by
    rw [hq]
    exact Option.some_ne_none _
  rw [interactions_eq g hsome, h.across_data hq]
  exact Graph.sorted_congr ((h.edges_perm.symm.filter _).map _)

theorem support_check {q : Qubit} (hq : g.role? q ≠ some .data) :
    g.support q = (g.edges.filter (·.check == q)).map (·.data) := by
  rw [support, h.interactions_check hq, List.map_map]
  rfl

theorem links_check {q : Qubit} (hq : g.role? q ≠ some .data) :
    g.links q = (g.edges.filter (·.check == q)).map fun e => ⟨e.order, e.data⟩ := by
  rw [links, h.interactions_check hq, List.map_map]
  rfl

theorem mem_links {q : Qubit} (hq : g.role? q ≠ some .data) {l : Link} :
    l ∈ g.links q ↔ ⟨q, l.data, l.order⟩ ∈ g.edges := by
  rw [h.links_check hq, List.mem_map]
  constructor
  · rintro ⟨e, he, rfl⟩
    obtain ⟨hmem, hcheck⟩ := List.mem_filter.mp he
    obtain rfl := beq_iff_eq.mp hcheck
    exact hmem
  · intro hmem
    exact ⟨_, List.mem_filter.mpr ⟨hmem, beq_iff_eq.mpr rfl⟩, rfl⟩

/-- Two edges of one check are one if their orders are, or their data qubits. -/
theorem edge_unique {e e' : Edge} (he : e ∈ g.edges) (he' : e' ∈ g.edges) (hcheck : e.check = e'.check)
    (hsame : e.order = e'.order ∨ e.data = e'.data) : e = e' := by
  have hapart : g.edges.Pairwise Edge.Apart := (h.edges_perm.pairwise_iff Edge.Apart.symm).mpr h.apart
  by_contra hne
  obtain ⟨hdata, horder⟩ := hapart.forall he he' hne hcheck
  rcases hsame with heq | heq
  · exact horder heq
  · exact hdata heq

theorem neighbour?_check {q : Qubit} (hq : g.role? q ≠ some .data) {order : Nat} {data : Qubit} :
    g.neighbour? q order = some data ↔ ⟨q, data, order⟩ ∈ g.edges := by
  rw [neighbour?, h.interactions_check hq, List.find?_map, Option.map_map, Option.map_eq_some_iff]
  constructor
  · rintro ⟨e, he, rfl⟩
    obtain ⟨hmem, hcheck⟩ := List.mem_filter.mp (List.mem_of_find?_eq_some he)
    have horder := List.find?_some he
    simp only [Function.comp_apply, beq_iff_eq] at hcheck horder
    rw [← hcheck, ← horder]
    exact hmem
  · intro hmem
    have hof : (⟨q, data, order⟩ : Edge) ∈ g.edges.filter (·.check == q) :=
      List.mem_filter.mpr ⟨hmem, beq_iff_eq.mpr rfl⟩
    cases hfind : (g.edges.filter (·.check == q)).find? ((·.1 == order) ∘ fun e => (e.order, e.data)) with
    | none => exact absurd (beq_iff_eq.mpr rfl) (List.find?_eq_none.mp hfind _ hof)
    | some e =>
      obtain ⟨he, hcheck⟩ := List.mem_filter.mp (List.mem_of_find?_eq_some hfind)
      have horder := List.find?_some hfind
      simp only [Function.comp_apply, beq_iff_eq] at hcheck horder
      obtain rfl := h.edge_unique he hmem hcheck (.inl horder)
      exact ⟨_, rfl, rfl⟩

/-! ## Runs -/

theorem withJoint {check data : Qubit} {order : Nat} (hallow : g.allow check data order = .ok ()) :
    (g.withJoint ⟨check, data, order⟩).Agrees := by
  obtain ⟨⟨b, hcheck⟩, hdata, horder, hnew⟩ := allow_iff.mp hallow
  refine ⟨h.numbered, h.indexed, fun j hj => ?_, ?_⟩
  · rcases List.mem_append.mp hj with hold | hnewest
    · exact h.ends j hold
    · obtain rfl := List.mem_singleton.mp hnewest
      exact ⟨⟨b, hcheck⟩, hdata, horder⟩
  · show ((g.joints ++ [_]).map Joint.edge).Pairwise Edge.Apart
    rw [List.map_append, List.pairwise_append]
    refine ⟨h.apart, List.pairwise_singleton _ _, fun e he e' he' hsame => ?_⟩
    obtain rfl := List.mem_singleton.mp he'
    obtain ⟨j, hj, rfl⟩ := List.mem_map.mp he
    have hedge : ⟨check, j.second, j.order⟩ ∈ g.edges :=
      h.mem_edges.mpr ⟨j, hj, by rw [Joint.edge, show j.first = check from hsame]⟩
    have hlink : ⟨j.order, j.second⟩ ∈ g.links check := (h.mem_links (not_data_of_check hcheck)).mpr hedge
    exact hnew _ hlink

theorem call (call : GraphCall) : (perform g call.edit).2.Agrees := by
  rcases perform_edit_cases g call with ⟨e, hdone⟩ | ⟨role, coordinate, label, -, hfree, hdone⟩ |
    ⟨check, data, order, -, hallow, hdone⟩
  · rw [hdone]
    exact h
  · rw [hdone]
    exact h.withQubit label hfree
  · rw [hdone]
    exact h.withJoint hallow

end Agrees

/-- The graph after calls, refused ones among them. -/
def grown (g : IndexedGraph) (calls : List GraphCall) : IndexedGraph :=
  calls.foldl (fun g call => (perform g call.edit).2) g

/-- The calls that succeed. -/
def accepted (g : IndexedGraph) : List GraphCall → List GraphCall
  | [] => []
  | call :: rest =>
    match perform g call.edit with
    | (.ok _, g') => call :: accepted g' rest
    | (.error _, g') => accepted g' rest

theorem Agrees.grown (h : g.Agrees) (calls : List GraphCall) : (g.grown calls).Agrees :=
  List.foldlRecOn calls _ h fun _ h call _ => h.call call

end IndexedGraph

/-- What a call would add to the qubits. -/
def GraphCall.qubit? : GraphCall → Option (Role × Option Coordinate × Option String)
  | addQubit role coordinate label => some (role, coordinate, label)
  | addInteraction .. => none

/-- What it would add to the edges. -/
def GraphCall.edge? : GraphCall → Option Edge
  | addQubit .. => none
  | addInteraction check data order => some ⟨check, data, order⟩

def QubitEntry.content (n : QubitEntry) : Role × Option Coordinate × Option String := (n.role, n.coordinate, n.label)

namespace IndexedGraph

variable {g : IndexedGraph}

/-- Qubits and joints are what the accepted calls added, in that order. -/
theorem grown_content (g : IndexedGraph) (calls : List GraphCall) :
    (g.grown calls).entries.map QubitEntry.content =
      g.entries.map QubitEntry.content ++ (g.accepted calls).filterMap GraphCall.qubit? ∧
    (g.grown calls).joints.map Joint.edge = g.joints.map Joint.edge ++ (g.accepted calls).filterMap GraphCall.edge? := by
  induction calls generalizing g with
  | nil => exact ⟨(List.append_nil _).symm, (List.append_nil _).symm⟩
  | cons call rest ih =>
    have hgrown : g.grown (call :: rest) = (perform g call.edit).2.grown rest := rfl
    obtain ⟨hentries, hjoints⟩ := ih (perform g call.edit).2
    rw [hgrown, hentries, hjoints, accepted]
    rcases perform_edit_cases g call with ⟨e, hdone⟩ | ⟨role, coordinate, label, rfl, -, hdone⟩ |
      ⟨check, data, order, rfl, -, hdone⟩
    · rw [hdone]
      exact ⟨rfl, rfl⟩
    · rw [hdone]
      constructor
      · simp [withQubit, QubitEntry.content, GraphCall.qubit?]
      · rfl
    · rw [hdone]
      constructor
      · rfl
      · simp [withJoint, Joint.edge, GraphCall.edge?]

/-- What holds of a graph that the accepted calls have made. -/
structure Lawful (accepted : List GraphCall) (g : IndexedGraph) : Prop where
  /-- A refused call changes nothing. -/
  refused : ∀ (call : GraphCall) e, (perform g call.edit).1 = .error e → (perform g call.edit).2 = g
  /-- Qubits are numbered as they come. -/
  numbered : g.entries.map (·.id) = List.range g.size
  qubits : g.entries.map QubitEntry.content = accepted.filterMap GraphCall.qubit?
  answered : ∀ role coordinate label q, (perform g (addQubit role coordinate label)).1 = .ok q → q = g.size
  ends : ∀ e ∈ g.edges, (∃ b, g.role? e.check = some (.check b)) ∧ g.role? e.data = some .data ∧ 1 ≤ e.order
  ordersOnce : ∀ c, ((g.edges.filter (·.check == c)).map (·.order)).Nodup
  dataOnce : ∀ c, ((g.edges.filter (·.check == c)).map (·.data)).Nodup
  /-- A coordinate is found where the one qubit on it is. -/
  found : ∀ c q, g.find? c = some q ↔ ∃ n, g.node? q = some n ∧ n.coordinate = some c
  placesApart : ∀ c m n, m ∈ g.entries → n ∈ g.entries → m.coordinate = some c → n.coordinate = some c → m = n
  /-- The edges are the accepted interactions, each once. -/
  edges : g.edges.Perm (accepted.filterMap GraphCall.edge?)
  edgesAscend : g.edges.Pairwise Edge.Before
  supports : ∀ c, g.role? c ≠ some .data → g.support c = (g.edges.filter (·.check == c)).map (·.data)
  neighbours : ∀ c, g.role? c ≠ some .data → ∀ order data,
    g.neighbour? c order = some data ↔ .addInteraction c data order ∈ accepted

theorem mem_edge? {calls : List GraphCall} {c data : Qubit} {order : Nat} :
    ⟨c, data, order⟩ ∈ calls.filterMap GraphCall.edge? ↔ .addInteraction c data order ∈ calls := by
  rw [List.mem_filterMap]
  constructor
  · rintro ⟨call, hcall, hedge⟩
    cases call with
    | addQubit role coordinate label => cases hedge
    | addInteraction check data' order' =>
      cases hedge
      exact hcall
  · intro hcall
    exact ⟨_, hcall, rfl⟩

/-- One qubit is on a coordinate. -/
theorem Agrees.placesApart (h : g.Agrees) {c : Coordinate} {m n : QubitEntry} (hm : m ∈ g.entries) (hn : n ∈ g.entries)
    (hmc : m.coordinate = some c) (hnc : n.coordinate = some c) : m = n := by
  obtain ⟨p, hp⟩ := List.mem_iff_getElem?.mp hm
  obtain ⟨q, hq⟩ := List.mem_iff_getElem?.mp hn
  have hpc := (h.indexed c p).mpr ⟨m, hp, hmc⟩
  have hqc := (h.indexed c q).mpr ⟨n, hq, hnc⟩
  rw [hpc] at hqc
  obtain rfl := Option.some.inj hqc
  rw [hp] at hq
  exact Option.some.inj hq

theorem Agrees.once (h : g.Agrees) (c : Qubit) {β : Type} {view : Edge → β}
    (hview : ∀ e e' : Edge, e.check = e'.check → view e = view e' → e.order = e'.order ∨ e.data = e'.data) :
    ((g.edges.filter (·.check == c)).map view).Nodup := by
  refine List.Nodup.map_on (fun e he e' he' hsame => ?_) (h.edges_ascend.nodup.filter _)
  obtain ⟨hmem, hcheck⟩ := List.mem_filter.mp he
  obtain ⟨hmem', hcheck'⟩ := List.mem_filter.mp he'
  have hboth := (beq_iff_eq.mp hcheck).trans (beq_iff_eq.mp hcheck').symm
  exact h.edge_unique hmem hmem' hboth (hview e e' hboth hsame)

/-- After any calls, refused ones among them, the views show the accepted calls. -/
theorem grown_lawful (calls : List GraphCall) : Lawful (empty.accepted calls) (empty.grown calls) := by
  have h := agrees_empty.grown calls
  obtain ⟨hentries, hjoints⟩ := grown_content empty calls
  have hedges : (empty.grown calls).edges.Perm ((empty.accepted calls).filterMap GraphCall.edge?) :=
    h.edges_perm.trans (.of_eq hjoints)
  constructor
  case refused =>
    intro call e hrefused
    rcases perform_edit_cases (empty.grown calls) call with ⟨e', hdone⟩ | ⟨_, _, _, -, -, hdone⟩ | ⟨_, _, _, -, -, hdone⟩
    · rw [hdone]
    · rw [hdone] at hrefused
      cases hrefused
    · rw [hdone] at hrefused
      cases hrefused
  case numbered => exact h.numbered
  case qubits => exact hentries
  case answered =>
    intro role coordinate label q hanswer
    rcases perform_addQubit_cases (empty.grown calls) role coordinate label with ⟨-, hdone⟩ | ⟨c, p, -, -, hdone⟩
    · rw [hdone] at hanswer
      exact (Except.ok.inj hanswer).symm
    · rw [hdone] at hanswer
      cases hanswer
  case ends => exact fun e he => h.edge_ends he
  case ordersOnce => exact fun c => h.once c fun _ _ _ hsame => .inl hsame
  case dataOnce => exact fun c => h.once c fun _ _ _ hsame => .inr hsame
  case found => exact h.indexed
  case placesApart => exact fun c m n hm hn hmc hnc => h.placesApart hm hn hmc hnc
  case edges => exact hedges
  case edgesAscend => exact h.edges_ascend
  case supports => exact fun c hc => h.support_check hc
  case neighbours =>
    intro c hc order data
    rw [h.neighbour?_check hc, hedges.mem_iff, mem_edge?]

end IndexedGraph

end QuantumMemory

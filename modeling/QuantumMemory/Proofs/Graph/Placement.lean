/-
  QuantumMemory.Proofs.Graph.Placement — a stored graph that is laid out, edit by edit.

  An edit adds one qubit on the site that the boundary has for its coordinate, or joints and
  nothing else, or it is refused (`perform_edit`). So after any calls the qubits stand on
  sites that the boundary keeps (`Laid`), and the index agrees with them.

  A builder with a graph by itself has the same outcome of every edit (`Laid.builder_add`,
  `Laid.builder_connect`, `Laid.builder_connectDiagonal`) and the same neighbours; what calls
  leave is laid out as it lays it out (`grown_builder`).
-/

import QuantumMemory.Lattice.Placement
import QuantumMemory.Proofs.Graph.Canonical

namespace QuantumMemory

/-- What stands for a coordinate stands for itself. -/
theorem Boundary.wrap?_site {boundary : Boundary} {c site : Coordinate} (h : boundary.wrap? c = some site) :
    boundary.wrap? site = some site := by
  cases boundary with
  | «open» => rfl
  | toroidal width height =>
    simp only [Boundary.wrap?] at h ⊢
    split at h
    · cases h
    rename_i hperiods
    split at h
    · rename_i hrange
      obtain rfl := Option.some.inj h
      rw [if_neg hperiods]
      simp only [Int.emod_emod, if_pos hrange]
    · cases h

namespace IndexedGraph

variable {g g' g'' : IndexedGraph}

/-- What two edits keep, one after the other keeps, also where the first fails. -/
theorem perform_bind_keeps {α β : Type} {x : GraphEdit α} {f : α → GraphEdit β} {P : IndexedGraph → Prop}
    (hx : P (perform g x).2) (hf : ∀ g a, P g → P (perform g (f a)).2) : P (perform g (x >>= f)).2 := by
  rw [perform_bind_eq]
  rcases hdone : perform g x with ⟨e | a, g'⟩
  · rw [hdone] at hx
    exact hx
  · rw [hdone] at hx
    exact hf g' a hx

theorem perform_foldlM_keeps {α β : Type} {step : β → α → GraphEdit β} {P : IndexedGraph → Prop}
    (hstep : ∀ g b a, P g → P (perform g (step b a)).2) (xs : List α) (b : β) (hg : P g) :
    P (perform g (xs.foldlM step b)).2 := by
  induction xs generalizing g b with
  | nil => exact hg
  | cons a rest ih =>
    rw [List.foldlM_cons]
    exact perform_bind_keeps (hstep g b a hg) fun g' b' hg' => ih b' hg'

/-- The same qubits on the same sites, with joints of which some may be new. -/
structure Rejoined (g g' : IndexedGraph) : Prop where
  entries : g'.entries = g.entries
  index : g'.index = g.index
  agrees : g'.Agrees

namespace Rejoined

theorem refl (h : g.Agrees) : Rejoined g g := ⟨rfl, rfl, h⟩

theorem trans (h : Rejoined g g') (h' : Rejoined g' g'') : Rejoined g g'' :=
  ⟨h'.entries.trans h.entries, h'.index.trans h.index, h'.agrees⟩

theorem role? (h : Rejoined g g') (q : Qubit) : g'.role? q = g.role? q :=
  congrArg (fun entries : List QubitEntry => (entries[q]?).map QubitEntry.role) h.entries

end Rejoined

/-- An interaction, added or refused, moves no qubit. -/
theorem Agrees.addInteraction (h : g.Agrees) (check data : Qubit) (order : Nat) :
    Rejoined g (perform g (addInteraction check data order)).2 := by
  rcases perform_addInteraction_cases g check data order with ⟨hallow, hdone⟩ | ⟨e, -, hdone⟩
  · rw [hdone]
    exact ⟨rfl, rfl, h.withJoint hallow⟩
  · rw [hdone]
    exact .refl h

end IndexedGraph

namespace IndexedBuilder

open IndexedGraph

variable {b : IndexedBuilder} {g g' : IndexedGraph} {boundary : Boundary}

/-! ## Joining diagonals -/

/-- The interaction that the next direction of a permutation asks for. -/
def asked? (g : IndexedGraph) (neighbours : List (Option Qubit)) (next : Nat × Nat) : Option (Nat × Qubit) :=
  match neighbours[next.1]? with
  | some (some data) => if g.role? data == some .data then some (next.2 + 1, data) else none
  | _ => none

theorem asked?_congr (h : Rejoined g g') (neighbours : List (Option Qubit)) : asked? g' neighbours = asked? g neighbours := by
  funext next
  simp only [asked?, h.role?]

theorem perform_connectNext (g : IndexedGraph) (check : Qubit) (neighbours : List (Option Qubit)) (count : Nat)
    (next : Nat × Nat) :
    g.perform (connectNext check neighbours count next) =
      match asked? g neighbours next with
      | none => (.ok count, g)
      | some (order, data) =>
        match g.perform (addInteraction check data order) with
        | (.ok _, g') => (.ok (count + 1), g')
        | (.error e, g') => (.error e, g') := by
  rw [connectNext, perform_bind_eq, perform_get, asked?]
  dsimp only
  rcases neighbours[next.1]? with _ | _ | data
  · rfl
  · rfl
  · dsimp only
    split
    · rw [perform_bind_eq]
      dsimp only
      rcases g.perform (addInteraction check data (next.2 + 1)) with ⟨e | _, g'⟩ <;> rfl
    · rfl

theorem connectNext_rejoins (h : g.Agrees) (check : Qubit) (neighbours : List (Option Qubit)) (count : Nat)
    (next : Nat × Nat) : Rejoined g (g.perform (connectNext check neighbours count next)).2 := by
  rw [perform_connectNext]
  rcases asked? g neighbours next with _ | ⟨order, data⟩
  · exact .refl h
  · have hjoined := h.addInteraction check data order
    dsimp only
    rcases hdone : g.perform (addInteraction check data order) with ⟨e | _, g'⟩ <;> rwa [hdone] at hjoined

/-- The check and where it stands, or why it cannot be joined, before anything is written. -/
theorem perform_connectDiagonal (g : IndexedGraph) (check : Qubit) (directions : List Nat) (step2 : Int)
    (boundary : Boundary) :
    g.perform (connectDiagonal check directions step2 boundary) =
      match validatePermutation directions with
      | .error e => (.error e, g)
      | .ok () => match g.node? check with
        | none => (.error (.unknownQubit check), g)
        | some entry => match entry.coordinate with
          | none => (.error (.invalidLattice (.noCoordinate check)), g)
          | some c => IndexedGraph.perform g
              (directions.zipIdx.foldlM (connectNext check (diagonalNeighbours ⟨g, boundary⟩ c step2)) 0) := by
  rw [connectDiagonal, perform_bind_eq, perform_get]
  dsimp only
  rcases validatePermutation directions with e | _
  · rfl
  · rcases g.node? check with _ | entry
    · rfl
    · dsimp only
      rcases entry.coordinate with _ | c <;> rfl

theorem connectDiagonal_rejoins (h : g.Agrees) (check : Qubit) (directions : List Nat) (step2 : Int)
    (boundary : Boundary) : Rejoined g (g.perform (connectDiagonal check directions step2 boundary)).2 := by
  rw [perform_connectDiagonal]
  rcases validatePermutation directions with e | _
  · exact .refl h
  · rcases g.node? check with _ | entry
    · exact .refl h
    · dsimp only
      rcases entry.coordinate with _ | c
      · exact .refl h
      · refine perform_foldlM_keeps (P := Rejoined g) (fun g₁ count next hg₁ => ?_) _ _ (.refl h)
        exact hg₁.trans (connectNext_rejoins hg₁.agrees check _ count next)

/-! ## Calls -/

/-- A new qubit stands on the site that the boundary has for its coordinate. -/
theorem perform_add_cases (g : IndexedGraph) (role : Role) (c : Coordinate) (label : Option String) (boundary : Boundary) :
    (boundary.wrap? c = none ∧
      g.perform (add role c label boundary) = (.error (.invalidLattice (.unwrappable c)), g)) ∨
    ∃ site, boundary.wrap? c = some site ∧
      ((g.index site = none ∧
          g.perform (add role c label boundary) = (.ok g.size, g.withQubit role (some site) label)) ∨
        ∃ q, g.index site = some q ∧
          g.perform (add role c label boundary) = (.error (.duplicateCoordinate site q), g)) := by
  rw [add, Boundary.wrap]
  cases hwrap : boundary.wrap? c with
  | none => exact .inl ⟨rfl, rfl⟩
  | some site =>
    refine .inr ⟨site, rfl, ?_⟩
    rcases perform_addQubit_cases g role (some site) label with ⟨hfree, hdone⟩ | ⟨d, q, hd, hq, hdone⟩
    · exact .inl ⟨hfree site rfl, hdone⟩
    · obtain rfl := Option.some.inj hd
      exact .inr ⟨q, hq, hdone⟩

/-- A call adds one qubit, or it leaves the qubits as they are. -/
theorem perform_edit (h : g.Agrees) (call : PlacementCall) (boundary : Boundary) :
    (∃ role c label site, call = .add role c label ∧ boundary.wrap? c = some site ∧ g.index site = none ∧
      (g.perform (call.edit boundary)).2 = g.withQubit role (some site) label) ∨
    Rejoined g (g.perform (call.edit boundary)).2 := by
  cases call with
  | add role c label =>
    rw [PlacementCall.edit, perform_bind_eq]
    rcases perform_add_cases g role c label boundary with ⟨-, hdone⟩ | ⟨site, hsite, ⟨hfree, hdone⟩ | ⟨q, -, hdone⟩⟩
    · rw [hdone]
      exact .inr (.refl h)
    · rw [hdone]
      exact .inl ⟨role, c, label, site, rfl, hsite, hfree, rfl⟩
    · rw [hdone]
      exact .inr (.refl h)
  | connect check data order =>
    exact .inr (perform_bind_keeps (P := Rejoined g) (h.addInteraction check data order) fun _ _ hkept => hkept)
  | connectDiagonal check directions step2 =>
    exact .inr (perform_bind_keeps (P := Rejoined g) (connectDiagonal_rejoins h check directions step2 boundary)
      fun _ _ hkept => hkept)

/-- The builder after calls, refused ones among them. -/
def grown (b : IndexedBuilder) (calls : List PlacementCall) : IndexedBuilder :=
  calls.foldl (fun b call => (b.perform call.edit).2) b

theorem grown_boundary (b : IndexedBuilder) (calls : List PlacementCall) : (b.grown calls).boundary = b.boundary := by
  induction calls generalizing b with
  | nil => rfl
  | cons call rest ih => exact ih _

/-- Every qubit stands on a site that the boundary keeps, and the index agrees. -/
structure Laid (b : IndexedBuilder) : Prop where
  agrees : b.graph.Agrees
  placed : ∀ n ∈ b.graph.entries, ∃ site, n.coordinate = some site ∧ b.boundary.wrap? site = some site

theorem start_ok {boundary : Boundary} (h : start boundary = .ok b) :
    LatticeBuilder.start boundary = .ok ⟨.empty, boundary⟩ ∧ b = ⟨.empty, boundary⟩ := by
  obtain ⟨built, hbuilt, hb⟩ := exists_of_bind h
  obtain rfl := LatticeBuilder.start_ok hbuilt
  exact ⟨hbuilt, (Except.ok.inj hb).symm⟩

theorem laid_empty (boundary : Boundary) : Laid ⟨.empty, boundary⟩ := ⟨agrees_empty, fun _ h => (by cases h)⟩

theorem Laid.call (h : b.Laid) (call : PlacementCall) : (b.perform call.edit).2.Laid := by
  show Laid ⟨(b.graph.perform (call.edit b.boundary)).2, b.boundary⟩
  rcases perform_edit h.agrees call b.boundary with ⟨role, c, label, site, -, hsite, hfree, hdone⟩ | hrejoined
  · rw [hdone]
    refine ⟨h.agrees.withQubit label fun d hd => (Option.some.inj hd) ▸ hfree, fun n hn => ?_⟩
    rcases List.mem_append.mp hn with hold | hnew
    · exact h.placed n hold
    · obtain rfl := List.mem_singleton.mp hnew
      exact ⟨site, rfl, Boundary.wrap?_site hsite⟩
  · refine ⟨hrejoined.agrees, fun n hn => h.placed n ?_⟩
    rw [← hrejoined.entries]
    exact hn

theorem Laid.grown (h : b.Laid) (calls : List PlacementCall) : (b.grown calls).Laid :=
  List.foldlRecOn calls _ h fun _ h call _ => h.call call

/-! ## The builder with the graph by itself -/

def builder (b : IndexedBuilder) : LatticeBuilder := ⟨b.graph.graph, b.boundary⟩

end IndexedBuilder

/-- The builder after a call, as far as the call went. -/
def LatticeBuilder.after (b : LatticeBuilder) : PlacementCall → LatticeBuilder
  | .add role c label =>
    match b.add role c label with
    | .ok (b', _) => b'
    | .error _ => b
  | .connect check data order =>
    match b.connect check data order with
    | .ok b' => b'
    | .error _ => b
  | .connectDiagonal check directions step2 => (b.connectDiagonal check directions step2).1

namespace IndexedBuilder

open IndexedGraph

variable {b : IndexedBuilder}

namespace Laid

variable (h : b.Laid)

include h

theorem builder_neighbour? (c : Coordinate) (dx2 dy2 : Int) : b.builder.neighbour? c dx2 dy2 = b.neighbour? c dx2 dy2 := by
  simp only [LatticeBuilder.neighbour?, neighbour?, builder, h.agrees.find?_graph]

theorem builder_diagonalNeighbours (c : Coordinate) (step2 : Int) :
    b.builder.diagonalNeighbours c step2 = b.diagonalNeighbours c step2 := by
  simp only [LatticeBuilder.diagonalNeighbours, diagonalNeighbours, h.builder_neighbour?]

/-- A qubit is added to both or to neither, under one number or for one reason. -/
theorem builder_add (role : Role) (c : Coordinate) (label : Option String) :
    b.builder.add role c label =
      match b.perform (add role c label) with
      | (.ok q, b') => .ok (b'.builder, q)
      | (.error e, _) => .error e := by
  simp only [LatticeBuilder.add, perform, add, builder]
  rcases b.boundary.wrap c with e | site
  · rfl
  · simp only [bind, Except.bind, h.agrees.graph_addQubit, pure, Except.pure]
    rcases b.graph.perform (addQubit role (some site) label) with ⟨e | q, g'⟩ <;> rfl

theorem builder_connect (check data : Qubit) (order : Nat) :
    b.builder.connect check data order =
      match b.perform (connect check data order) with
      | (.ok _, b') => .ok b'.builder
      | (.error e, _) => .error e := by
  simp only [LatticeBuilder.connect, perform, connect, builder, h.agrees.graph_addInteraction, bind, Except.bind, pure,
    Except.pure]
  rcases b.graph.perform (addInteraction check data order) with ⟨e | _, g'⟩ <;> rfl

end Laid

/-- Joining all that is asked for joins one after the other: a joint changes no role, so what
    the rest asks for stays the same. -/
theorem connectAll_builder {g : IndexedGraph} (h : g.Agrees) (boundary : Boundary) (check : Qubit)
    (neighbours : List (Option Qubit)) (entries : List (Nat × Nat)) (count : Nat) :
    (⟨g.graph, boundary⟩ : LatticeBuilder).connectAll check count (entries.filterMap (asked? g neighbours)) =
      (⟨(g.perform (entries.foldlM (connectNext check neighbours) count)).2.graph, boundary⟩,
        (g.perform (entries.foldlM (connectNext check neighbours) count)).1) := by
  induction entries generalizing g count with
  | nil => rfl
  | cons next rest ih =>
    rw [List.foldlM_cons, perform_bind_eq, perform_connectNext, List.filterMap_cons]
    cases hasked : asked? g neighbours next with
    | none => exact ih h count
    | some plan =>
      obtain ⟨order, data⟩ := plan
      have hrejoined := h.addInteraction check data order
      rw [LatticeBuilder.connectAll, LatticeBuilder.connect, h.graph_addInteraction]
      rcases perform_addInteraction_cases g check data order with ⟨-, hdone⟩ | ⟨e, -, hdone⟩
      · rw [hdone] at hrejoined
        dsimp only
        rw [hdone, ← asked?_congr hrejoined]
        exact ih hrejoined.agrees (count + 1)
      · dsimp only
        rw [hdone]
        rfl

/-- What a plan has is what its permutation asks for. -/
theorem diagonalPlan_builder (h : b.Laid) (c : Coordinate) (directions : List Nat) (step2 : Int) :
    b.builder.diagonalPlan c directions step2 =
      directions.zipIdx.filterMap (asked? b.graph (b.diagonalNeighbours c step2)) := by
  rw [LatticeBuilder.diagonalPlan, h.builder_diagonalNeighbours]
  refine List.filterMap_congr fun next _ => ?_
  obtain ⟨direction, position⟩ := next
  rw [asked?]
  dsimp only
  rcases (b.diagonalNeighbours c step2)[direction]? with _ | _ | data
  · rfl
  · rfl
  · exact if_congr ((isData_graph b.graph data).trans beq_iff_eq.symm) rfl rfl

theorem Laid.builder_connectDiagonal (h : b.Laid) (check : Qubit) (directions : List Nat) (step2 : Int) :
    b.builder.connectDiagonal check directions step2 =
      ((b.perform (connectDiagonal check directions step2)).2.builder,
        (b.perform (connectDiagonal check directions step2)).1) := by
  simp only [LatticeBuilder.connectDiagonal, perform, perform_connectDiagonal]
  rcases validatePermutation directions with e | _
  · rfl
  have hnode : b.builder.graph.node? check = (b.graph.node? check).map b.graph.nodeOf := node?_graph b.graph check
  rw [hnode]
  rcases b.graph.node? check with _ | entry
  · rfl
  dsimp only [Option.map_some, nodeOf]
  rcases entry.coordinate with _ | c
  · rfl
  · dsimp only
    rw [diagonalPlan_builder h]
    exact connectAll_builder h.agrees b.boundary check _ _ 0

theorem Laid.builder_after (h : b.Laid) (call : PlacementCall) : (b.perform call.edit).2.builder = b.builder.after call := by
  cases call with
  | add role c label =>
    rw [LatticeBuilder.after, h.builder_add]
    simp only [perform, PlacementCall.edit, perform_bind_eq]
    rcases perform_add_cases b.graph role c label b.boundary with ⟨-, hdone⟩ | ⟨site, -, ⟨-, hdone⟩ | ⟨q, -, hdone⟩⟩
    · rw [hdone]
    · rw [hdone]
      rfl
    · rw [hdone]
  | connect check data order =>
    rw [LatticeBuilder.after, h.builder_connect]
    simp only [perform, PlacementCall.edit, perform_bind_eq, connect]
    rcases perform_addInteraction_cases b.graph check data order with ⟨-, hdone⟩ | ⟨e, -, hdone⟩
    · rw [hdone]
      rfl
    · rw [hdone]
  | connectDiagonal check directions step2 =>
    rw [LatticeBuilder.after, h.builder_connectDiagonal]
    simp only [perform, PlacementCall.edit, perform_bind_eq]
    rcases b.graph.perform (IndexedBuilder.connectDiagonal check directions step2 b.boundary) with
      ⟨e | _, g'⟩ <;> rfl

/-- Any calls, refused ones among them, lay out the stored graph and the graph by itself alike. -/
theorem grown_builder (h : b.Laid) (calls : List PlacementCall) :
    (b.grown calls).builder = calls.foldl LatticeBuilder.after b.builder := by
  induction calls generalizing b with
  | nil => rfl
  | cons call rest ih =>
    rw [List.foldl_cons, ← h.builder_after call]
    exact ih (h.call call)

end IndexedBuilder

end QuantumMemory

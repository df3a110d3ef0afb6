/-
  QuantumMemory.Proofs.Family.Translation — a described lattice is the same code wherever it
  is put down.

  Two descriptions match if their coordinates do, one by one, and all else is the same
  (`LatticeSpec.Matches`). If each coordinate of one names the moved site of the other, the
  builders go in step: the graph of the one is that of the other with its qubits moved
  (`graph_moved`), or both are refused at the same place and for the same reason (`SameOutcome`).

  Main result: `make_translation`, for shifts of the whole and for other names of the sites of
  a torus.
-/

import Mathlib.Data.List.Forall2
import QuantumMemory.Proofs.Family.Construction
import QuantumMemory.Proofs.Graph.Translation
import QuantumMemory.Proofs.Lattice.Coordinate

namespace QuantumMemory

/-! ## Outcomes -/

/-- The error without the coordinates in it: its kind and its qubits. -/
def CodeError.unplaced : CodeError → CodeError
  | duplicateCoordinate _ q => duplicateCoordinate .zero q
  | invalidLattice (.unwrappable _) => invalidLattice (.unwrappable .zero)
  | invalidLattice (.isolatedCheck _) => invalidLattice (.isolatedCheck .zero)
  | invalidLattice (.noSite _ check) => invalidLattice (.noSite .zero check)
  | noLogicalOperator (.noDataAt _) => noLogicalOperator (.noDataAt .zero)
  | e => e

/-- Both succeed and `R` holds of what they give, or both fail with errors that are the same
    but for the coordinates in them. -/
inductive SameOutcome {α β : Type} (R : α → β → Prop) : Except CodeError α → Except CodeError β → Prop
  | ok {a : α} {b : β} : R a b → SameOutcome R (.ok a) (.ok b)
  | error {e e' : CodeError} : e.unplaced = e'.unplaced → SameOutcome R (.error e) (.error e')

namespace SameOutcome

variable {α α' β β' : Type} {R : α → α' → Prop} {S : β → β' → Prop}

theorem of_eq {R : α → α → Prop} {x : Except CodeError α} (h : ∀ a, x = .ok a → R a a) : SameOutcome R x x := by
  cases x with
  | error e => exact .error rfl
  | ok a => exact .ok (h a rfl)

theorem imp_ok {R' : α → α' → Prop} {x : Except CodeError α} {x' : Except CodeError α'} (h : SameOutcome R x x')
    (himp : ∀ a a', x = .ok a → R a a' → R' a a') : SameOutcome R' x x' := by
  cases h with
  | ok ha => exact .ok (himp _ _ rfl ha)
  | error he => exact .error he

theorem bind {x : Except CodeError α} {x' : Except CodeError α'} {f : α → Except CodeError β}
    {f' : α' → Except CodeError β'} (hx : SameOutcome R x x') (hf : ∀ a a', R a a' → SameOutcome S (f a) (f' a')) :
    SameOutcome S (x >>= f) (x' >>= f') := by
  cases hx with
  | ok h => exact hf _ _ h
  | error h => exact .error h

theorem foldlM {P : β → β' → Prop} {f : α → β → Except CodeError α} {f' : α' → β' → Except CodeError α'} {xs : List β}
    {xs' : List β'} (hxs : List.Forall₂ P xs xs') (hstep : ∀ a a' x x', R a a' → P x x' → SameOutcome R (f a x) (f' a' x'))
    {a : α} {a' : α'} (ha : R a a') : SameOutcome R (xs.foldlM f a) (xs'.foldlM f' a') := by
  induction hxs generalizing a a' with
  | nil => exact .ok ha
  | cons hx _ ih =>
    rw [List.foldlM_cons, List.foldlM_cons]
    exact (hstep _ _ _ _ ha hx).bind fun _ _ hnext => ih hnext

theorem mapM {P : β → β' → Prop} {f : β → Except CodeError α} {f' : β' → Except CodeError α'} {xs : List β}
    {xs' : List β'} (hxs : List.Forall₂ P xs xs') (hitem : ∀ x x', P x x' → SameOutcome R (f x) (f' x')) :
    SameOutcome (List.Forall₂ R) (xs.mapM f) (xs'.mapM f') := by
  induction hxs with
  | nil => exact .ok .nil
  | cons hx _ ih =>
    rw [List.mapM_cons, List.mapM_cons]
    exact (hitem _ _ hx).bind fun _ _ hy => ih.bind fun _ _ hys => .ok (.cons hy hys)

end SameOutcome

/-- Pairs of items that go together have the same numbers. -/
theorem forall₂_zipIdx {α β : Type} {P : α → β → Prop} {xs : List α} {ys : List β} (h : List.Forall₂ P xs ys) (k : Nat) :
    List.Forall₂ (fun x y => P x.1 y.1 ∧ x.2 = y.2) (xs.zipIdx k) (ys.zipIdx k) := by
  induction h generalizing k with
  | nil => exact .nil
  | cons hx _ ih =>
    rw [List.zipIdx_cons, List.zipIdx_cons]
    exact .cons ⟨hx, rfl⟩ (ih (k + 1))

/-! ## Descriptions that match -/

/-- Within a million of the origin in both components. -/
def Coordinate.Within (c : Coordinate) : Prop := c.x2.natAbs ≤ 2 * limit ∧ c.y2.natAbs ≤ 2 * limit

instance : DecidablePred Coordinate.Within := fun c =>
  inferInstanceAs (Decidable (c.x2.natAbs ≤ 2 * Coordinate.limit ∧ c.y2.natAbs ≤ 2 * Coordinate.limit))

theorem Coordinate.Within.near {c : Coordinate} (h : c.Within) : c.Near := by
  obtain ⟨hx, hy⟩ : c.x2.natAbs ≤ 2000000 ∧ c.y2.natAbs ≤ 2000000 := h
  constructor <;> constructor <;> omega

namespace LatticeSpec

/-- All coordinates of a description. -/
def coordinates (s : LatticeSpec) : List Coordinate := s.data ++ s.checks.map (·.coordinate) ++ s.logical

/-- The description with `v` added to every coordinate. -/
def translate (v : Coordinate) (s : LatticeSpec) : LatticeSpec :=
  { s with
    data := s.data.map (· + v)
    checks := s.checks.map fun site => { site with coordinate := site.coordinate + v }
    logical := s.logical.map (· + v) }

/-- The same but for the coordinates, of which `P` holds one by one. -/
structure Matches (P : Coordinate → Coordinate → Prop) (s s' : LatticeSpec) : Prop where
  rest : s' = { s with data := s'.data, checks := s'.checks, logical := s'.logical }
  data : List.Forall₂ P s.data s'.data
  checks : List.Forall₂ (fun site site' => P site.coordinate site'.coordinate ∧
    site' = { site with coordinate := site'.coordinate }) s.checks s'.checks
  logical : List.Forall₂ P s.logical s'.logical

theorem matches_translate {P : Coordinate → Coordinate → Prop} {v : Coordinate} {s : LatticeSpec}
    (h : ∀ c ∈ s.coordinates, P c (c + v)) : s.Matches P (s.translate v) where
  rest := rfl
  data := List.forall₂_map_right_iff.mpr (List.forall₂_same.mpr fun c hc =>
    h c (List.mem_append_left _ (List.mem_append_left _ hc)))
  checks := List.forall₂_map_right_iff.mpr (List.forall₂_same.mpr fun _ hsite =>
    ⟨h _ (List.mem_append_left _ (List.mem_append_right _ (List.mem_map_of_mem hsite))), rfl⟩)
  logical := List.forall₂_map_right_iff.mpr (List.forall₂_same.mpr fun c hc => h c (List.mem_append_right _ hc))

theorem Matches.imp {P Q : Coordinate → Coordinate → Prop} {s s' : LatticeSpec} (h : s.Matches P s')
    (hPQ : ∀ c c', P c c' → Q c c') : s.Matches Q s' where
  rest := h.rest
  data := h.data.imp hPQ
  checks := h.checks.imp fun _ _ hsite => ⟨hPQ _ _ hsite.1, hsite.2⟩
  logical := h.logical.imp hPQ

/-! ## Building in step -/

open LatticeBuilder

/-- Another name for a site that is moved, neither near the ends of the range. -/
def Moves (boundary : Boundary) (v c c' : Coordinate) : Prop := boundary.Same (c + v) c' ∧ c.Near ∧ c'.Near

/-- A builder and the same builder moved. -/
structure InStep (boundary : Boundary) (v : Coordinate) (b b' : LatticeBuilder) : Prop where
  on : b.boundary = boundary
  settled : b.graph.Settled boundary v
  moved : b' = b.relocate (boundary.moved v)

variable {boundary : Boundary} {v : Coordinate} {b b' : LatticeBuilder}

theorem InStep.add (hfit : boundary.Fit) (h : InStep boundary v b b') {c c' : Coordinate} (hc : Moves boundary v c c')
    (role : Role) :
    SameOutcome (InStep boundary v) (do return (← b.add role c none).1) (do return (← b'.add role c' none).1) := by
  obtain ⟨rfl, hsettled, rfl⟩ := h
  obtain ⟨hsame, hnear, hnear'⟩ := hc
  rcases add_moved_cases hfit hsettled hsame hnear hnear' role none with
    ⟨b₁, q, hadd, hadd', hboundary, hsettled₁⟩ | ⟨site, q, hadd, hadd'⟩
  · rw [hadd, hadd']
    exact .ok ⟨hboundary, hsettled₁, rfl⟩
  · rw [hadd, hadd']
    exact .error rfl

theorem InStep.joinCheck (hfit : boundary.Fit) (h : InStep boundary v b b') {step2 : Int}
    (hstep : 0 < step2 ∧ step2 ≤ 2000000) {s s' : LatticeSpec} {site site' : CheckSite}
    (hdirections : s'.directionsOf site' = s.directionsOf site) (check : Qubit) :
    SameOutcome (InStep boundary v) (s.joinCheck step2 b site check) (s'.joinCheck step2 b' site' check) := by
  obtain ⟨rfl, hsettled, rfl⟩ := h
  rw [LatticeSpec.joinCheck, LatticeSpec.joinCheck, hdirections, joinDiagonal_moved hfit hsettled hstep]
  cases hjoin : b.joinDiagonal check (s.directionsOf site) step2 with
  | error e => exact .error rfl
  | ok joined =>
    obtain ⟨b₁, count⟩ := joined
    by_cases hcount : count = 0
    · simp only [Except.map, bind, Except.bind, if_pos hcount]
      exact .error rfl
    · simp only [Except.map, bind, Except.bind, if_neg hcount]
      exact .ok ⟨joinDiagonal_boundary hjoin, joinDiagonal_keeps (settled_joining _ _) hsettled hjoin, rfl⟩

/-- A step is at most a million, which is two million halves. -/
theorem step2_bounds {s : LatticeSpec} {step2 : Int} (h : s.step2 = .ok step2) : 0 < step2 ∧ step2 ≤ 2000000 := by
  unfold LatticeSpec.step2 at h
  split at h
  · rename_i k hk
    split at h
    · rename_i hpos
      obtain rfl := Except.ok.inj h
      have hle : k.natAbs ≤ 2000000 := Coordinate.exactHalf?_le hk
      exact ⟨hpos, by omega⟩
    · cases h
  · cases h

theorem start_inStep (boundary : Boundary) (v : Coordinate) :
    SameOutcome (fun b b' => boundary.Fit ∧ InStep boundary v b b') (LatticeBuilder.start boundary)
      (LatticeBuilder.start boundary) := by
  refine .of_eq fun b hb => ⟨Boundary.fit_of_start hb, ?_⟩
  obtain rfl := LatticeBuilder.start_ok hb
  refine ⟨rfl, fun q n hn => (by cases hn), ?_⟩
  rw [relocate, Graph.relocate_eq fun q n c hn => (by cases hn)]

section Moved

variable {s s' : LatticeSpec} (h : s.Matches (Moves s.boundary v) s')

include h

/-- The graphs of two descriptions, one of the sites of the other moved. -/
theorem graph_moved :
    SameOutcome (fun g g' => s.boundary.Fit ∧ g.Settled s.boundary v ∧ g' = g.relocate (s.boundary.moved v)) s.graph
      s'.graph := by
  have hrest := h.rest
  have hstep : s'.step2 = s.step2 := by rw [hrest]; rfl
  have hboundary : s'.boundary = s.boundary := by rw [hrest]
  have hlength : s'.data.length = s.data.length := h.data.length_eq.symm
  rw [graph, graph, hstep, hboundary, hlength]
  refine SameOutcome.bind (R := fun k k' => k' = k ∧ 0 < k ∧ k ≤ 2000000) (.of_eq fun _ hk => ⟨rfl, step2_bounds hk⟩) ?_
  rintro _ k ⟨rfl, hk⟩
  refine (start_inStep s.boundary v).bind ?_
  rintro b b' ⟨hfit, hb⟩
  refine (SameOutcome.foldlM h.data (fun _ _ _ _ hb hc => hb.add hfit hc .data) hb).bind fun b b' hb => ?_
  refine (SameOutcome.foldlM h.checks (fun b b' site site' hb hsite => ?_) hb).bind fun b b' hb => ?_
  · rw [hsite.2]
    exact hb.add hfit hsite.1 (.check site.basis)
  have hnumbered := forall₂_zipIdx h.checks 0
  refine (SameOutcome.foldlM hnumbered (fun b b' site site' hb hsite => ?_) hb).bind fun b b' hb => ?_
  · obtain ⟨⟨-, hsite⟩, hindex⟩ := hsite
    have hdirections : s'.directionsOf site'.1 = s.directionsOf site.1 := by
      rw [hsite, hrest]
      rfl
    show SameOutcome _ (s.joinCheck k b site.1 (s.data.length + site.2))
      (s'.joinCheck k b' site'.1 (s.data.length + site'.2))
    rw [← hindex]
    exact hb.joinCheck hfit hk hdirections _
  · exact .ok ⟨hfit, hb.settled, congrArg LatticeBuilder.graph hb.moved⟩

/-- A logical site is found where it is moved to. -/
theorem dataAt_moved (hfit : s.boundary.Fit) {g : Graph} (hg : g.Settled s.boundary v) {c c' : Coordinate}
    (hc : Moves s.boundary v c c') :
    SameOutcome (· = ·) (s.dataAt g c) (s'.dataAt (g.relocate (s.boundary.moved v)) c') := by
  have hboundary : s'.boundary = s.boundary := by rw [h.rest]
  obtain ⟨site, hsite⟩ := hfit.wrap?_total c
  have hfind : (g.relocate (s.boundary.moved v)).find? (s.boundary.moved v site) = g.find? site :=
    find?_moved (b := ⟨g, s.boundary⟩) hfit hg (Boundary.wrap?_site hsite)
  rw [dataAt, dataAt, hboundary, hsite, hfit.wrap?_moved hc.1 hsite, Option.bind_some, Option.bind_some, hfind]
  cases g.find? site with
  | none => exact .error rfl
  | some q =>
    simp only [Graph.isData_relocate]
    split
    · exact .ok rfl
    · exact .error rfl

end Moved

end LatticeSpec

/-! ## Codes -/

/-- The same code but for the sites of its qubits: numbers and roles, interactions with their
    orders, schedule and logical operator are the same, and so is every memory. -/
structure PlacedCode.SameButPlaces (c c' : PlacedCode) : Prop where
  roles : ∀ q, c'.graph.role? q = c.graph.role? q
  edges : c'.graph.edges = c.graph.edges
  layout : c'.layout = c.layout
  logical : c'.logical = c.logical
  memory : ∀ rounds, c'.layout.buildMemory c'.name c'.params rounds c'.logical =
    c.layout.buildMemory c.name c.params rounds c.logical
  /-- Below 2^30 qubits there is a memory of any number of rounds. -/
  built : c.graph.size < 2 ^ 30 → ∀ rounds, 1 ≤ rounds →
    ∃ e, c.layout.buildMemory c.name c.params rounds c.logical = .ok e

namespace LatticeSpec

/-- What two descriptions make, one of the sites of the other moved. -/
theorem make_moved {s s' : LatticeSpec} {v : Coordinate} (h : s.Matches (Moves s.boundary v) s') (params : CodeParams) :
    SameOutcome
      (fun c c' => c.graph.Settled s.boundary v ∧ c' = { c with graph := c.graph.relocate (s.boundary.moved v) })
      (make params s) (make params s') := by
  have hbases : s'.bases = s.bases := by rw [h.rest]
  have hpolicy : s'.policy = s.policy := by rw [h.rest]
  have hname : s'.name = s.name := by rw [h.rest]
  rw [make, make, hbases, hpolicy, hname]
  refine SameOutcome.bind (R := fun _ _ => True) (.of_eq fun _ _ => trivial) fun _ _ _ => ?_
  refine (graph_moved h).bind ?_
  rintro g _ ⟨hfit, hg, rfl⟩
  rw [Layout.ofGraph_relocate]
  refine SameOutcome.bind (R := (· = ·)) (.of_eq fun _ _ => rfl) ?_
  rintro l _ rfl
  refine (SameOutcome.mapM h.logical fun c c' hc => dataAt_moved h hfit hg hc).bind fun logical logical' hlogical => ?_
  obtain rfl : logical = logical' := List.forall₂_eq_eq_eq ▸ hlogical
  by_cases hempty : logical.isEmpty = true
  · simp only [if_pos hempty]
    exact .error rfl
  · simp only [if_neg hempty]
    exact .ok ⟨hg, rfl⟩

theorem sameButPlaces_of_made {s : LatticeSpec} {params : CodeParams} {c : PlacedCode} (h : make params s = .ok c)
    (f : Coordinate → Coordinate) : c.SameButPlaces { c with graph := c.graph.relocate f } where
  roles := c.graph.role?_relocate f
  edges := c.graph.edges_relocate f
  layout := rfl
  logical := rfl
  memory _ := rfl
  built hsize _ hpos := ⟨_, (make_consistent h).buildMemory_eq hsize hpos⟩

/-- A description that is shifted as a whole, or one whose sites on a torus have other names,
    makes the same code or is refused for the same reason. -/
theorem make_translation (params : CodeParams) (s : LatticeSpec) :
    (∀ v, (∀ c ∈ s.coordinates, c.Within ∧ (c + v).Within) →
      SameOutcome (fun c c' => c'.graph = c.graph.relocate (s.boundary.moved v) ∧ c.SameButPlaces c') (make params s)
        (make params (s.translate v))) ∧
    ∀ width height s', s.boundary = .toroidal width height →
      s.Matches (fun c c' => c.Congruent width height c' ∧ c.Within ∧ c'.Within) s' →
      SameOutcome (fun c c' => c'.graph = c.graph ∧ c.SameButPlaces c') (make params s) (make params s') := by
  constructor
  · intro v hwithin
    have hmatches : s.Matches (Moves s.boundary v) (s.translate v) := matches_translate fun c hc => by
      obtain ⟨hnear, hnear'⟩ := hwithin c hc
      exact ⟨Boundary.same_refl _ _, hnear.near, hnear'.near⟩
    refine (make_moved hmatches params).imp_ok fun c c' hc hmoved => ?_
    obtain ⟨-, rfl⟩ := hmoved
    exact ⟨rfl, sameButPlaces_of_made hc _⟩
  · intro width height s' hboundary hcongruent
    have hmatches : s.Matches (Moves s.boundary .zero) s' := hcongruent.imp fun c c' hc => by
      obtain ⟨hsame, hnear, hnear'⟩ := hc
      refine ⟨?_, hnear.near, hnear'.near⟩
      rw [hboundary, Coordinate.add_zero]
      exact hsame
    refine (make_moved hmatches params).imp_ok fun c c' hc hmoved => ?_
    obtain ⟨hsettled, rfl⟩ := hmoved
    -- Moved by nothing, every kept site stays.
    have hstays : c.graph.relocate (s.boundary.moved .zero) = c.graph := Graph.relocate_eq fun q n d hn hd => by
      obtain ⟨site, hsite, hsteady⟩ := hsettled q n hn
      rw [hsite] at hd
      obtain rfl := Option.some.inj hd
      exact Boundary.moved_zero hsteady.kept
    exact ⟨hstays, sameButPlaces_of_made hc _⟩

/-- Two data qubits and a Z check between them on a torus of two by two. -/
def tile (a b check logical : Coordinate) : LatticeSpec where
  name := "tile"
  data := [a, b]
  checks := [⟨.z, check, none⟩]
  bases := [.z]
  xDirections := [0, 1, 2, 3]
  zDirections := [0, 1, 2, 3]
  step := .ofRatio false 1 2
  boundary := .toroidal 2 2
  logical := [logical]
  policy := .emit

/-- A tile with every gate noisy is shifted over the seam, and its sites get other names. -/
theorem make_translation_tile :
    (make ⟨1, .one, .one⟩ (tile ⟨0, 0⟩ ⟨2, 2⟩ ⟨1, 1⟩ ⟨2, 2⟩)).toOption.map (fun c => (c.logical, c.graph.edges)) =
        some ([1], [⟨2, 0, 1⟩, ⟨2, 1, 4⟩]) ∧
      SameOutcome (fun c c' => c'.graph = c.graph.relocate (Boundary.moved (.toroidal 2 2) ⟨-3, 5⟩) ∧ c.SameButPlaces c')
        (make ⟨1, .one, .one⟩ (tile ⟨0, 0⟩ ⟨2, 2⟩ ⟨1, 1⟩ ⟨2, 2⟩))
        (make ⟨1, .one, .one⟩ (translate ⟨-3, 5⟩ (tile ⟨0, 0⟩ ⟨2, 2⟩ ⟨1, 1⟩ ⟨2, 2⟩))) ∧
      SameOutcome (fun c c' => c'.graph = c.graph ∧ c.SameButPlaces c')
        (make ⟨1, .one, .one⟩ (tile ⟨0, 0⟩ ⟨2, 2⟩ ⟨1, 1⟩ ⟨2, 2⟩))
        (make ⟨1, .one, .one⟩ (tile ⟨-4, 8⟩ ⟨2, -6⟩ ⟨5, 1⟩ ⟨6, 2⟩)) := by
  have hboth := make_translation ⟨1, .one, .one⟩ (tile ⟨0, 0⟩ ⟨2, 2⟩ ⟨1, 1⟩ ⟨2, 2⟩)
  refine ⟨by decide +kernel, hboth.1 ⟨-3, 5⟩ (by decide), hboth.2 2 2 _ rfl ?_⟩
  exact ⟨by simp only [tile], .cons (by decide) (.cons (by decide) .nil), .cons ⟨by decide, rfl⟩ .nil,
    .cons (by decide) .nil⟩

end LatticeSpec

end QuantumMemory

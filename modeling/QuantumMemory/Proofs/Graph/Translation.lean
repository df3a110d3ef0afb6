/-
  QuantumMemory.Proofs.Graph.Translation — a lattice moved as a whole.

  Two coordinates name one site if they are the same or, on a torus, congruent
  (`Boundary.Same`). A site that is moved goes where the boundary keeps it
  (`Boundary.moved`), whatever names it had and gets (`Fit.wrap?_moved`), and no two sites go
  to one (`Fit.moved_inj`). So every step of a builder has the same outcome before and after
  the move (`add_moved_cases`, `joinDiagonal_moved`), as long as no site comes so near to the
  ends of the range that a neighbour is lost (`Settled`).
-/

import QuantumMemory.Proofs.Graph.Relocation
import QuantumMemory.Proofs.Graph.Torus

namespace QuantumMemory

namespace Coordinate

instance : Add Coordinate := ⟨fun c v => ⟨c.x2 + v.x2, c.y2 + v.y2⟩⟩

/-- The origin. -/
def zero : Coordinate := ⟨0, 0⟩

theorem add_zero (c : Coordinate) : c + zero = c := by
  show (⟨c.x2 + 0, c.y2 + 0⟩ : Coordinate) = c
  rw [Int.add_zero, Int.add_zero]

theorem add_right_comm (c d v : Coordinate) : c + d + v = c + v + d := by
  show (⟨c.x2 + d.x2 + v.x2, c.y2 + d.y2 + v.y2⟩ : Coordinate) = ⟨c.x2 + v.x2 + d.x2, c.y2 + v.y2 + d.y2⟩
  rw [Int.add_right_comm, Int.add_right_comm c.y2]

theorem add_right_cancel {c c' v : Coordinate} (h : c + v = c' + v) : c = c' := by
  obtain ⟨hx, hy⟩ := Coordinate.mk.inj h
  cases c
  cases c'
  exact congrArg₂ Coordinate.mk ((Int.add_left_inj _).mp hx) ((Int.add_left_inj _).mp hy)

/-- Within twice the largest period of the origin, so that a step of a lattice from there stays
    within the range. -/
def Near (c : Coordinate) : Prop := (-2097152 ≤ c.x2 ∧ c.x2 ≤ 2097152) ∧ -2097152 ≤ c.y2 ∧ c.y2 ≤ 2097152

theorem Near.shift? {c : Coordinate} (h : c.Near) {dx2 dy2 : Int} (hx : -2000000 ≤ dx2 ∧ dx2 ≤ 2000000)
    (hy : -2000000 ≤ dy2 ∧ dy2 ≤ 2000000) : c.shift? dx2 dy2 = some (c + ⟨dx2, dy2⟩) := by
  obtain ⟨hcx, hcy⟩ := h
  rw [Coordinate.shift?, LatticeBuilder.inRange_small (by omega) (by omega),
    LatticeBuilder.inRange_small (by omega) (by omega)]
  rfl

end Coordinate

namespace Boundary

/-- Two names of one site. -/
def Same : Boundary → Coordinate → Coordinate → Prop
  | .open, c, c' => c = c'
  | .toroidal width height, c, c' => c.Congruent width height c'

/-- Where a site is kept after a move. -/
def moved (boundary : Boundary) (v site : Coordinate) : Coordinate := (boundary.wrap? (site + v)).getD site

/-- What a builder takes. -/
def Fit (boundary : Boundary) : Prop := ∀ width height, boundary = .toroidal width height → Periods width height

theorem fit_of_start {boundary : Boundary} {b : LatticeBuilder} (h : LatticeBuilder.start boundary = .ok b) :
    boundary.Fit := by
  rintro width height rfl
  exact periods_of_start h

variable {boundary : Boundary} {c c' d site site' v : Coordinate}

theorem same_refl (boundary : Boundary) (c : Coordinate) : boundary.Same c c := by
  cases boundary with
  | «open» => rfl
  | toroidal width height => exact ⟨.refl _, .refl _⟩

theorem Same.add_right (h : boundary.Same c c') (v : Coordinate) : boundary.Same (c + v) (c' + v) := by
  cases boundary with
  | «open» => exact congrArg (· + v) h
  | toroidal width height => exact ⟨h.1.add_right v.x2, h.2.add_right v.y2⟩

theorem Same.add_right_cancel (h : boundary.Same (c + v) (c' + v)) : boundary.Same c c' := by
  cases boundary with
  | «open» => exact Coordinate.add_right_cancel h
  | toroidal width height => exact ⟨h.1.add_right_cancel' v.x2, h.2.add_right_cancel' v.y2⟩

namespace Fit

variable (hb : boundary.Fit)

include hb

theorem wrap?_total (c : Coordinate) : ∃ site, boundary.wrap? c = some site := by
  cases boundary with
  | «open» => exact ⟨c, rfl⟩
  | toroidal width height => exact ⟨_, (hb width height rfl).wrap? c⟩

theorem wrap?_eq_iff : boundary.wrap? c = boundary.wrap? c' ↔ boundary.Same c c' := by
  cases boundary with
  | «open» => exact Option.some.injEq c c' ▸ Iff.rfl
  | toroidal width height => exact (hb width height rfl).wrap?_eq_iff

theorem wrap?_near (hc : c.Near) (hsite : boundary.wrap? c = some site) : site.Near := by
  cases boundary with
  | «open» =>
    obtain rfl := Option.some.inj hsite
    exact hc
  | toroidal width height =>
    have hp := hb width height rfl
    obtain ⟨hx, hy⟩ := hp.site_range hsite
    have hbounded : width ≤ 1048576 ∧ height ≤ 1048576 := hp.bounded
    constructor <;> constructor <;> omega

/-- A name that is moved is kept where its site is moved to, under all names it can have there. -/
theorem wrap?_moved (h : boundary.Same (c + v) c') (hsite : boundary.wrap? c = some site) :
    boundary.wrap? c' = some (boundary.moved v site) := by
  have hsame : boundary.Same site c := hb.wrap?_eq_iff.mp ((wrap?_site hsite).trans hsite.symm)
  obtain ⟨target, htarget⟩ := hb.wrap?_total (site + v)
  calc boundary.wrap? c' = boundary.wrap? (c + v) := (hb.wrap?_eq_iff.mpr h).symm
    _ = boundary.wrap? (site + v) := (hb.wrap?_eq_iff.mpr (hsame.add_right v)).symm
    _ = some (boundary.moved v site) := by rw [moved, htarget, Option.getD_some]

theorem same_moved (v site : Coordinate) : boundary.Same (site + v) (boundary.moved v site) := by
  obtain ⟨target, htarget⟩ := hb.wrap?_total (site + v)
  rw [← hb.wrap?_eq_iff, moved, htarget, Option.getD_some, wrap?_site htarget]

theorem moved_inj (hsite : boundary.wrap? site = some site) (hsite' : boundary.wrap? site' = some site')
    (h : boundary.moved v site = boundary.moved v site') : site = site' := by
  have hmoved := hb.same_moved v site
  rw [h] at hmoved
  have hsame : boundary.Same (site + v) (site' + v) := by
    rw [← hb.wrap?_eq_iff, hb.wrap?_eq_iff.mpr hmoved, hb.wrap?_eq_iff.mpr (hb.same_moved v site')]
  have hkept := hb.wrap?_eq_iff.mpr hsame.add_right_cancel
  rw [hsite, hsite'] at hkept
  exact Option.some.inj hkept

end Fit

theorem moved_zero (hsite : boundary.wrap? site = some site) : boundary.moved .zero site = site := by
  rw [moved, Coordinate.add_zero, hsite, Option.getD_some]

end Boundary

/-- A kept site that is near to the origin before and after a move. -/
structure Boundary.Steady (boundary : Boundary) (v site : Coordinate) : Prop where
  kept : boundary.wrap? site = some site
  near : site.Near
  near_moved : (boundary.moved v site).Near

/-- Every qubit stands on such a site. -/
def Graph.Settled (boundary : Boundary) (v : Coordinate) (g : Graph) : Prop :=
  ∀ q n, g.node? q = some n → ∃ site, n.coordinate = some site ∧ boundary.Steady v site

namespace LatticeBuilder

open QuantumMemory.Graph QuantumMemory.Boundary

/-- The builder with its qubits put elsewhere. -/
def relocate (f : Coordinate → Coordinate) (b : LatticeBuilder) : LatticeBuilder := ⟨b.graph.relocate f, b.boundary⟩

variable {b : LatticeBuilder} {v : Coordinate}

theorem settled_joining (boundary : Boundary) (v : Coordinate) : KeptByJoining (Settled boundary v) := by
  intro g g' check data order h hs q n' hn'
  obtain ⟨n, hn, -, hc, -, -⟩ := node?_addInteraction h hn'
  rw [hc]
  exact hs q n hn

section Moved

variable (hb : b.boundary.Fit) (hs : b.graph.Settled b.boundary v)

include hb hs

theorem find?_moved {site : Coordinate} (hsite : b.boundary.wrap? site = some site) :
    (b.graph.relocate (b.boundary.moved v)).find? (b.boundary.moved v site) = b.graph.find? site := by
  refine find?_relocate fun q n c hn hc hmoved => ?_
  obtain ⟨c', hc', hsteady⟩ := hs q n hn
  rw [hc] at hc'
  obtain rfl := Option.some.inj hc'
  exact hb.moved_inj hsteady.kept hsite hmoved

theorem neighbour?_moved {site : Coordinate} (hsite : b.boundary.Steady v site) {dx2 dy2 : Int}
    (hx : -2000000 ≤ dx2 ∧ dx2 ≤ 2000000) (hy : -2000000 ≤ dy2 ∧ dy2 ≤ 2000000) :
    (b.relocate (b.boundary.moved v)).neighbour? (b.boundary.moved v site) dx2 dy2 = b.neighbour? site dx2 dy2 := by
  obtain ⟨target, htarget⟩ := hb.wrap?_total (site + ⟨dx2, dy2⟩)
  have hsame : b.boundary.Same (site + ⟨dx2, dy2⟩ + v) (b.boundary.moved v site + ⟨dx2, dy2⟩) := by
    rw [Coordinate.add_right_comm]
    exact (hb.same_moved v site).add_right _
  have hmoved := hb.wrap?_moved hsame htarget
  rw [neighbour?, neighbour?, hsite.near.shift? hx hy, hsite.near_moved.shift? hx hy]
  calc ((b.boundary.wrap? (b.boundary.moved v site + ⟨dx2, dy2⟩)).bind (b.graph.relocate (b.boundary.moved v)).find?)
      = (b.graph.relocate (b.boundary.moved v)).find? (b.boundary.moved v target) := by rw [hmoved, Option.bind_some]
    _ = b.graph.find? target := find?_moved hb hs (wrap?_site htarget)
    _ = (b.boundary.wrap? (site + ⟨dx2, dy2⟩)).bind b.graph.find? := by rw [htarget, Option.bind_some]

variable {step2 : Int} (hstep : 0 < step2 ∧ step2 ≤ 2000000)

include hstep

theorem diagonalNeighbours_moved {site : Coordinate} (hsite : b.boundary.Steady v site) :
    (b.relocate (b.boundary.moved v)).diagonalNeighbours (b.boundary.moved v site) step2 =
      b.diagonalNeighbours site step2 := by
  have hunit : ∀ s ∈ diagonals, (s.1 = 1 ∨ s.1 = -1) ∧ (s.2 = 1 ∨ s.2 = -1) := by decide
  refine List.map_congr_left fun s hs' => ?_
  obtain ⟨h1, h2⟩ := hunit s hs'
  have hx : -2000000 ≤ s.1 * step2 ∧ s.1 * step2 ≤ 2000000 := by rcases h1 with h1 | h1 <;> rw [h1] <;> omega
  have hy : -2000000 ≤ s.2 * step2 ∧ s.2 * step2 ≤ 2000000 := by rcases h2 with h2 | h2 <;> rw [h2] <;> omega
  simp only [neighbour?_moved hb hs hsite hx hy]

theorem diagonalPlan_moved {site : Coordinate} (hsite : b.boundary.Steady v site) (directions : List Nat) :
    (b.relocate (b.boundary.moved v)).diagonalPlan (b.boundary.moved v site) directions step2 =
      b.diagonalPlan site directions step2 := by
  simp only [diagonalPlan, diagonalNeighbours_moved hb hs hstep hsite]
  simp only [relocate, isData_relocate]

omit hb hs hstep in
theorem connectAll_relocate (f : Coordinate → Coordinate) (check : Qubit) (count : Nat) (plan : List (Nat × Qubit)) :
    (b.relocate f).connectAll check count plan =
      ((b.connectAll check count plan).1.relocate f, (b.connectAll check count plan).2) := by
  induction plan generalizing b count with
  | nil => rfl
  | cons p rest ih =>
    obtain ⟨order, data⟩ := p
    have hconnect : (b.relocate f).connect check data order = (b.connect check data order).map (relocate f) := by
      simp only [connect, relocate, addInteraction_relocate, bind, Except.bind, pure, Except.pure]
      cases b.graph.addInteraction check data order <;> rfl
    rw [connectAll, connectAll, hconnect]
    cases b.connect check data order with
    | error e => rfl
    | ok b' => exact ih (count + 1)

/-- A check is joined to the same data qubits, or it is refused for the same reason. -/
theorem joinDiagonal_moved (check : Qubit) (directions : List Nat) :
    (b.relocate (b.boundary.moved v)).joinDiagonal check directions step2 =
      (b.joinDiagonal check directions step2).map fun (b', count) => (b'.relocate (b.boundary.moved v), count) := by
  have hconnect : (b.relocate (b.boundary.moved v)).connectDiagonal check directions step2 =
      ((b.connectDiagonal check directions step2).1.relocate (b.boundary.moved v),
        (b.connectDiagonal check directions step2).2) := by
    rw [connectDiagonal, connectDiagonal]
    cases validatePermutation directions with
    | error e => rfl
    | ok =>
      have hnode := node?_relocate (b.boundary.moved v) b.graph check
      cases hn : b.graph.node? check with
      | none =>
        rw [hn] at hnode
        simp only [relocate, hnode, Option.map_none]
      | some n =>
        obtain ⟨site, hsite, hsteady⟩ := hs check n hn
        have hmoved : (n.relocate (b.boundary.moved v)).coordinate = some (b.boundary.moved v site) := by
          rw [Node.relocate, hsite, Option.map_some]
        rw [hn] at hnode
        have hnode' : (b.relocate (b.boundary.moved v)).graph.node? check = some (n.relocate (b.boundary.moved v)) := hnode
        simp only [hnode', hmoved, hsite]
        rw [diagonalPlan_moved hb hs hstep hsteady]
        exact connectAll_relocate _ check 0 _
  rw [joinDiagonal, joinDiagonal, hconnect]
  rcases b.connectDiagonal check directions step2 with ⟨b', e | count⟩ <;> rfl

end Moved

/-- A qubit is added on a site and on the site moved, or it is refused for one qubit on both. -/
theorem add_moved_cases (hb : b.boundary.Fit) (hs : b.graph.Settled b.boundary v) {c c' : Coordinate}
    (h : b.boundary.Same (c + v) c') (hc : c.Near) (hc' : c'.Near) (role : Role) (label : Option String) :
    (∃ b' q, b.add role c label = .ok (b', q) ∧
      (b.relocate (b.boundary.moved v)).add role c' label = .ok (b'.relocate (b.boundary.moved v), q) ∧
      b'.boundary = b.boundary ∧ b'.graph.Settled b.boundary v) ∨
    ∃ site q, b.add role c label = .error (.duplicateCoordinate site q) ∧
      (b.relocate (b.boundary.moved v)).add role c' label =
        .error (.duplicateCoordinate (b.boundary.moved v site) q) := by
  obtain ⟨site, hsite⟩ := hb.wrap?_total c
  have hmoved := hb.wrap?_moved h hsite
  have hsteady : b.boundary.Steady v site := ⟨wrap?_site hsite, hb.wrap?_near hc hsite, hb.wrap?_near hc' hmoved⟩
  have hapart : ∀ q n d, b.graph.node? q = some n → n.coordinate = some d →
      b.boundary.moved v d = b.boundary.moved v site → d = site := by
    intro q n d hn hd hsame
    obtain ⟨d', hd', hsteady'⟩ := hs q n hn
    rw [hd] at hd'
    obtain rfl := Option.some.inj hd'
    exact hb.moved_inj hsteady'.kept hsteady.kept hsame
  simp only [add, Boundary.wrap, hsite, relocate, hmoved, bind, Except.bind]
  rcases addQubit_relocate_cases hapart role label with ⟨g', hadd, hadd'⟩ | ⟨q, hadd, hadd'⟩
  · rw [hadd, hadd']
    refine .inl ⟨⟨g', b.boundary⟩, b.graph.size, rfl, rfl, rfl, fun q n hn => ?_⟩
    obtain ⟨-, rfl, -⟩ := addQubit_ok hadd
    rw [node?_push] at hn
    split at hn
    · obtain rfl := Option.some.inj hn
      exact ⟨site, rfl, hsteady⟩
    · exact hs q n hn
  · rw [hadd, hadd']
    exact .inr ⟨site, q, rfl, rfl⟩

end LatticeBuilder

end QuantumMemory

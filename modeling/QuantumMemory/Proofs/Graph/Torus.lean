/-
  QuantumMemory.Proofs.Graph.Torus — on a torus a site is one point with all its copies.

  Points that are whole periods apart are congruent, and of congruent points the boundary
  keeps one, between zero and the periods (`Periods.wrap?_eq_iff`). Qubits stand on kept
  points only, so an exact look-up is a look-up of the class: a coordinate is taken
  if a congruent one is, and a neighbour is seen across the seam.

  Main result: `grown_onTorus`, over every run of calls, refused ones among them.
-/

import Mathlib.Data.Int.ModEq
import QuantumMemory.Proofs.Graph.Placement

namespace QuantumMemory

/-- One point of the torus: both components are whole periods apart. -/
def Coordinate.Congruent (width height : Nat) (c c' : Coordinate) : Prop :=
  c.x2 ≡ c'.x2 [ZMOD 2 * width] ∧ c.y2 ≡ c'.y2 [ZMOD 2 * height]

instance (width height : Nat) (c c' : Coordinate) : Decidable (c.Congruent width height c') :=
  inferInstanceAs (Decidable (c.x2 ≡ c'.x2 [ZMOD 2 * width] ∧ c.y2 ≡ c'.y2 [ZMOD 2 * height]))

namespace Boundary

/-- The periods that a builder takes. -/
structure Periods (width height : Nat) : Prop where
  positive : 0 < width ∧ 0 < height
  bounded : width ≤ maxPeriod ∧ height ≤ maxPeriod

theorem periods_of_start {width height : Nat} {b : LatticeBuilder}
    (h : LatticeBuilder.start (.toroidal width height) = .ok b) : Periods width height := by
  simp only [LatticeBuilder.start] at h
  split at h
  · cases h
  · exact ⟨by omega, by omega⟩

theorem inRange_residue {n : Nat} (hpos : 0 < n) (hle : n ≤ maxPeriod) (k : Int) :
    (0 ≤ k % (2 * n) ∧ k % (2 * n) < 2 * n) ∧ Coordinate.inRange (k % (2 * n)) = true := by
  have hle' : n ≤ 1048576 := hle
  have hnonneg := Int.emod_nonneg k (b := 2 * n) (by omega)
  have hlt := Int.emod_lt_of_pos k (b := 2 * n) (by omega)
  exact ⟨⟨hnonneg, hlt⟩, LatticeBuilder.inRange_small (by omega) (by omega)⟩

namespace Periods

variable {width height : Nat} {c c' site : Coordinate}

variable (h : Periods width height)

include h

/-- Nothing lies where the boundary cannot wrap it. -/
theorem wrap? (c : Coordinate) :
    (toroidal width height).wrap? c = some ⟨c.x2 % (2 * width), c.y2 % (2 * height)⟩ := by
  have hzero : ¬(width = 0 ∨ height = 0) := by
    obtain ⟨hw, hh⟩ := h.positive
    omega
  have hx := (inRange_residue h.positive.1 h.bounded.1 c.x2).2
  have hy := (inRange_residue h.positive.2 h.bounded.2 c.y2).2
  simp only [Boundary.wrap?, if_neg hzero, hx, hy, Bool.and_self, if_true]

/-- Of congruent points one is kept. -/
theorem wrap?_eq_iff : (toroidal width height).wrap? c = (toroidal width height).wrap? c' ↔ c.Congruent width height c' := by
  rw [h.wrap?, h.wrap?, Option.some.injEq, Coordinate.mk.injEq]
  rfl

theorem site_range (hsite : (toroidal width height).wrap? c = some site) :
    (0 ≤ site.x2 ∧ site.x2 < 2 * width) ∧ 0 ≤ site.y2 ∧ site.y2 < 2 * height := by
  rw [h.wrap?] at hsite
  obtain rfl := Option.some.inj hsite
  exact ⟨(inRange_residue h.positive.1 h.bounded.1 c.x2).1, (inRange_residue h.positive.2 h.bounded.2 c.y2).1⟩

/-- A kept point is congruent to what it stands for and to nothing else. -/
theorem congruent_iff (hsite : (toroidal width height).wrap? site = some site) :
    site.Congruent width height c ↔ (toroidal width height).wrap? c = some site := by
  rw [← h.wrap?_eq_iff, hsite, eq_comm]

end Periods

end Boundary

open Boundary (Periods)

namespace IndexedGraph

/-- The qubit is on the site. -/
def StandsOn (g : IndexedGraph) (q : Qubit) (site : Coordinate) : Prop :=
  ∃ n, g.node? q = some n ∧ n.coordinate = some site

end IndexedGraph

namespace IndexedBuilder

open IndexedGraph

variable {b : IndexedBuilder} {width height : Nat}

/-- What holds of a builder whose graph lies on a torus. -/
structure OnTorus (width height : Nat) (b : IndexedBuilder) : Prop where
  /-- Every qubit has a site between zero and the periods. -/
  sites : ∀ q < b.graph.size, ∃ site, b.graph.StandsOn q site ∧
    (0 ≤ site.x2 ∧ site.x2 < 2 * width) ∧ 0 ≤ site.y2 ∧ site.y2 < 2 * height
  /-- No two qubits are whole periods apart. -/
  apart : ∀ q q' site site', b.graph.StandsOn q site → b.graph.StandsOn q' site' →
    site.Congruent width height site' → q = q'
  /-- An addition is refused where a qubit stands on a congruent site, and nowhere else. -/
  refused_iff : ∀ role c label, (∃ e, (b.perform (add role c label)).1 = .error e) ↔
    ∃ q site, b.graph.StandsOn q site ∧ site.Congruent width height c
  /-- What is said then is which qubit that is. -/
  refused_with : ∀ role c label e, (b.perform (add role c label)).1 = .error e →
    ∃ q site, b.graph.StandsOn q site ∧ site.Congruent width height c ∧ e = .duplicateCoordinate site q
  /-- Within the range of coordinates a neighbour is the qubit on a congruent site. -/
  neighbour_iff : ∀ (c : Coordinate) dx2 dy2, Coordinate.inRange (c.x2 + dx2) = true →
    Coordinate.inRange (c.y2 + dy2) = true → ∀ q, b.neighbour? c dx2 dy2 = some q ↔
      ∃ site, b.graph.StandsOn q site ∧ site.Congruent width height ⟨c.x2 + dx2, c.y2 + dy2⟩

namespace Laid

variable (h : b.Laid)

include h

theorem site_kept {q : Qubit} {site : Coordinate} (hq : b.graph.StandsOn q site) : b.boundary.wrap? site = some site := by
  obtain ⟨n, hn, hsite⟩ := hq
  obtain ⟨site', hsite', hkept⟩ := h.placed n (List.mem_of_getElem? hn)
  rw [hsite] at hsite'
  obtain rfl := Option.some.inj hsite'
  exact hkept

/-- The index finds whoever stands on a site that is congruent to the coordinate. -/
theorem index_iff (hp : Periods width height) (hb : b.boundary = .toroidal width height) {c site : Coordinate}
    (hwrap : b.boundary.wrap? c = some site) (q : Qubit) :
    b.graph.index site = some q ↔ ∃ site', b.graph.StandsOn q site' ∧ site'.Congruent width height c := by
  rw [h.agrees.indexed]
  constructor
  · intro hq
    refine ⟨site, hq, ?_⟩
    have hkept := h.site_kept hq
    rw [hb] at hkept hwrap
    exact (hp.congruent_iff hkept).mpr hwrap
  · rintro ⟨site', hq, hcongruent⟩
    have hkept := h.site_kept hq
    rw [hb] at hkept hwrap
    rw [(hp.congruent_iff hkept).mp hcongruent] at hwrap
    exact (Option.some.inj hwrap) ▸ hq

/-- On a torus an addition has one way to fail. -/
theorem add_torus (hp : Periods width height) (hb : b.boundary = .toroidal width height) (role : Role) (c : Coordinate)
    (label : Option String) :
    ((∀ q site, b.graph.StandsOn q site → ¬site.Congruent width height c) ∧
      (b.perform (add role c label)).1 = .ok b.graph.size) ∨
    ∃ q site, b.graph.StandsOn q site ∧ site.Congruent width height c ∧
      (b.perform (add role c label)).1 = .error (.duplicateCoordinate site q) := by
  have hwrapped : b.boundary.wrap? c ≠ none := by
    rw [hb, hp.wrap?]
    exact Option.some_ne_none _
  rcases perform_add_cases b.graph role c label b.boundary with ⟨hnone, -⟩ | ⟨site, hsite, ⟨hfree, hdone⟩ | ⟨q, hq, hdone⟩⟩
  · exact absurd hnone hwrapped
  · refine .inl ⟨fun q site' hq hcongruent => ?_, congrArg Prod.fst hdone⟩
    have hfound := (h.index_iff hp hb hsite q).mpr ⟨site', hq, hcongruent⟩
    rw [hfree] at hfound
    cases hfound
  · have hstands : b.graph.StandsOn q site := (h.agrees.indexed site q).mp hq
    have hkept := h.site_kept hstands
    refine .inr ⟨q, site, hstands, ?_, congrArg Prod.fst hdone⟩
    rw [hb] at hkept hsite
    exact (hp.congruent_iff hkept).mpr hsite

theorem onTorus (hp : Periods width height) (hb : b.boundary = .toroidal width height) : OnTorus width height b := by
  constructor
  case sites =>
    intro q hq
    have hn : b.graph.node? q = some b.graph.entries[q] := List.getElem?_eq_getElem hq
    obtain ⟨site, hsite, hkept⟩ := h.placed _ (List.mem_of_getElem? hn)
    rw [hb] at hkept
    exact ⟨site, ⟨_, hn, hsite⟩, hp.site_range hkept⟩
  case apart =>
    intro q q' site site' hq hq' hcongruent
    have hkept' := h.site_kept hq'
    have hfound := (h.index_iff hp hb hkept' q).mpr ⟨site, hq, hcongruent⟩
    have hfound' := (h.agrees.indexed site' q').mpr hq'
    rw [hfound] at hfound'
    exact Option.some.inj hfound'
  case refused_iff =>
    intro role c label
    rcases h.add_torus hp hb role c label with ⟨hfree, hdone⟩ | ⟨q, site, hq, hcongruent, hdone⟩
    · rw [hdone]
      refine ⟨fun ⟨e, he⟩ => (by cases he), fun ⟨q, site, hq, hcongruent⟩ => ?_⟩
      exact absurd hcongruent (hfree q site hq)
    · exact ⟨fun _ => ⟨q, site, hq, hcongruent⟩, fun _ => ⟨_, hdone⟩⟩
  case refused_with =>
    intro role c label e he
    rcases h.add_torus hp hb role c label with ⟨-, hdone⟩ | ⟨q, site, hq, hcongruent, hdone⟩
    · rw [hdone] at he
      cases he
    · rw [hdone] at he
      exact ⟨q, site, hq, hcongruent, (Except.error.inj he).symm⟩
  case neighbour_iff =>
    intro c dx2 dy2 hx hy q
    obtain ⟨site, hwrap⟩ : ∃ site, b.boundary.wrap? ⟨c.x2 + dx2, c.y2 + dy2⟩ = some site := by
      rw [hb, hp.wrap?]
      exact ⟨_, rfl⟩
    have hfound : b.neighbour? c dx2 dy2 = b.graph.index site := by
      rw [neighbour?, Coordinate.shift?, hx, hy]
      exact congrArg (Option.bind · b.graph.find?) hwrap
    rw [hfound, h.index_iff hp hb hwrap]

end Laid

/-- Whatever calls a builder on a torus has had, refused ones among them. -/
theorem grown_onTorus {b₀ : IndexedBuilder} (hstart : start (.toroidal width height) = .ok b₀)
    (calls : List PlacementCall) : OnTorus width height (b₀.grown calls) := by
  obtain ⟨hbuilder, rfl⟩ := start_ok hstart
  refine ((laid_empty _).grown calls).onTorus (Boundary.periods_of_start hbuilder) ?_
  rw [grown_boundary]

/-- On a torus of two by two the second data qubit is refused, being the first a period away,
    and the check, put down outside the periods, is joined to the first across the seam. -/
theorem grown_onTorus_seam :
    let b₀ : IndexedBuilder := ⟨.empty, .toroidal 2 2⟩
    let calls : List PlacementCall :=
      [.add .data ⟨0, 0⟩ none, .add .data ⟨4, -4⟩ none, .add (.check .z) ⟨-1, 7⟩ none, .connectDiagonal 1 [0, 1, 2, 3] 1]
    start (.toroidal 2 2) = .ok b₀ ∧ OnTorus 2 2 (b₀.grown calls) ∧ (b₀.grown calls).graph.size = 2 ∧
      (b₀.grown calls).neighbour? ⟨3, 3⟩ 1 1 = some 0 ∧ (b₀.grown calls).graph.neighbour? 1 4 = some 0 :=
  ⟨rfl, grown_onTorus rfl _, by decide, by decide, by decide⟩

end IndexedBuilder

end QuantumMemory

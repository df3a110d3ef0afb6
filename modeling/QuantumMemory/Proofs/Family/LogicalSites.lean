/-
  QuantumMemory.Proofs.Family.LogicalSites — the logical qubits of a lattice that the user describes.

  The positions of the logical operator are looked up one by one, each as the data qubit that stands
  on its point of the lattice. Two positions give one qubit just if they are one point: the same
  on an open lattice, whole periods apart on a torus (`Boundary.SamePoint`). Data and checks are
  refused where a qubit stands already; positions of the operator are not. So the operator lists
  each qubit as often as its point is listed, and its observable each outcome.

  - `make_logical`: what the operator lists, and with it the observable of every memory.
  - `repeated_position_admitted`: that a qubit may be listed twice.
-/

import QuantumMemory.Proofs.Family.Construction
import QuantumMemory.Proofs.Graph.Torus
import QuantumMemory.Proofs.Memory.Observable

namespace QuantumMemory

namespace Boundary

/-- The coordinates are one point of the lattice. -/
def SamePoint : Boundary → Coordinate → Coordinate → Prop
  | «open», c, c' => c = c'
  | toroidal width height, c, c' => c.Congruent width height c'

instance (boundary : Boundary) (c c' : Coordinate) : Decidable (boundary.SamePoint c c') :=
  match boundary with
  | «open» => inferInstanceAs (Decidable (c = c'))
  | toroidal width height => inferInstanceAs (Decidable (c.Congruent width height c'))

/-- Where a builder takes the boundary, one coordinate is kept of each point. -/
theorem samePoint_iff {boundary : Boundary} {b : LatticeBuilder} (h : LatticeBuilder.start boundary = .ok b)
    {c c' : Coordinate} : boundary.SamePoint c c' ↔ boundary.wrap? c = boundary.wrap? c' := by
  cases boundary with
  | «open» => exact Option.some_inj.symm
  | toroidal width height => exact (periods_of_start h).wrap?_eq_iff.symm

end Boundary

namespace LatticeSpec

variable {s : LatticeSpec} {g : Graph} {c c' : Coordinate} {q : Qubit}

/-- The qubit that stands on the point. -/
def standing? (s : LatticeSpec) (g : Graph) (c : Coordinate) : Option Qubit := (s.boundary.wrap? c).bind g.find?

theorem standing_of_dataAt (h : s.dataAt g c = .ok q) : s.standing? g c = some q := by
  unfold dataAt at h
  split at h
  · rename_i q' hfound
    split at h
    · cases h
      exact hfound
    · cases h
  · cases h

/-- A qubit stands on one point. -/
theorem standing_iff (hc : s.standing? g c = some q) :
    s.standing? g c' = some q ↔ s.boundary.wrap? c = s.boundary.wrap? c' := by
  refine ⟨fun hc' => ?_, fun hwrap => by rw [standing?, ← hwrap, ← standing?, hc]⟩
  obtain ⟨site, hsite, hfind⟩ := Option.bind_eq_some_iff.mp hc
  obtain ⟨site', hsite', hfind'⟩ := Option.bind_eq_some_iff.mp hc'
  obtain ⟨n, hn, hat⟩ := Graph.find?_some hfind
  obtain ⟨n', hn', hat'⟩ := Graph.find?_some hfind'
  obtain rfl := Option.some.inj (hn.symm.trans hn')
  rw [hsite, hsite', ← hat, ← hat']

/-- The logical qubits of a code by the positions that are listed for them. -/
structure Places (s : LatticeSpec) (code : PlacedCode) : Prop where
  nonempty : code.logical ≠ []
  data : ∀ q ∈ code.logical, q ∈ code.graph.dataQubits
  /-- Every position gives the qubit that stands there, in the order of the list. -/
  standing : s.logical.map (s.standing? code.graph) = code.logical.map some
  /-- A qubit is listed as often as its point. -/
  count : ∀ c q, s.standing? code.graph c = some q → code.logical.count q = s.logical.countP (s.boundary.SamePoint c ·)
  nodup_iff : code.logical.Nodup ↔ s.logical.Pairwise fun c c' => ¬s.boundary.SamePoint c c'

theorem start_of_graph (h : s.graph = .ok g) : ∃ b, LatticeBuilder.start s.boundary = .ok b := by
  obtain ⟨step2, -, h⟩ := exists_of_bind h
  obtain ⟨b, hstart, -⟩ := exists_of_bind h
  exact ⟨b, hstart⟩

theorem places {params : CodeParams} {code : PlacedCode} (h : s.make params = .ok code) : s.Places code := by
  have hdata := (make_consistent h).logical
  obtain ⟨⟨⟩, -, h⟩ := exists_of_bind h
  obtain ⟨g, hg, h⟩ := exists_of_bind h
  obtain ⟨l, -, h⟩ := exists_of_bind h
  obtain ⟨logical, hlogical, h⟩ := exists_of_bind h
  by_cases hempty : logical.isEmpty = true
  · rw [if_pos hempty] at h
    cases h
  rw [if_neg hempty] at h
  cases h
  obtain ⟨b, hstart⟩ := start_of_graph hg
  have hstanding : s.logical.map (s.standing? g) = logical.map some := by
    rw [← List.forall₂_eq_eq_eq, List.forall₂_map_left_iff, List.forall₂_map_right_iff]
    exact (mapM_each hlogical).imp fun _ _ => standing_of_dataAt
  have hsame : ∀ {c c' q}, s.standing? g c = some q → (s.standing? g c' = some q ↔ s.boundary.SamePoint c c') :=
    fun hc => (standing_iff hc).trans (Boundary.samePoint_iff hstart).symm
  constructor
  case nonempty => exact fun he => hempty (List.isEmpty_iff.mpr he)
  case data => exact hdata
  case standing => exact hstanding
  case count =>
    intro c q hc
    calc logical.count q = (logical.map some).count (some q) := by
          rw [List.count_map_of_injective _ _ (Option.some_injective _)]
      _ = (s.logical.map (s.standing? g)).count (some q) := by rw [hstanding]
      _ = s.logical.countP (s.boundary.SamePoint c ·) := by
          rw [List.count, List.countP_map]
          refine List.countP_congr fun c' _ => ?_
          simp [hsame hc]
  case nodup_iff =>
    calc logical.Nodup ↔ (s.logical.map (s.standing? g)).Nodup := by
          rw [hstanding, List.nodup_map_iff (Option.some_injective _)]
      _ ↔ s.logical.Pairwise fun c c' => s.standing? g c ≠ s.standing? g c' := List.pairwise_map
      _ ↔ s.logical.Pairwise fun c c' => ¬s.boundary.SamePoint c c' := by
          refine List.Pairwise.iff_of_mem fun {c c'} hc _ => not_congr ?_
          obtain ⟨q, -, hq⟩ := List.mem_map.mp (hstanding ▸ List.mem_map_of_mem hc)
          rw [← hsame hq.symm, ← hq, eq_comm]

/-- The logical operator of a code that is made from a lattice lists the qubits on the listed
    points, as often as these are listed, and the one observable of its memory the outcomes of those
    qubits. Below 2^30 qubits there is such a memory for every number of rounds. -/
theorem make_logical {params : CodeParams} {code : PlacedCode} (h : s.make params = .ok code) :
    s.Places code ∧ ∀ rounds, 1 ≤ rounds →
      (code.graph.size < 2 ^ 30 → ∃ e, (Code.placed code).buildMemory rounds = .ok e) ∧
      ∀ e, (Code.placed code).buildMemory rounds = .ok e → ∃ refs, e.circuit.observables = [(0, refs)] ∧
        e.ledger.read refs = code.logical.map (fun q => some (q, rounds)) ∧
        (refs.Nodup ↔ s.logical.Pairwise fun c c' => ¬s.boundary.SamePoint c c') := by
  have hplaces := places h
  refine ⟨hplaces, fun rounds hpos => ⟨fun hsize => ⟨_, (make_consistent h).buildMemory_eq hsize hpos⟩, fun e he => ?_⟩⟩
  obtain ⟨refs, hobservables, hread, hnodup⟩ := Layout.buildMemory_observables hplaces.nonempty he
  exact ⟨refs, hobservables, hread, hnodup.trans hplaces.nodup_iff⟩

/-- A torus of two by two with a check between two data qubits. The operator lists the second and
    the first, and both again from across the seams. -/
def seam : LatticeSpec where
  name := "seam"
  data := [⟨0, 0⟩, ⟨2, 2⟩]
  checks := [⟨.z, ⟨1, 1⟩, none⟩]
  bases := [.z, .x]
  xDirections := [0, 1, 2, 3]
  zDirections := [0, 1, 2, 3]
  step := .ofRatio false 1 2
  boundary := .toroidal 2 2
  logical := [⟨2, 2⟩, ⟨0, 0⟩, ⟨-2, 6⟩, ⟨4, -4⟩]
  policy := .skip

/-- What is made of `seam`. -/
theorem make_seam :
    ∃ code, seam.make ⟨2, .one, .one⟩ = .ok code ∧ code.logical = [1, 0, 1, 0] ∧ code.graph.size = 3 := by
  have hmade : (seam.make ⟨2, .one, .one⟩).toOption.map (fun code => (code.logical, code.graph.size)) =
      some ([1, 0, 1, 0], 3) := by decide +kernel
  cases hcode : seam.make ⟨2, .one, .one⟩ with
  | error e =>
    rw [hcode] at hmade
    cases hmade
  | ok code =>
    rw [hcode] at hmade
    exact ⟨code, rfl, Prod.mk.inj (Option.some.inj hmade)⟩

theorem make_logical_seam : ∃ code, seam.make ⟨2, .one, .one⟩ = .ok code ∧ code.logical = [1, 0, 1, 0] ∧
    seam.Places code ∧ ∃ e, (Code.placed code).buildMemory 2 = .ok e ∧ ∃ refs, e.circuit.observables = [(0, refs)] ∧
      e.ledger.read refs = [some (1, 2), some (0, 2), some (1, 2), some (0, 2)] ∧ ¬refs.Nodup := by
  obtain ⟨code, hcode, hlogical, hsize⟩ := make_seam
  obtain ⟨hplaces, hmemory⟩ := make_logical hcode
  obtain ⟨hbuilds, hobservables⟩ := hmemory 2 (by decide)
  obtain ⟨e, he⟩ := hbuilds (hsize.trans_lt (by decide))
  obtain ⟨refs, hrefs, hread, hnodup⟩ := hobservables e he
  refine ⟨code, hcode, hlogical, hplaces, e, he, refs, hrefs, ?_, fun h => absurd (hnodup.mp h) (by decide)⟩
  rw [hread, hlogical]
  rfl

/-- Not every code that is made from a lattice has an operator without repetitions, and not every
    memory of one an observable without. -/
theorem repeated_position_admitted :
    (¬∀ params (s : LatticeSpec) code, s.make params = .ok code → code.logical.Nodup) ∧
      ¬∀ params (s : LatticeSpec) code rounds e, s.make params = .ok code → 1 ≤ rounds →
        (Code.placed code).buildMemory rounds = .ok e → ∀ o ∈ e.circuit.observables, o.2.Nodup := by
  obtain ⟨code, hcode, hlogical, hsize⟩ := make_seam
  have hrepeated : ¬code.logical.Nodup := by
    rw [hlogical]
    decide
  refine ⟨fun hall => hrepeated (hall _ _ _ hcode), fun hall => hrepeated ?_⟩
  have he := (make_consistent hcode).buildMemory_eq (hsize.trans_lt (by decide)) (Nat.le_refl 1)
  obtain ⟨refs, hrefs, -, hnodup⟩ := Layout.buildMemory_observables (places hcode).nonempty he
  exact hnodup.mp (hall _ _ _ _ _ hcode (Nat.le_refl 1) he _ (hrefs ▸ List.mem_singleton_self _))

end LatticeSpec

end QuantumMemory

/-
  QuantumMemory.Proofs.Graph.Diagonals — joining a check to its diagonal neighbours.

  What a permutation asks for is a plan, made before anything is written: for each position the
  data qubit its direction lands on (`Lands`, `mem_plan`). Joining goes through the plan from
  the front and stops where an interaction is not allowed (`perform_connectNext_foldlM`); what
  is joined is always a front part of the plan (`withPlan`). On a check that has no edges yet the
  orders of the plan ascend, so only a data qubit that comes twice can stop it
  (`perform_plan`).

  Main result: `grown_joinsDiagonals`, for builders after any calls, refused ones among them.
-/

import Mathlib.Data.List.Perm.Subperm
import QuantumMemory.Proofs.Graph.Torus

namespace QuantumMemory

theorem isPermutation_iff {directions : List Nat} : isPermutation directions = true ↔ directions.Perm [0, 1, 2, 3] := by
  rw [isPermutation, Bool.and_eq_true, beq_iff_eq, List.all_eq_true]
  constructor
  · intro hboth
    obtain ⟨hlength, hall⟩ := hboth
    have hsub : [0, 1, 2, 3] ⊆ directions := fun d hd => List.contains_iff_mem.mp (hall d hd)
    have hsubperm := List.subperm_of_subset (by decide) hsub
    exact (hsubperm.perm_of_length_le (Nat.le_of_eq hlength)).symm
  · intro hperm
    exact ⟨hperm.length_eq, fun d hd => List.contains_iff_mem.mpr (hperm.mem_iff.mpr hd)⟩

theorem validatePermutation_cases (directions : List Nat) :
    (directions.Perm [0, 1, 2, 3] ∧ validatePermutation directions = .ok ()) ∨
      ¬directions.Perm [0, 1, 2, 3] ∧ validatePermutation directions = .error (.invalidLattice (.permutation directions)) := by
  rw [← isPermutation_iff, validatePermutation]
  by_cases h : isPermutation directions = true
  · rw [if_pos h]
    exact .inl ⟨h, rfl⟩
  · rw [if_neg h]
    exact .inr ⟨h, rfl⟩

/-- Where no order comes again it is the data that does. -/
theorem Graph.clash?_duplicate {check : Qubit} (link : Link) {links : List Link}
    (horders : ∀ l ∈ links, l.order ≠ link.order) {e : CodeError} (h : clash? check link links = some e) :
    (∃ l ∈ links, l.data = link.data) ∧ e = .duplicateEdge check link.data := by
  obtain ⟨l, hl, he⟩ := List.exists_of_findSome?_eq_some h
  by_cases hdata : l.data = link.data
  · rw [if_pos hdata] at he
    exact ⟨⟨l, hl, hdata⟩, (Option.some.inj he).symm⟩
  · rw [if_neg hdata, if_neg (horders l hl)] at he
    cases he

namespace IndexedGraph

variable {g : IndexedGraph}

/-- A qubit stands in one place. -/
theorem StandsOn.unique {q : Qubit} {c c' : Coordinate} (h : g.StandsOn q c) (h' : g.StandsOn q c') : c = c' := by
  obtain ⟨n, hn, hc⟩ := h
  obtain ⟨n', hn', hc'⟩ := h'
  rw [hn] at hn'
  obtain rfl := Option.some.inj hn'
  rw [hc] at hc'
  exact Option.some.inj hc'

theorem Agrees.standsOn_inj (h : g.Agrees) {q q' : Qubit} {c : Coordinate} (hq : g.StandsOn q c) (hq' : g.StandsOn q' c) :
    q = q' := by
  have hi := (h.indexed c q).mpr hq
  rw [(h.indexed c q').mpr hq'] at hi
  exact (Option.some.inj hi).symm

/-- Between a check and a data qubit it is a link of the check that an interaction repeats. -/
theorem clash?_of_refused {check data : Qubit} {basis : CheckBasis} {order : Nat} {e : CodeError}
    (hcheck : g.role? check = some (.check basis)) (hdata : g.role? data = some .data) (hpos : 0 < order)
    (h : g.allow check data order = .error e) : Graph.clash? check ⟨order, data⟩ (g.links check) = some e := by
  unfold allow at h
  simp only [hcheck, hdata, Role.isData, Bool.not_true, Bool.false_eq_true, if_false, if_neg (Nat.ne_of_gt hpos)] at h
  cases hc : Graph.clash? check ⟨order, data⟩ (g.links check) with
  | some e' =>
    rw [hc] at h
    exact congrArg some (Except.error.inj h)
  | none =>
    rw [hc] at h
    cases h

/-- The interaction between a check and a data qubit. -/
def jointOf (check : Qubit) (p : Nat × Qubit) : Joint := ⟨check, p.2, p.1⟩

/-- The graph with interactions of one check added. -/
def withPlan (g : IndexedGraph) (check : Qubit) (plan : List (Nat × Qubit)) : IndexedGraph :=
  { g with joints := g.joints ++ plan.map (jointOf check) }

theorem withPlan_cons (g : IndexedGraph) (check : Qubit) (p : Nat × Qubit) (plan : List (Nat × Qubit)) :
    (g.withJoint (jointOf check p)).withPlan check plan = g.withPlan check (p :: plan) := by
  simp [withPlan, withJoint]

theorem edges_withPlan {check : Qubit} {plan : List (Nat × Qubit)} (h : g.Agrees) (h' : (g.withPlan check plan).Agrees) :
    (g.withPlan check plan).edges.Perm (g.edges ++ plan.map fun p => (jointOf check p).edge) := by
  refine h'.edges_perm.trans ?_
  show ((g.joints ++ plan.map (jointOf check)).map Joint.edge).Perm _
  rw [List.map_append, List.map_map]
  exact h.edges_perm.symm.append_right _

end IndexedGraph

namespace IndexedBuilder

open IndexedGraph

variable {b : IndexedBuilder} {g : IndexedGraph} {check : Qubit}

/-! ## Going through a plan -/

/-- Either all that is asked for is joined, or what comes before the first that is not allowed. -/
theorem perform_connectNext_foldlM (h : g.Agrees) (check : Qubit) (neighbours : List (Option Qubit)) (entries : List (Nat × Nat))
    (count : Nat) {plan : List (Nat × Qubit)} (hplan : entries.filterMap (asked? g neighbours) = plan) :
    g.perform (entries.foldlM (connectNext check neighbours) count) = (.ok (count + plan.length), g.withPlan check plan) ∨
      ∃ before p after e, plan = before ++ p :: after ∧ (g.withPlan check before).allow check p.2 p.1 = .error e ∧
        g.perform (entries.foldlM (connectNext check neighbours) count) = (.error e, g.withPlan check before) := by
  induction entries generalizing g count plan with
  | nil =>
    subst hplan
    refine .inl ?_
    show (Except.ok count, g) = (Except.ok (count + 0), { g with joints := g.joints ++ [] })
    rw [Nat.add_zero, List.append_nil]
  | cons next rest ih =>
    rw [List.foldlM_cons, perform_bind_eq, perform_connectNext]
    cases hasked : asked? g neighbours next with
    | none =>
      rw [List.filterMap_cons_none hasked] at hplan
      exact ih h count hplan
    | some p =>
      rw [List.filterMap_cons_some hasked] at hplan
      subst hplan
      rcases perform_addInteraction_cases g check p.2 p.1 with ⟨-, hdone⟩ | ⟨e, hrefused, hdone⟩
      · have hrejoined : Rejoined g (g.withJoint (jointOf check p)) := by
          have hkept := h.addInteraction check p.2 p.1
          rwa [hdone] at hkept
        dsimp only
        rw [hdone]
        have hrest : rest.filterMap (asked? (g.withJoint (jointOf check p)) neighbours) =
            rest.filterMap (asked? g neighbours) := by rw [asked?_congr hrejoined]
        rcases ih hrejoined.agrees (count + 1) hrest with hall | ⟨before, q, after, e, hsplit, hnot, hstopped⟩
        · refine .inl (hall.trans ?_)
          rw [withPlan_cons, List.length_cons, Nat.add_assoc, Nat.add_comm 1]
        · rw [withPlan_cons] at hnot hstopped
          exact .inr ⟨p :: before, q, after, e, congrArg (p :: ·) hsplit, hnot, hstopped⟩
      · have hnone : g.withPlan check [] = g := by simp [withPlan]
        refine .inr ⟨[], p, _, e, rfl, by rwa [hnone], ?_⟩
        dsimp only
        rw [hdone, hnone]

/-- What a run leaves is in agreement, however far it came. -/
theorem withPlan_agrees (h : g.Agrees) (neighbours : List (Option Qubit)) (entries : List (Nat × Nat)) (count : Nat)
    {plan : List (Nat × Qubit)} {result : Except CodeError Nat}
    (hdone : g.perform (entries.foldlM (connectNext check neighbours) count) = (result, g.withPlan check plan)) :
    (g.withPlan check plan).Agrees := by
  have hrejoined : Rejoined g (g.perform (entries.foldlM (connectNext check neighbours) count)).2 := by
    refine perform_foldlM_keeps (P := Rejoined g) (fun g₁ n next hg₁ => ?_) _ _ (.refl h)
    exact hg₁.trans (connectNext_rejoins hg₁.agrees check _ n next)
  rw [hdone] at hrejoined
  exact hrejoined.agrees

/-- A plan of ascending orders for a check without edges. -/
structure Fresh (g : IndexedGraph) (check : Qubit) (plan : List (Nat × Qubit)) : Prop where
  isCheck : ∃ basis, g.role? check = some (.check basis)
  bare : ∀ e ∈ g.edges, e.check ≠ check
  ascend : plan.Pairwise (·.1 < ·.1)
  sound : ∀ p ∈ plan, 0 < p.1 ∧ g.role? p.2 = some .data

theorem mem_links_withPlan (h : g.Agrees) {before : List (Nat × Qubit)} (hagrees : (g.withPlan check before).Agrees)
    (hcheck : g.role? check ≠ some .data) (hbare : ∀ e ∈ g.edges, e.check ≠ check) {l : Link}
    (hl : l ∈ (g.withPlan check before).links check) : (l.order, l.data) ∈ before := by
  obtain ⟨j, hj, hedge⟩ := hagrees.mem_edges.mp ((hagrees.mem_links hcheck).mp hl)
  rcases List.mem_append.mp hj with hold | hnew
  · have hmem : j.edge ∈ g.edges := h.mem_edges.mpr ⟨j, hold, rfl⟩
    exact absurd (congrArg Edge.check hedge) (hbare _ hmem)
  · obtain ⟨p, hp, rfl⟩ := List.mem_map.mp hnew
    obtain ⟨-, hdata, horder⟩ := Edge.mk.inj hedge
    rw [← hdata, ← horder]
    exact hp

/-- On a check without edges a plan fails just if a data qubit comes twice, and that is what is
    said. -/
theorem perform_plan (h : g.Agrees) (neighbours : List (Option Qubit)) (entries : List (Nat × Nat))
    {plan : List (Nat × Qubit)} (hplan : entries.filterMap (asked? g neighbours) = plan) (hf : Fresh g check plan) :
    ((plan.map Prod.snd).Nodup ∧
        (g.perform (entries.foldlM (connectNext check neighbours) 0)).1 = .ok plan.length) ∨
      ∃ p ∈ plan, ∃ p' ∈ plan, p.1 < p'.1 ∧ p.2 = p'.2 ∧
        (g.perform (entries.foldlM (connectNext check neighbours) 0)).1 = .error (.duplicateEdge check p.2) := by
  obtain ⟨basis, hbasis⟩ := hf.isCheck
  have hcheck : g.role? check ≠ some .data := not_data_of_check hbasis
  rcases perform_connectNext_foldlM h check neighbours entries 0 hplan with hall | ⟨before, p, after, e, rfl, hnot, hstopped⟩
  · refine .inl ⟨?_, by rw [hall, Nat.zero_add]⟩
    have hagrees := withPlan_agrees h neighbours entries 0 hall
    have hapart : ((g.joints ++ plan.map (jointOf check)).map Joint.edge).Pairwise Edge.Apart := hagrees.apart
    rw [List.map_append, List.map_map] at hapart
    have hnew := List.pairwise_map.mp (List.pairwise_append.mp hapart).2.1
    exact List.pairwise_map.mpr (hnew.imp fun hap => (hap rfl).1)
  · refine .inr ?_
    have hagrees := withPlan_agrees h neighbours entries 0 hstopped
    have hlinks := fun l => @mem_links_withPlan g check h before hagrees hcheck hf.bare l
    have hlater : ∀ q ∈ before, q.1 < p.1 := fun q hq =>
      (List.pairwise_append.mp hf.ascend).2.2 q hq p List.mem_cons_self
    obtain ⟨hpos, hdata⟩ := hf.sound p (List.mem_append_right _ List.mem_cons_self)
    have hclash := clash?_of_refused (g := g.withPlan check before) hbasis hdata hpos hnot
    have horders : ∀ l ∈ (g.withPlan check before).links check, l.order ≠ p.1 := fun l hl =>
      Nat.ne_of_lt (hlater _ (hlinks l hl))
    obtain ⟨⟨l, hl, hsame⟩, rfl⟩ := Graph.clash?_duplicate ⟨p.1, p.2⟩ horders hclash
    refine ⟨_, List.mem_append_left _ (hlinks l hl), p, List.mem_append_right _ List.mem_cons_self, hlater _ (hlinks l hl),
      hsame, ?_⟩
    rw [hstopped]
    exact congrArg (fun q => Except.error (CodeError.duplicateEdge check q)) hsame.symm

/-! ## What a direction lands on -/

/-- A direction, its signs scaled by the step, leads from the check to a point that the boundary
    keeps at the site of the data qubit. Neither the shift nor the point leaves the range. -/
def Lands (b : IndexedBuilder) (check : Qubit) (step2 : Int) (direction : Nat) (data : Qubit) : Prop :=
  ∃ c sign site, b.graph.StandsOn check c ∧ diagonals[direction]? = some sign ∧
    (Coordinate.inRange (sign.1 * step2) = true ∧ Coordinate.inRange (sign.2 * step2) = true) ∧
    (Coordinate.inRange (c.x2 + sign.1 * step2) = true ∧ Coordinate.inRange (c.y2 + sign.2 * step2) = true) ∧
    b.boundary.wrap? ⟨c.x2 + sign.1 * step2, c.y2 + sign.2 * step2⟩ = some site ∧
    b.graph.StandsOn data site ∧ b.graph.role? data = some .data

theorem neighbour?_iff (h : b.graph.Agrees) {c : Coordinate} {dx2 dy2 : Int} {q : Qubit} :
    b.neighbour? c dx2 dy2 = some q ↔
      (Coordinate.inRange (c.x2 + dx2) = true ∧ Coordinate.inRange (c.y2 + dy2) = true) ∧
        ∃ site, b.boundary.wrap? ⟨c.x2 + dx2, c.y2 + dy2⟩ = some site ∧ b.graph.StandsOn q site := by
  unfold neighbour? Coordinate.shift?
  by_cases hrange : Coordinate.inRange (c.x2 + dx2) = true ∧ Coordinate.inRange (c.y2 + dy2) = true
  · rw [if_pos (Bool.and_eq_true_iff.mpr hrange), and_iff_right hrange]
    simp only [Option.bind_eq_bind, Option.bind_some, Option.bind_eq_some_iff]
    exact exists_congr fun site => and_congr_right fun _ => h.indexed site q
  · rw [if_neg (mt Bool.and_eq_true_iff.mp hrange)]
    exact iff_of_false (fun hsome => by cases hsome) fun hboth => hrange hboth.1

theorem diagonalNeighbours_iff {c : Coordinate} {step2 : Int} {direction : Nat} {q : Qubit} :
    (b.diagonalNeighbours c step2)[direction]? = some (some q) ↔
      ∃ sign, diagonals[direction]? = some sign ∧
        (Coordinate.inRange (sign.1 * step2) = true ∧ Coordinate.inRange (sign.2 * step2) = true) ∧
        b.neighbour? c (sign.1 * step2) (sign.2 * step2) = some q := by
  rw [diagonalNeighbours, List.getElem?_map, Option.map_eq_some_iff]
  refine exists_congr fun sign => and_congr_right fun _ => ?_
  obtain ⟨sx, sy⟩ := sign
  dsimp only
  by_cases hrange : Coordinate.inRange (sx * step2) = true ∧ Coordinate.inRange (sy * step2) = true
  · rw [if_pos (Bool.and_eq_true_iff.mpr hrange), and_iff_right hrange]
  · rw [if_neg (mt Bool.and_eq_true_iff.mp hrange)]
    exact iff_of_false (fun hsome => by cases hsome) fun hboth => hrange hboth.1

/-- At a position the data qubit is asked for that its direction lands on. -/
theorem asked?_iff (h : b.graph.Agrees) {c : Coordinate} (hc : b.graph.StandsOn check c) {step2 : Int}
    {next : Nat × Nat} {p : Nat × Qubit} :
    asked? b.graph (b.diagonalNeighbours c step2) next = some p ↔ p.1 = next.2 + 1 ∧ b.Lands check step2 next.1 p.2 := by
  have hlands : ∀ q, b.Lands check step2 next.1 q ↔
      (b.diagonalNeighbours c step2)[next.1]? = some (some q) ∧ b.graph.role? q = some .data := by
    intro q
    rw [diagonalNeighbours_iff]
    constructor
    · intro hdirection
      obtain ⟨c', sign, site, hc', hsign, hshift, hpoint, hwrap, hsite, hdata⟩ := hdirection
      obtain rfl := hc.unique hc'
      exact ⟨⟨sign, hsign, hshift, (neighbour?_iff h).mpr ⟨hpoint, site, hwrap, hsite⟩⟩, hdata⟩
    · intro hneighbour
      obtain ⟨⟨sign, hsign, hshift, hneighbour⟩, hdata⟩ := hneighbour
      obtain ⟨hpoint, site, hwrap, hsite⟩ := (neighbour?_iff h).mp hneighbour
      exact ⟨c, sign, site, hc, hsign, hshift, hpoint, hwrap, hsite, hdata⟩
  rw [hlands, asked?]
  rcases (b.diagonalNeighbours c step2)[next.1]? with _ | _ | data
  · simp
  · simp
  · simp only [beq_iff_eq, Option.some.injEq]
    by_cases hdata : b.graph.role? data = some .data
    · rw [if_pos hdata, Option.some.injEq]
      constructor
      · intro hsame
        subst hsame
        exact ⟨rfl, rfl, hdata⟩
      · intro hplanned
        obtain ⟨horder, rfl, -⟩ := hplanned
        exact Prod.ext horder.symm rfl
    · rw [if_neg hdata]
      refine iff_of_false (fun hsome => by cases hsome) ?_
      intro hplanned
      obtain ⟨-, rfl, hrole⟩ := hplanned
      exact hdata hrole

/-- What a check in its place is to be joined to, by ascending order. -/
def planAt (b : IndexedBuilder) (c : Coordinate) (directions : List Nat) (step2 : Int) : List (Nat × Qubit) :=
  directions.zipIdx.filterMap (asked? b.graph (b.diagonalNeighbours c step2))

section Plan

variable (h : b.graph.Agrees) {c : Coordinate} (hc : b.graph.StandsOn check c)

include h hc

theorem mem_plan {directions : List Nat} {step2 : Int} {p : Nat × Qubit} :
    p ∈ b.planAt c directions step2 ↔
      ∃ k direction, directions[k]? = some direction ∧ b.Lands check step2 direction p.2 ∧ p.1 = k + 1 := by
  rw [planAt, List.mem_filterMap]
  constructor
  · intro hentry
    obtain ⟨⟨direction, k⟩, hmem, hasked⟩ := hentry
    obtain ⟨horder, hlands⟩ := (asked?_iff h hc).mp hasked
    exact ⟨k, direction, List.mk_mem_zipIdx_iff_getElem?.mp hmem, hlands, horder⟩
  · intro hplanned
    obtain ⟨k, direction, hk, hlands, horder⟩ := hplanned
    exact ⟨(direction, k), List.mk_mem_zipIdx_iff_getElem?.mpr hk, (asked?_iff h hc).mpr ⟨horder, hlands⟩⟩

theorem plan_ascend (directions : List Nat) (step2 : Int) : (b.planAt c directions step2).Pairwise (·.1 < ·.1) := by
  have hpositions : directions.zipIdx.Pairwise fun a a' => a.2 < a'.2 := by
    have hrange := List.zipIdx_map_snd 0 directions
    exact List.pairwise_map.mp (hrange ▸ List.pairwise_lt_range')
  refine List.pairwise_filterMap.mpr (hpositions.imp fun hlt p hp p' hp' => ?_)
  rw [((asked?_iff h hc).mp hp).1, ((asked?_iff h hc).mp hp').1]
  exact Nat.succ_lt_succ hlt

theorem plan_edges_nodup (directions : List Nat) (step2 : Int) :
    ((b.planAt c directions step2).map fun p => (jointOf check p).edge).Nodup := by
  refine List.pairwise_map.mpr ((plan_ascend h hc directions step2).imp fun hlt heq => ?_)
  exact Nat.ne_of_lt hlt (Edge.mk.inj heq).2.2

theorem mem_plan_edges {directions : List Nat} {step2 : Int} {e : Edge} :
    e ∈ (b.planAt c directions step2).map (fun p => (jointOf check p).edge) ↔
      e.check = check ∧
        ∃ k direction, directions[k]? = some direction ∧ b.Lands check step2 direction e.data ∧ e.order = k + 1 := by
  rw [List.mem_map]
  constructor
  · intro hadded
    obtain ⟨p, hp, rfl⟩ := hadded
    exact ⟨rfl, (mem_plan h hc).mp hp⟩
  · intro hplanned
    obtain ⟨rfl, hplanned⟩ := hplanned
    exact ⟨(e.order, e.data), (mem_plan h hc).mpr hplanned, rfl⟩

end Plan

/-- Two directions land on the data qubit. -/
def LandsTwice (b : IndexedBuilder) (check : Qubit) (step2 : Int) (data : Qubit) : Prop :=
  ∃ d d', d ≠ d' ∧ b.Lands check step2 d data ∧ b.Lands check step2 d' data

/-- Without a seam different directions part, unless the step is nothing and all of them stay on
    the check. -/
theorem not_landsTwice_open (h : b.graph.Agrees) (hb : b.boundary = .open) (hcheck : b.graph.role? check ≠ some .data)
    (step2 : Int) (data : Qubit) : ¬b.LandsTwice check step2 data := by
  intro htwice
  obtain ⟨d, d', hne, ⟨c, sign, site, hc, hsign, -, -, hwrap, hsite, hdata⟩,
    c', sign', site', hc', hsign', -, -, hwrap', hsite', -⟩ := htwice
  obtain rfl := hc.unique hc'
  obtain rfl := hsite.unique hsite'
  rw [hb] at hwrap hwrap'
  have hpoint := Option.some.inj (hwrap.trans hwrap'.symm)
  obtain ⟨hx, hy⟩ := Coordinate.mk.inj hpoint
  by_cases hstep : step2 = 0
  · have hstay : c = site := by
      rw [← Option.some.inj hwrap, hstep, Int.mul_zero, Int.mul_zero, Int.add_zero, Int.add_zero]
    have hsame := h.standsOn_inj hc (hstay ▸ hsite)
    exact hcheck (hsame ▸ hdata)
  · have hsigns : sign = sign' := Prod.ext (Int.eq_of_mul_eq_mul_right hstep (Int.add_left_cancel hx))
      (Int.eq_of_mul_eq_mul_right hstep (Int.add_left_cancel hy))
    have hlt : d < diagonals.length := (List.getElem?_eq_some_iff.mp hsign).1
    exact hne ((List.getElem?_inj hlt (by decide)).mp (hsign.trans (hsigns ▸ hsign'.symm)))

theorem plan_twice_iff (h : b.graph.Agrees) {c : Coordinate} (hc : b.graph.StandsOn check c) {directions : List Nat}
    (hperm : directions.Perm [0, 1, 2, 3]) (step2 : Int) (data : Qubit) :
    b.LandsTwice check step2 data ↔
      ∃ p ∈ b.planAt c directions step2, ∃ p' ∈ b.planAt c directions step2, p.1 ≠ p'.1 ∧ p.2 = data ∧ p'.2 = data := by
  have hposition : ∀ {d : Nat}, b.Lands check step2 d data → ∃ k : Nat, directions[k]? = some d := by
    intro d hlands
    obtain ⟨-, sign, -, -, hsign, -⟩ := hlands
    have hlt : d < 4 := (List.getElem?_eq_some_iff.mp hsign).1
    have hmem : d ∈ [0, 1, 2, 3] := by simp; omega
    exact List.mem_iff_getElem?.mp (hperm.mem_iff.mpr hmem)
  constructor
  · intro htwice
    obtain ⟨d, d', hne, hlands, hlands'⟩ := htwice
    obtain ⟨k, hk⟩ := hposition hlands
    obtain ⟨k', hk'⟩ := hposition hlands'
    refine ⟨(k + 1, data), (mem_plan h hc).mpr ⟨k, d, hk, hlands, rfl⟩, (k' + 1, data),
      (mem_plan h hc).mpr ⟨k', d', hk', hlands', rfl⟩, fun horder => hne ?_, rfl, rfl⟩
    rw [Nat.succ.inj horder, hk'] at hk
    exact (Option.some.inj hk).symm
  · intro hplanned
    obtain ⟨p, hp, p', hp', hne, rfl, hsame⟩ := hplanned
    obtain ⟨k, d, hk, hlands, horder⟩ := (mem_plan h hc).mp hp
    obtain ⟨k', d', hk', hlands', horder'⟩ := (mem_plan h hc).mp hp'
    refine ⟨d, d', ?_, hlands, hsame ▸ hlands'⟩
    intro hd
    subst hd
    have hlt : k < directions.length := (List.getElem?_eq_some_iff.mp hk).1
    have hnodup : directions.Nodup := hperm.nodup_iff.mpr (by decide)
    rw [horder, horder', (List.getElem?_inj hlt hnodup).mp (hk.trans hk'.symm)] at hne
    exact hne rfl

/-! ## Joining -/

/-- What joining a check to its diagonals makes of a builder. -/
structure JoinsDiagonals (b : IndexedBuilder) (check : Qubit) (directions : List Nat) (step2 : Int)
    (result : Except CodeError Nat) (b' : IndexedBuilder) : Prop where
  /-- What is no permutation of the four directions is refused. -/
  misdirected : ¬directions.Perm [0, 1, 2, 3] → result = .error (.invalidLattice (.permutation directions)) ∧ b' = b
  unknown : directions.Perm [0, 1, 2, 3] → b.graph.node? check = none → result = .error (.unknownQubit check) ∧ b' = b
  /-- The edges added lead where the directions land, each at the order of its direction's
      position; qubits and earlier edges stay. -/
  joined : ∀ n, result = .ok n → b'.boundary = b.boundary ∧ b'.graph.entries = b.graph.entries ∧
    b'.graph.index = b.graph.index ∧
      ∃ added : List Edge, added.length = n ∧ added.Nodup ∧ b'.graph.edges.Perm (b.graph.edges ++ added) ∧
        ∀ e, e ∈ added ↔ e.check = check ∧
          ∃ k direction, directions[k]? = some direction ∧ b.Lands check step2 direction e.data ∧ e.order = k + 1
  /-- A check without edges cannot be joined if two directions land on one data qubit, and
      otherwise it can. -/
  fails_iff : directions.Perm [0, 1, 2, 3] → (∃ basis, b.graph.role? check = some (.check basis)) →
    (∀ e ∈ b.graph.edges, e.check ≠ check) → ((∃ e, result = .error e) ↔ ∃ data, b.LandsTwice check step2 data)
  fails_with : directions.Perm [0, 1, 2, 3] → (∃ basis, b.graph.role? check = some (.check basis)) →
    (∀ e ∈ b.graph.edges, e.check ≠ check) → ∀ e, result = .error e →
      ∃ data, b.LandsTwice check step2 data ∧ e = .duplicateEdge check data
  /-- Without a seam it always can. -/
  succeeds : directions.Perm [0, 1, 2, 3] → (∃ basis, b.graph.role? check = some (.check basis)) →
    (∀ e ∈ b.graph.edges, e.check ≠ check) → b.boundary = .open → ∃ n, result = .ok n

namespace Laid

variable (h : b.Laid)

include h

omit h in
theorem perform_eq {α : Type} {edit : Boundary → GraphEdit α} {result : Except CodeError α} {g : IndexedGraph}
    (hdone : b.graph.perform (edit b.boundary) = (result, g)) : b.perform edit = (result, { b with graph := g }) := by
  rw [perform, hdone]

/-- The check is known and its place, or the call is refused before anything is written. -/
theorem connectDiagonal_cases (check : Qubit) (directions : List Nat) (step2 : Int) :
    (¬directions.Perm [0, 1, 2, 3] ∧
        b.perform (connectDiagonal check directions step2) = (.error (.invalidLattice (.permutation directions)), b)) ∨
      (directions.Perm [0, 1, 2, 3] ∧ b.graph.node? check = none ∧
        b.perform (connectDiagonal check directions step2) = (.error (.unknownQubit check), b)) ∨
      directions.Perm [0, 1, 2, 3] ∧ ∃ c, b.graph.StandsOn check c ∧
        b.perform (connectDiagonal check directions step2) =
          b.perform fun _ => directions.zipIdx.foldlM (connectNext check (b.diagonalNeighbours c step2)) 0 := by
  simp only [perform, perform_connectDiagonal]
  rcases validatePermutation_cases directions with ⟨hperm, hvalid⟩ | ⟨hnot, hvalid⟩
  · rw [hvalid]
    cases hnode : b.graph.node? check with
    | none => exact .inr (.inl ⟨hperm, rfl, rfl⟩)
    | some entry =>
      obtain ⟨c, hc, -⟩ := h.placed entry (List.mem_of_getElem? hnode)
      refine .inr (.inr ⟨hperm, c, ⟨entry, hnode, hc⟩, ?_⟩)
      simp only [hc]
  · rw [hvalid]
    exact .inl ⟨hnot, rfl⟩

/-- What is planned for a check without edges can be looked at by itself. -/
theorem fresh_plan {c : Coordinate} (hc : b.graph.StandsOn check c) (hcheck : ∃ basis, b.graph.role? check = some (.check basis))
    (hbare : ∀ e ∈ b.graph.edges, e.check ≠ check) (directions : List Nat) (step2 : Int) :
    Fresh b.graph check (b.planAt c directions step2) := by
  refine ⟨hcheck, hbare, plan_ascend h.agrees hc directions step2, fun p hp => ?_⟩
  obtain ⟨k, direction, -, ⟨-, -, -, -, -, -, -, -, -, hdata⟩, horder⟩ := (mem_plan h.agrees hc).mp hp
  exact ⟨horder ▸ Nat.succ_pos k, hdata⟩

/-- A check without edges is joined unless two directions land on one data qubit. -/
theorem connectDiagonal_bare {directions : List Nat} (hperm : directions.Perm [0, 1, 2, 3])
    (hcheck : ∃ basis, b.graph.role? check = some (.check basis)) (hbare : ∀ e ∈ b.graph.edges, e.check ≠ check)
    (step2 : Int) :
    ((∀ data, ¬b.LandsTwice check step2 data) ∧ ∃ n, (b.perform (connectDiagonal check directions step2)).1 = .ok n) ∨
      ∃ data, b.LandsTwice check step2 data ∧
        (b.perform (connectDiagonal check directions step2)).1 = .error (.duplicateEdge check data) := by
  rcases h.connectDiagonal_cases check directions step2 with ⟨hnot, -⟩ | ⟨-, hnone, -⟩ | ⟨-, c, hc, hdone⟩
  · exact absurd hperm hnot
  · obtain ⟨basis, hbasis⟩ := hcheck
    rw [role?, hnone] at hbasis
    cases hbasis
  · rw [hdone]
    have htwice := fun data => plan_twice_iff h.agrees hc hperm step2 data
    rcases perform_plan h.agrees _ _ rfl (h.fresh_plan hc hcheck hbare directions step2) with
      ⟨hnodup, hok⟩ | ⟨p, hp, p', hp', hlt, hsame, herror⟩
    · refine .inl ⟨fun data hboth => ?_, _, hok⟩
      obtain ⟨p, hp, p', hp', hne, rfl, hsame⟩ := (htwice data).mp hboth
      exact hne (congrArg Prod.fst (List.inj_on_of_nodup_map hnodup hp hp' hsame.symm))
    · exact .inr ⟨p.2, (htwice p.2).mpr ⟨p, hp, p', hp', Nat.ne_of_lt hlt, rfl, hsame.symm⟩, herror⟩

theorem joinsDiagonals (check : Qubit) (directions : List Nat) (step2 : Int) :
    JoinsDiagonals b check directions step2 (b.perform (connectDiagonal check directions step2)).1
      (b.perform (connectDiagonal check directions step2)).2 := by
  constructor
  case misdirected =>
    intro hnot
    rcases h.connectDiagonal_cases check directions step2 with ⟨-, hdone⟩ | ⟨hperm, -⟩ | ⟨hperm, -⟩
    · rw [hdone]
      exact ⟨rfl, rfl⟩
    · exact absurd hperm hnot
    · exact absurd hperm hnot
  case unknown =>
    intro hperm hnone
    rcases h.connectDiagonal_cases check directions step2 with ⟨hnot, -⟩ | ⟨-, -, hdone⟩ | ⟨-, c, ⟨n, hn, -⟩, -⟩
    · exact absurd hperm hnot
    · rw [hdone]
      exact ⟨rfl, rfl⟩
    · rw [hnone] at hn
      cases hn
  case joined =>
    intro n hresult
    rcases h.connectDiagonal_cases check directions step2 with ⟨-, hdone⟩ | ⟨-, -, hdone⟩ | ⟨hperm, c, hc, hdone⟩
    · rw [hdone] at hresult
      cases hresult
    · rw [hdone] at hresult
      cases hresult
    · have hplan : directions.zipIdx.filterMap (asked? b.graph (b.diagonalNeighbours c step2)) =
          b.planAt c directions step2 := rfl
      rcases perform_connectNext_foldlM h.agrees check _ _ 0 hplan with hall | ⟨before, p, after, e, -, -, hstopped⟩
      · rw [hdone, perform_eq hall] at hresult ⊢
        obtain rfl := Except.ok.inj hresult
        refine ⟨rfl, rfl, rfl, (b.planAt c directions step2).map fun p => (jointOf check p).edge, ?_,
          plan_edges_nodup h.agrees hc directions step2, ?_, fun e => mem_plan_edges h.agrees hc⟩
        · rw [List.length_map, Nat.zero_add]
        · exact edges_withPlan h.agrees (withPlan_agrees h.agrees _ _ _ hall)
      · rw [hdone, perform_eq hstopped] at hresult
        cases hresult
  case fails_iff =>
    intro hperm hcheck hbare
    rcases h.connectDiagonal_bare hperm hcheck hbare step2 with ⟨hnone, n, hok⟩ | ⟨data, htwice, herror⟩
    · rw [hok]
      exact iff_of_false (fun ⟨e, he⟩ => by cases he) fun ⟨data, htwice⟩ => hnone data htwice
    · exact iff_of_true ⟨_, herror⟩ ⟨data, htwice⟩
  case fails_with =>
    intro hperm hcheck hbare e he
    rcases h.connectDiagonal_bare hperm hcheck hbare step2 with ⟨-, n, hok⟩ | ⟨data, htwice, herror⟩
    · rw [hok] at he
      cases he
    · rw [herror] at he
      exact ⟨data, htwice, (Except.error.inj he).symm⟩
  case succeeds =>
    intro hperm hcheck hbare hopen
    rcases h.connectDiagonal_bare hperm hcheck hbare step2 with ⟨-, hok⟩ | ⟨data, htwice, -⟩
    · exact hok
    · obtain ⟨basis, hbasis⟩ := hcheck
      exact absurd htwice (not_landsTwice_open h.agrees hopen (not_data_of_check hbasis) step2 data)

end Laid

/-- Whatever calls a builder has had, on the plane or on a torus, refused ones among them. -/
theorem grown_joinsDiagonals {boundary : Boundary} {b₀ : IndexedBuilder} (hstart : start boundary = .ok b₀)
    (calls : List PlacementCall) (check : Qubit) (directions : List Nat) (step2 : Int) :
    JoinsDiagonals (b₀.grown calls) check directions step2
      ((b₀.grown calls).perform (connectDiagonal check directions step2)).1
      ((b₀.grown calls).perform (connectDiagonal check directions step2)).2 := by
  obtain ⟨-, rfl⟩ := start_ok hstart
  exact ((laid_empty boundary).grown calls).joinsDiagonals check directions step2

/-- Where one unit leads all the way round, the directions of the check land on the one data
    qubit and it cannot be joined. On a torus of two by two the last direction alone lands, over
    the seam, and being first in the permutation it has the first order. -/
theorem grown_joinsDiagonals_seam :
    let calls : List PlacementCall := [.add .data ⟨0, 0⟩ none, .add (.check .z) ⟨-1, 7⟩ none]
    let ring : IndexedBuilder := grown ⟨.empty, .toroidal 1 1⟩ calls
    let torus : IndexedBuilder := grown ⟨.empty, .toroidal 2 2⟩ calls
    start (.toroidal 1 1) = .ok ⟨.empty, .toroidal 1 1⟩ ∧ start (.toroidal 2 2) = .ok ⟨.empty, .toroidal 2 2⟩ ∧
      (ring.perform (connectDiagonal 1 [3, 1, 0, 2] 1)).1 = .error (.duplicateEdge 1 0) ∧
      (∃ data, ring.LandsTwice 1 1 data) ∧
      (torus.perform (connectDiagonal 1 [3, 1, 0, 2] 1)).1 = .ok 1 ∧ torus.Lands 1 1 3 0 ∧
      (torus.perform (connectDiagonal 1 [3, 1, 0, 2] 1)).2.graph.edges = [⟨1, 0, 1⟩] := by
  intro calls ring torus
  have hone : start (.toroidal 1 1) = .ok ⟨.empty, .toroidal 1 1⟩ := rfl
  have htwo : start (.toroidal 2 2) = .ok ⟨.empty, .toroidal 2 2⟩ := rfl
  have hring := grown_joinsDiagonals hone calls 1 [3, 1, 0, 2] 1
  have htorus := grown_joinsDiagonals htwo calls 1 [3, 1, 0, 2] 1
  have hbare : ring.graph.edges = [] := rfl
  have hedges : (torus.perform (connectDiagonal 1 [3, 1, 0, 2] 1)).2.graph.edges = [⟨1, 0, 1⟩] := rfl
  have htwice := (hring.fails_iff (by decide) ⟨.z, rfl⟩ (hbare ▸ List.forall_mem_nil _)).mp ⟨.duplicateEdge 1 0, rfl⟩
  obtain ⟨-, -, -, added, -, -, hperm, hadded⟩ := htorus.joined 1 rfl
  have hmem : ⟨1, 0, 1⟩ ∈ added := hperm.mem_iff.mp (hedges ▸ List.mem_singleton_self _)
  obtain ⟨-, k, direction, hk, hlands, horder⟩ := (hadded _).mp hmem
  obtain rfl : k = 0 := (Nat.succ.inj horder).symm
  obtain rfl : direction = 3 := (Option.some.inj hk).symm
  exact ⟨hone, htwo, rfl, htwice, rfl, hlands, hedges⟩

end IndexedBuilder

end QuantumMemory

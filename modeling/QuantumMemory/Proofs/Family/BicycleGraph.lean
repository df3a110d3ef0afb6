/-
  QuantumMemory.Proofs.Family.BicycleGraph — the graph of a bivariate bicycle code, written
  down.

  Data qubits and checks are numbered as the group elements are, row by row (`left`,
  `right`), and a check reaches the data qubits at fixed shifts from its own element
  (`shifts`, `reached`). `bicycle` is the graph with these nodes and links. On the torus a site
  stands for its element modulo the orders (`wrap?_fourfold`), so at every target there
  is the data qubit that is meant (`neighbour?_site`), and building the code's graph
  makes `bicycle` (`graph_eq`).
-/

import Mathlib.Algebra.Group.Prod
import Mathlib.Data.ZMod.Basic
import Mathlib.Tactic.LinearCombination
import QuantumMemory.Family.Bicycle
import QuantumMemory.Proofs.Family.Grid
import QuantumMemory.Proofs.Graph.Builder

namespace QuantumMemory

namespace BicycleSpec

open LatticeBuilder (bare unjoined place)

/-! ## Valid polynomials -/

structure Valid (s : BicycleSpec) : Prop where
  lPos : 0 < s.l
  mPos : 0 < s.m
  lLe : s.l ≤ maxOrder
  mLe : s.m ≤ maxOrder
  aNodup : (s.a.map s.reduce).Nodup
  bNodup : (s.b.map s.reduce).Nodup

theorem nodup_of_repeated? {ts : List Monomial} (h : repeated? ts = none) : ts.Nodup := by
  induction ts with
  | nil => exact List.nodup_nil
  | cons t rest ih =>
    rw [repeated?] at h
    by_cases ht : t ∈ rest
    · rw [if_pos ht] at h
      cases h
    · rw [if_neg ht] at h
      exact List.nodup_cons.mpr ⟨ht, ih h⟩

theorem checkTerms_ok {s : BicycleSpec} {polynomial : String} {ts : List Monomial}
    (h : s.checkTerms polynomial ts = .ok ()) : (ts.map s.reduce).Nodup := by
  unfold checkTerms at h
  cases hr : repeated? (ts.map s.reduce) with
  | some t => rw [hr] at h; cases h
  | none => exact nodup_of_repeated? hr

theorem valid_of_validate {s : BicycleSpec} (h : s.validate = .ok ()) : s.Valid := by
  unfold validate at h
  by_cases horders : s.l = 0 ∨ s.m = 0 ∨ maxOrder < s.l ∨ maxOrder < s.m
  · rw [if_pos horders] at h
    cases h
  · rw [if_neg horders] at h
    cases ha : s.checkTerms "A" s.a with
    | error e => simp [ha, bind, Except.bind] at h
    | ok u =>
      simp only [ha, bind, Except.bind] at h
      exact ⟨by omega, by omega, by omega, by omega, checkTerms_ok ha, checkTerms_ok h⟩

variable {s : BicycleSpec}

/-! ## Group elements -/

/-- The left data qubit at a group element. -/
def left (s : BicycleSpec) (p : Int × Int) : Nat := (p.1 % s.l).toNat * s.m + (p.2 % s.m).toNat

/-- The right data qubit at a group element. -/
def right (s : BicycleSpec) (p : Int × Int) : Nat := s.l * s.m + s.left p

theorem mem_elements {p : Int × Int} : p ∈ s.elements ↔ (0 ≤ p.1 ∧ p.1 < s.l) ∧ 0 ≤ p.2 ∧ p.2 < s.m := by
  simp only [elements, List.mem_flatMap, List.mem_map, List.mem_range]
  constructor
  · intro h
    obtain ⟨i, hi, j, hj, rfl⟩ := h
    omega
  · intro h
    exact ⟨p.1.toNat, by omega, p.2.toNat, by omega, Prod.ext (by simp only; omega) (by simp only; omega)⟩

theorem norm_eq {g : Int × Int} (hg : g ∈ s.elements) : (g.1 % s.l, g.2 % s.m) = g := by
  obtain ⟨⟨h1, h2⟩, h3, h4⟩ := mem_elements.mp hg
  exact Prod.ext (Int.emod_eq_of_lt h1 h2) (Int.emod_eq_of_lt h3 h4)

theorem elements_nodup : s.elements.Nodup := by
  refine grid_nodup s.l s.m fun i j i' j' h => ?_
  obtain ⟨h1, h2⟩ := Prod.mk.inj h
  omega

theorem length_elements : s.elements.length = s.l * s.m := length_grid s.l s.m _

theorem length_map_elements {α : Type} (f : Int × Int → α) : (s.elements.map f).length = s.l * s.m := by
  rw [List.length_map, length_elements]

theorem elements_eq : s.elements = (List.range (s.l * s.m)).map fun n => (((n / s.m : Nat) : Int), ((n % s.m : Nat) : Int)) :=
  grid_eq s.l s.m fun i j => ((i : Int), (j : Int))

theorem left_cell {i j : Nat} (hi : i < s.l) (hj : j < s.m) : s.left (i, j) = i * s.m + j := by
  have h1 : (i : Int) % s.l = i := Int.emod_eq_of_lt (by omega) (by omega)
  have h2 : (j : Int) % s.m = j := Int.emod_eq_of_lt (by omega) (by omega)
  simp only [left, h1, h2, Int.toNat_natCast]

/-- What the group sees of a shift. -/
def cls (s : BicycleSpec) (p : Int × Int) : ZMod s.l × ZMod s.m := (p.1, p.2)

theorem cls_add (p p' : Int × Int) : s.cls (p + p') = s.cls p + s.cls p' := by
  simp only [cls, Prod.fst_add, Prod.snd_add, Int.cast_add, Prod.mk_add_mk]

theorem cls_neg (p : Int × Int) : s.cls (-p) = -s.cls p := by
  simp only [cls, Prod.fst_neg, Prod.snd_neg, Int.cast_neg, Prod.neg_mk]

theorem cls_sub (p p' : Int × Int) : s.cls (p - p') = s.cls p - s.cls p' := by
  rw [sub_eq_add_neg, cls_add, cls_neg, ← sub_eq_add_neg]

section Orders

variable (hv : s.Valid)

include hv

/-- A group element as it is listed. -/
theorem norm_mem (p : Int × Int) : (p.1 % s.l, p.2 % s.m) ∈ s.elements := by
  have hl := hv.lPos
  have hm := hv.mPos
  exact mem_elements.mpr ⟨⟨Int.emod_nonneg _ (by omega), Int.emod_lt_of_pos _ (by omega)⟩,
    Int.emod_nonneg _ (by omega), Int.emod_lt_of_pos _ (by omega)⟩

theorem left_lt (p : Int × Int) : s.left p < s.l * s.m := by
  obtain ⟨⟨h1, h2⟩, h3, h4⟩ := mem_elements.mp (norm_mem hv p)
  exact row_lt (by omega) (by omega)

theorem getElem?_elements (p : Int × Int) : s.elements[s.left p]? = some (p.1 % s.l, p.2 % s.m) := by
  obtain ⟨⟨h1, h2⟩, h3, h4⟩ := mem_elements.mp (norm_mem hv p)
  have hcol : (p.2 % s.m).toNat < s.m := by omega
  rw [elements_eq, List.getElem?_map, List.getElem?_range (left_lt hv p), Option.map_some, left, div_row _ hcol,
    mod_row _ hcol]
  exact congrArg some (Prod.ext (by simp only; omega) (by simp only; omega))

/-- Two shifts lead to one data qubit of a half if they differ by multiples of the orders. -/
theorem left_eq_iff {p p' : Int × Int} : s.left p = s.left p' ↔ s.cls p = s.cls p' := by
  have hcls : s.cls p = s.cls p' ↔ (p.1 % s.l, p.2 % s.m) = (p'.1 % s.l, p'.2 % s.m) := by
    simp only [cls, Prod.mk.injEq, ZMod.intCast_eq_intCast_iff']
  rw [hcls]
  constructor
  · intro h
    have hp := getElem?_elements hv p
    rw [h, getElem?_elements hv p'] at hp
    exact (Option.some.inj hp).symm
  · intro h
    obtain ⟨h1, h2⟩ := Prod.mk.inj h
    rw [left, left, h1, h2]

end Orders

/-! ## Sites -/

/-- Sites of one kind are two apart, which is four halves. -/
def fourfold (e f : Int) (p : Int × Int) : Coordinate := ⟨4 * p.1 + e, 4 * p.2 + f⟩

theorem leftSite_eq (p : Int × Int) : leftSite p = fourfold 0 0 p := by
  simp only [leftSite, site, fourfold, Coordinate.mk.injEq]
  omega

theorem rightSite_eq (p : Int × Int) : rightSite p = fourfold 2 2 p := by
  simp only [rightSite, site, fourfold, Coordinate.mk.injEq]
  omega

theorem xSite_eq (p : Int × Int) : xSite p = fourfold 2 0 p := by
  simp only [xSite, site, fourfold, Coordinate.mk.injEq]
  omega

theorem zSite_eq (p : Int × Int) : zSite p = fourfold 0 2 p := by
  simp only [zSite, site, fourfold, Coordinate.mk.injEq]
  omega

def torus (s : BicycleSpec) : Boundary := .toroidal (2 * s.l) (2 * s.m)

theorem emod_fourfold {n : Int} (hn : 0 < n) (x : Int) {e : Int} (h0 : 0 ≤ e) (h4 : e < 4) :
    (4 * x + e) % (4 * n) = 4 * (x % n) + e := by
  have hx := Int.emod_add_mul_ediv x n
  have h1 := Int.emod_nonneg x (show n ≠ 0 by omega)
  have h2 := Int.emod_lt_of_pos x hn
  have hunique := (Int.ediv_emod_unique (a := 4 * x + e) (r := 4 * (x % n) + e) (q := x / n)
    (show 0 < 4 * n by omega)).mpr ⟨by linear_combination 4 * hx, by omega, by omega⟩
  exact hunique.2

/-- On the torus a site stands for its element modulo the orders. -/
theorem wrap?_fourfold (hv : s.Valid) (p : Int × Int) {e f : Int} (he0 : 0 ≤ e) (he4 : e < 4) (hf0 : 0 ≤ f)
    (hf4 : f < 4) : s.torus.wrap? (fourfold e f p) = some (fourfold e f (p.1 % s.l, p.2 % s.m)) := by
  obtain ⟨⟨h1, h2⟩, h3, h4⟩ := mem_elements.mp (norm_mem hv p)
  have hl : s.l ≤ 512 := hv.lLe
  have hm : s.m ≤ 512 := hv.mLe
  have hwidth : (2 * ((2 * s.l : Nat) : Int)) = 4 * s.l := by omega
  have hheight : (2 * ((2 * s.m : Nat) : Int)) = 4 * s.m := by omega
  have hx := emod_fourfold (n := s.l) (by omega) p.1 he0 he4
  have hy := emod_fourfold (n := s.m) (by omega) p.2 hf0 hf4
  have hzero : ¬(2 * s.l = 0 ∨ 2 * s.m = 0) := by omega
  simp only [torus, Boundary.wrap?, fourfold, hwidth, hheight, hx, hy, if_neg hzero]
  rw [LatticeBuilder.inRange_small (by omega) (by omega), LatticeBuilder.inRange_small (by omega) (by omega)]
  rfl

theorem wrap_listed (hv : s.Valid) {p : Int × Int} (hp : p ∈ s.elements) {e f : Int} (he0 : 0 ≤ e) (he4 : e < 4)
    (hf0 : 0 ≤ f) (hf4 : f < 4) : s.torus.wrap (fourfold e f p) = .ok (fourfold e f p) := by
  have hwrap := wrap?_fourfold hv p he0 he4 hf0 hf4
  rw [norm_eq hp] at hwrap
  simp only [Boundary.wrap, hwrap]

/-! ## Nodes -/

/-- The two halves of the data. -/
inductive Half
  | left
  | right
  deriving DecidableEq

def Half.label : Half → String
  | .left => "L"
  | .right => "R"

def Half.site : Half → Int × Int → Coordinate
  | .left => leftSite
  | .right => rightSite

def Half.offset : Half → Int
  | .left => 0
  | .right => 2

theorem Half.site_eq (half : Half) (p : Int × Int) : half.site p = fourfold half.offset half.offset p := by
  cases half with
  | left => exact leftSite_eq p
  | right => exact rightSite_eq p

theorem Half.offset_small (half : Half) : 0 ≤ half.offset ∧ half.offset < 4 := by
  cases half with
  | left => decide
  | right => decide

/-- The data qubit of a half at a group element. -/
def datum (s : BicycleSpec) : Half → Int × Int → Nat
  | .left => s.left
  | .right => s.right

def checkSite : CheckBasis → Int × Int → Coordinate
  | .x => xSite
  | _ => zSite

/-- The order of a check's first interaction. -/
def firstOrder : CheckBasis → Nat
  | .x => 1
  | _ => 7

/-- A monomial as the shift it stands for. -/
def exponents (s : BicycleSpec) (t : Monomial) : Int × Int := ((s.reduce t).x, (s.reduce t).y)

/-- What a check reaches from its group element, in order. -/
def shifts (s : BicycleSpec) : CheckBasis → List (Half × (Int × Int))
  | .x => s.a.map (fun t => (.left, s.exponents t)) ++ s.b.map (fun t => (.right, s.exponents t))
  | .y => []
  | .z => s.b.map (fun t => (.left, -s.exponents t)) ++ s.a.map (fun t => (.right, -s.exponents t))

/-- The data qubits that a check at a group element is joined to. -/
def reached (s : BicycleSpec) (b : CheckBasis) (g : Int × Int) : List Qubit :=
  (s.shifts b).map fun u => s.datum u.1 (g + u.2)

/-- Links to data qubits one after the other. -/
def linksFrom (first : Nat) (data : List Qubit) : List Link := (data.zipIdx first).map fun (q, k) => ⟨k, q⟩

def dataNode (half : Half) (g : Int × Int) : Node := unjoined .data (some half.label) (half.site g)

def checkNode (s : BicycleSpec) (b : CheckBasis) (g : Int × Int) : Node :=
  { bare (.check b) (checkSite b g) with links := linksFrom (firstOrder b) (s.reached b g) }

/-- The nodes before any are joined. -/
def apart (s : BicycleSpec) : List Node :=
  (s.elements.map (dataNode .left) ++ s.elements.map (dataNode .right)) ++
    (s.elements.map (fun g => bare (.check .x) (checkSite .x g)) ++
      s.elements.map fun g => bare (.check .z) (checkSite .z g))

def nodes (s : BicycleSpec) : List Node :=
  (s.elements.map (dataNode .left) ++ s.elements.map (dataNode .right)) ++
    (s.elements.map (s.checkNode .x) ++ s.elements.map (s.checkNode .z))

def bicycle (s : BicycleSpec) : Graph := .ofNodes s.nodes

/-! ## What a check reaches -/

section Reached

variable (hv : s.Valid)

include hv

theorem datum_eq_iff {half half' : Half} {p p' : Int × Int} :
    s.datum half p = s.datum half' p' ↔ half = half' ∧ s.cls p = s.cls p' := by
  have hp := left_lt hv p
  have hp' := left_lt hv p'
  cases half with
  | left =>
    cases half' with
    | left => exact ⟨fun h => ⟨rfl, (left_eq_iff hv).mp h⟩, fun h => (left_eq_iff hv).mpr h.2⟩
    | right =>
      refine iff_of_false (fun h => ?_) fun h => Half.noConfusion h.1
      exact absurd h (Nat.ne_of_lt (Nat.lt_of_lt_of_le hp (Nat.le_add_right _ _)))
  | right =>
    cases half' with
    | left =>
      refine iff_of_false (fun h => ?_) fun h => Half.noConfusion h.1
      exact absurd h.symm (Nat.ne_of_lt (Nat.lt_of_lt_of_le hp' (Nat.le_add_right _ _)))
    | right =>
      simp only [datum, right, Nat.add_left_cancel_iff, true_and]
      exact left_eq_iff hv

theorem cls_exponents_inj {t t' : Monomial} (h : s.cls (s.exponents t) = s.cls (s.exponents t')) :
    s.reduce t = s.reduce t' := by
  have hl := Nat.mod_lt t.x hv.lPos
  have hl' := Nat.mod_lt t'.x hv.lPos
  have hm := Nat.mod_lt t.y hv.mPos
  have hm' := Nat.mod_lt t'.y hv.mPos
  simp only [cls, exponents, reduce, Prod.mk.injEq, ZMod.intCast_eq_intCast_iff'] at h
  obtain ⟨h1, h2⟩ := h
  rw [Int.emod_eq_of_lt (by omega) (by omega), Int.emod_eq_of_lt (by omega) (by omega)] at h1 h2
  simp only [reduce, Monomial.mk.injEq]
  omega

/-- No two shifts of a check are one. -/
theorem shifts_apart (b : CheckBasis) : ((s.shifts b).map fun u => (u.1, s.cls u.2)).Nodup := by
  have hpart : ∀ (half : Half) (ts : List Monomial), (ts.map s.reduce).Nodup →
      (ts.map fun t => (half, s.cls (s.exponents t))).Nodup ∧ (ts.map fun t => (half, s.cls (-s.exponents t))).Nodup := by
    intro half ts hts
    have hpairs := List.pairwise_map.mp hts
    refine ⟨List.pairwise_map.mpr (hpairs.imp fun hne he => hne ?_),
      List.pairwise_map.mpr (hpairs.imp fun hne he => hne ?_)⟩
    · exact cls_exponents_inj hv (Prod.mk.inj he).2
    · have hneg := (Prod.mk.inj he).2
      rw [cls_neg, cls_neg, neg_inj] at hneg
      exact cls_exponents_inj hv hneg
  have hx : ((s.shifts .x).map fun u => (u.1, s.cls u.2)).Nodup := by
    rw [shifts, List.map_append, List.map_map, List.map_map]
    exact List.nodup_append.mpr ⟨(hpart _ _ hv.aNodup).1, (hpart _ _ hv.bNodup).1, by simp⟩
  have hz : ((s.shifts .z).map fun u => (u.1, s.cls u.2)).Nodup := by
    rw [shifts, List.map_append, List.map_map, List.map_map]
    exact List.nodup_append.mpr ⟨(hpart _ _ hv.bNodup).2, (hpart _ _ hv.aNodup).2, by simp⟩
  cases b with
  | x => exact hx
  | y => exact List.nodup_nil
  | z => exact hz

theorem reached_nodup (b : CheckBasis) (g : Int × Int) : (s.reached b g).Nodup := by
  refine List.pairwise_map.mpr ((List.pairwise_map.mp (shifts_apart hv b)).imp fun hne he => hne ?_)
  obtain ⟨hhalf, hcls⟩ := (datum_eq_iff hv).mp he
  rw [cls_add, cls_add, add_right_inj] at hcls
  exact Prod.ext hhalf hcls

end Reached

/-! ## Places -/

theorem fourfold_inj {e f e' f' : Int} {p p' : Int × Int} (he : 0 ≤ e ∧ e < 4 ∧ 0 ≤ e' ∧ e' < 4)
    (hf : 0 ≤ f ∧ f < 4 ∧ 0 ≤ f' ∧ f' < 4) (h : fourfold e f p = fourfold e' f' p') : e = e' ∧ f = f' ∧ p = p' := by
  obtain ⟨h1, h2⟩ := Coordinate.mk.inj h
  exact ⟨by omega, by omega, Prod.ext (by omega) (by omega)⟩

/-- All nodes stand apart. -/
theorem places_nodup : (s.apart.map (·.coordinate)).Nodup := by
  have hmap : s.apart.map (·.coordinate) =
      ([(0, 0), (2, 2), (2, 0), (0, 2)].flatMap fun w : Int × Int => s.elements.map fun g => fourfold w.1 w.2 g).map
        some := by
    simp only [apart, dataNode, checkSite, Half.site, unjoined, bare, List.map_append, List.map_map, List.flatMap_cons,
      List.flatMap_nil, List.append_nil, List.append_assoc, Function.comp_def, leftSite_eq, rightSite_eq, xSite_eq,
      zSite_eq]
  rw [hmap]
  refine List.Nodup.map (Option.some_injective _) (List.nodup_flatMap.mpr ⟨fun w hw => ?_, ?_⟩)
  · refine elements_nodup.map fun p p' he => ?_
    obtain ⟨h1, h2⟩ := Coordinate.mk.inj he
    exact Prod.ext (by omega) (by omega)
  · have hkinds : [(0, 0), (2, 2), (2, 0), (0, 2)].Pairwise fun w w' : Int × Int =>
        w ≠ w' ∧ (0 ≤ w.1 ∧ w.1 < 4 ∧ 0 ≤ w'.1 ∧ w'.1 < 4) ∧ 0 ≤ w.2 ∧ w.2 < 4 ∧ 0 ≤ w'.2 ∧ w'.2 < 4 := by decide
    refine hkinds.imp fun hne c hc hc' => hne.1 ?_
    obtain ⟨p, -, rfl⟩ := List.mem_map.mp hc
    obtain ⟨p', -, he⟩ := List.mem_map.mp hc'
    obtain ⟨h1, h2, -⟩ := fourfold_inj ⟨hne.2.1.2.2.1, hne.2.1.2.2.2, hne.2.1.1, hne.2.1.2.1⟩
      ⟨hne.2.2.2.2.1, hne.2.2.2.2.2, hne.2.2.1, hne.2.2.2.1⟩ he
    exact Prod.ext h1.symm h2.symm

/-! ## Building -/

theorem neighbour?_congr {nodes nodes' : List Node} (h : nodes.map place = nodes'.map place) (boundary : Boundary)
    (c : Coordinate) (dx2 dy2 : Int) :
    (⟨.ofNodes nodes, boundary⟩ : LatticeBuilder).neighbour? c dx2 dy2 =
      (⟨.ofNodes nodes', boundary⟩ : LatticeBuilder).neighbour? c dx2 dy2 := by
  simp only [LatticeBuilder.neighbour?, LatticeBuilder.find?_congr h]

section Built

variable (hv : s.Valid)

include hv

theorem getElem?_map (f : Int × Int → Node) (p : Int × Int) :
    (s.elements.map f)[s.left p]? = some (f (p.1 % s.l, p.2 % s.m)) := by
  rw [List.getElem?_map, getElem?_elements hv p, Option.map_some]

/-- The data qubits come first. -/
theorem getElem?_datum (half : Half) (p : Int × Int) (post : List Node) :
    (s.elements.map (dataNode .left) ++ s.elements.map (dataNode .right) ++ post)[s.datum half p]? =
      some (dataNode half (p.1 % s.l, p.2 % s.m)) := by
  have hlt := left_lt hv p
  rw [List.getElem?_append_left]
  · cases half with
    | left =>
      show (_ ++ _)[s.left p]? = _
      rw [List.getElem?_append_left (by rwa [length_map_elements]), getElem?_map hv]
    | right =>
      show (_ ++ _)[s.l * s.m + s.left p]? = _
      rw [List.getElem?_append_right (by rw [length_map_elements]; exact Nat.le_add_right _ _), length_map_elements,
        Nat.add_sub_cancel_left, getElem?_map hv]
  · rw [List.length_append, length_map_elements, length_map_elements]
    cases half with
    | left => exact Nat.lt_of_lt_of_le hlt (Nat.le_add_right _ _)
    | right => exact Nat.add_lt_add_left hlt _

/-- At a site of either half, from wherever, there is the data qubit of its element. -/
theorem neighbour?_site (source : Coordinate) (half : Half) {p : Int × Int} (h1 : -1024 ≤ p.1 ∧ p.1 ≤ 1024)
    (h2 : -1024 ≤ p.2 ∧ p.2 ≤ 1024) :
    (⟨.ofNodes s.apart, s.torus⟩ : LatticeBuilder).neighbour? source ((half.site p).x2 - source.x2)
        ((half.site p).y2 - source.y2) = some (s.datum half p) ∧
      (Graph.ofNodes s.apart).isData (s.datum half p) = true := by
  have hnode : s.apart[s.datum half p]? = _ := getElem?_datum hv half p _
  have hoffset := half.offset_small
  have hwrap : s.torus.wrap? (half.site p) = some (half.site (p.1 % s.l, p.2 % s.m)) := by
    rw [half.site_eq, half.site_eq]
    exact wrap?_fourfold hv p hoffset.1 hoffset.2 hoffset.1 hoffset.2
  have hrange : (Coordinate.inRange (half.site p).x2 && Coordinate.inRange (half.site p).y2) = true := by
    rw [half.site_eq, fourfold, LatticeBuilder.inRange_small (by simp only; omega) (by simp only; omega),
      LatticeBuilder.inRange_small (by simp only; omega) (by simp only; omega)]
    rfl
  constructor
  · simp only [LatticeBuilder.neighbour?, Coordinate.shift?, add_sub_cancel]
    rw [if_pos hrange]
    show (s.torus.wrap? (half.site p)).bind _ = _
    rw [hwrap]
    exact Graph.find?_eq_some places_nodup hnode rfl
  · rw [Graph.isData_iff]
    refine ⟨dataNode half (p.1 % s.l, p.2 % s.m), ?_, rfl⟩
    rw [Graph.node?_ofNodes]
    exact hnode

end Built

theorem connectTargets_cons (b : LatticeBuilder) (check : Qubit) (source : Coordinate) (first : Nat)
    (target : Coordinate) (rest : List Coordinate) :
    connectTargets b check source first (target :: rest) =
      (connectTo b check source target first).bind fun b => connectTargets b check source (first + 1) rest := by
  unfold connectTargets
  rw [List.zipIdx_cons, List.foldlM_cons, List.zipIdx_succ]
  refine congrArg (Except.bind _) (funext fun b' => ?_)
  rw [List.foldlM_map]
  congr 1
  funext b'' a
  obtain ⟨t, i⟩ := a
  simp only [Nat.add_assoc, Nat.add_comm 1]

theorem linksFrom_cons (first : Nat) (q : Qubit) (rest : List Qubit) :
    linksFrom first (q :: rest) = ⟨first, q⟩ :: linksFrom (first + 1) rest := by
  rw [linksFrom, List.zipIdx_cons, List.map_cons, linksFrom]

/-- A check is joined to the data qubits at its targets one after the other. -/
theorem connectTargets_ok {α : Type} {boundary : Boundary} (pre post : List Node) {n : Node}
    (hrole : n.role.isData = false) (source : Coordinate) (target : α → Coordinate) (data : α → Qubit) (us : List α)
    (first : Nat)
    (hfind : ∀ u ∈ us, (⟨.ofNodes (pre ++ n :: post), boundary⟩ : LatticeBuilder).neighbour? source
        ((target u).x2 - source.x2) ((target u).y2 - source.y2) = some (data u) ∧
      (Graph.ofNodes (pre ++ n :: post)).isData (data u) = true)
    (hfirst : 0 < first) (hlinks : ∀ l ∈ n.links, l.order < first) (hnodup : (n.links.map (·.data) ++ us.map data).Nodup) :
    connectTargets ⟨.ofNodes (pre ++ n :: post), boundary⟩ pre.length source first (us.map target) =
      .ok ⟨.ofNodes (pre ++ { n with links := n.links ++ linksFrom first (us.map data) } :: post), boundary⟩ := by
  induction us generalizing n first with
  | nil => simp [connectTargets, linksFrom, pure, Except.pure]
  | cons u rest ih =>
    obtain ⟨⟨hneighbour, hdata⟩, hfinds⟩ := List.forall_mem_cons.mp hfind
    have hnew : ∀ l ∈ n.links, l.data ≠ data u := by
      intro l hl
      exact (List.nodup_append.mp hnodup).2.2 _ (List.mem_map_of_mem hl) _ List.mem_cons_self
    have hadd := Graph.addInteraction_last hrole hdata hfirst hlinks hnew
    set n' : Node := { n with links := n.links ++ [⟨first, data u⟩] } with hn'
    have hsame : (pre ++ n :: post).map place = (pre ++ n' :: post).map place := by simp [place, hn']
    have horders : ∀ l ∈ n'.links, l.order < first + 1 := by
      intro l hl
      rcases List.mem_append.mp hl with hl | hl
      · exact Nat.lt_succ_of_lt (hlinks l hl)
      · rw [List.mem_singleton.mp hl]
        exact Nat.lt_succ_self first
    have hrest := ih (n := n') hrole (first + 1) (fun u hu => by
      rw [← neighbour?_congr hsame, ← LatticeBuilder.isData_congr hsame]
      exact hfinds u hu) (Nat.succ_pos first) horders (by simpa [hn'] using hnodup)
    rw [List.map_cons, connectTargets_cons]
    simp only [connectTo, hneighbour, LatticeBuilder.connect, hadd, bind, Except.bind, pure, Except.pure]
    rw [hrest]
    simp only [hn', List.map_cons, linksFrom_cons, List.append_assoc, List.singleton_append]

/-- The targets of a check are the sites at its shifts. -/
theorem xTargets_eq (g : Int × Int) : s.xTargets g = (s.shifts .x).map fun u => u.1.site (g + u.2) := by
  rw [xTargets, shifts, List.map_append, List.map_map, List.map_map]
  rfl

theorem zTargets_eq (g : Int × Int) : s.zTargets g = (s.shifts .z).map fun u => u.1.site (g + u.2) := by
  rw [zTargets, shifts, List.map_append, List.map_map, List.map_map]
  rfl

section Joined

variable (hv : s.Valid)

include hv

omit hv in
/-- Every shift of a check is a term of one of the polynomials, forwards or backwards. -/
theorem exists_term {b : CheckBasis} {u : Half × (Int × Int)} (hu : u ∈ s.shifts b) :
    ∃ t : Monomial, u.2 = s.exponents t ∨ u.2 = -s.exponents t := by
  cases b with
  | x =>
    rcases List.mem_append.mp hu with hu | hu
    · obtain ⟨t, -, rfl⟩ := List.mem_map.mp hu
      exact ⟨t, .inl rfl⟩
    · obtain ⟨t, -, rfl⟩ := List.mem_map.mp hu
      exact ⟨t, .inl rfl⟩
  | y => cases hu
  | z =>
    rcases List.mem_append.mp hu with hu | hu
    · obtain ⟨t, -, rfl⟩ := List.mem_map.mp hu
      exact ⟨t, .inr rfl⟩
    · obtain ⟨t, -, rfl⟩ := List.mem_map.mp hu
      exact ⟨t, .inr rfl⟩

theorem shift_small {b : CheckBasis} {u : Half × (Int × Int)} (hu : u ∈ s.shifts b) :
    (-512 ≤ u.2.1 ∧ u.2.1 ≤ 512) ∧ -512 ≤ u.2.2 ∧ u.2.2 ≤ 512 := by
  have hl : s.l ≤ 512 := hv.lLe
  have hm : s.m ≤ 512 := hv.mLe
  obtain ⟨t, ht⟩ := exists_term hu
  have hx : t.x % s.l < s.l := Nat.mod_lt _ hv.lPos
  have hy : t.y % s.m < s.m := Nat.mod_lt _ hv.mPos
  rcases ht with ht | ht
  · rw [ht]
    simp only [exponents, reduce]
    omega
  · rw [ht, Prod.fst_neg, Prod.snd_neg]
    simp only [exponents, reduce]
    omega

/-- The checks of a basis, which stand in a row in the list of nodes, are joined to what
    they reach. -/
theorem joinChecks_ok (b : CheckBasis) (pre post : List Node) (gs : List (Int × Int)) (hgs : ∀ g ∈ gs, g ∈ s.elements)
    (base k : Nat) (hk : base + k = pre.length)
    (hsame : (pre ++ (gs.map (fun g => bare (.check b) (checkSite b g)) ++ post)).map place = s.apart.map place) :
    (gs.zipIdx k).foldlM (fun c (g, i) => connectTargets c (base + i) (checkSite b g) (firstOrder b)
        ((s.shifts b).map fun u : Half × (Int × Int) => u.1.site (g + u.2)))
        (⟨.ofNodes (pre ++ (gs.map (fun g => bare (.check b) (checkSite b g)) ++ post)), s.torus⟩ : LatticeBuilder) =
      .ok ⟨.ofNodes (pre ++ (gs.map (s.checkNode b) ++ post)), s.torus⟩ := by
  induction gs generalizing pre k with
  | nil => rfl
  | cons g rest ih =>
    obtain ⟨hg, hrest⟩ := List.forall_mem_cons.mp hgs
    rw [List.map_cons, List.cons_append] at hsame ⊢
    have hl : s.l ≤ 512 := hv.lLe
    have hm : s.m ≤ 512 := hv.mLe
    have hfirst : 0 < firstOrder b := by cases b <;> decide
    obtain ⟨⟨h1, h2⟩, h3, h4⟩ := mem_elements.mp hg
    have hjoin : connectTargets ⟨.ofNodes (pre ++ bare (.check b) (checkSite b g) ::
          (rest.map (fun g => bare (.check b) (checkSite b g)) ++ post)), s.torus⟩ pre.length (checkSite b g)
          (firstOrder b) ((s.shifts b).map fun u => u.1.site (g + u.2)) =
        .ok ⟨.ofNodes (pre ++ s.checkNode b g :: (rest.map (fun g => bare (.check b) (checkSite b g)) ++ post)), s.torus⟩ := by
      refine connectTargets_ok pre _ rfl _ (fun u : Half × (Int × Int) => u.1.site (g + u.2))
        (fun u => s.datum u.1 (g + u.2)) _ _ (fun u hu => ?_) hfirst (List.forall_mem_nil _) (reached_nodup hv b g)
      obtain ⟨⟨h5, h6⟩, h7, h8⟩ := shift_small hv hu
      rw [neighbour?_congr hsame, LatticeBuilder.isData_congr hsame]
      exact neighbour?_site hv _ u.1 (by rw [Prod.fst_add]; omega) (by rw [Prod.snd_add]; omega)
    have hplace : (pre ++ (s.checkNode b g :: (rest.map (fun g => bare (.check b) (checkSite b g)) ++ post))).map place =
        s.apart.map place := by
      rw [← hsame]
      simp [place, checkNode]
    rw [List.zipIdx_cons, List.foldlM_cons]
    show (connectTargets _ (base + k) (checkSite b g) _ _).bind _ = _
    rw [hk, hjoin]
    have hall := ih (pre ++ [s.checkNode b g]) hrest (k + 1) (by rw [List.length_append, ← hk]; rfl) (by
      rw [List.append_assoc]
      exact hplace)
    rw [List.append_assoc, List.append_assoc] at hall
    exact hall

/-- Every node stands where the torus keeps it. -/
theorem sites_wrap (half : Half) (b : CheckBasis) :
    (∀ c ∈ s.elements.map half.site, s.torus.wrap c = .ok c) ∧
      ∀ c ∈ s.elements.map (checkSite b), s.torus.wrap c = .ok c := by
  constructor
  · intro c hc
    obtain ⟨g, hg, rfl⟩ := List.mem_map.mp hc
    have hoffset := half.offset_small
    rw [Half.site_eq]
    exact wrap_listed hv hg hoffset.1 hoffset.2 hoffset.1 hoffset.2
  · intro c hc
    obtain ⟨g, hg, rfl⟩ := List.mem_map.mp hc
    unfold checkSite
    split
    · rw [xSite_eq]
      exact wrap_listed hv hg (by decide) (by decide) (by decide) (by decide)
    · rw [zSite_eq]
      exact wrap_listed hv hg (by decide) (by decide) (by decide) (by decide)

/-- The builder before any checks are joined. -/
theorem added :
    ∃ b₁ b₂ b₃ : LatticeBuilder, addLabelled ⟨.ofNodes [], s.torus⟩ "L" (s.elements.map leftSite) = .ok b₁ ∧
      addLabelled b₁ "R" (s.elements.map rightSite) = .ok b₂ ∧ b₂.addAll (.check .x) (s.elements.map xSite) = .ok b₃ ∧
        b₃.addAll (.check .z) (s.elements.map zSite) = .ok ⟨.ofNodes s.apart, s.torus⟩ := by
  have hapart : s.apart = (([] ++ (s.elements.map leftSite).map (unjoined .data (some "L"))) ++
      (s.elements.map rightSite).map (unjoined .data (some "R")) ++
      (s.elements.map xSite).map (bare (.check .x))) ++ (s.elements.map zSite).map (bare (.check .z)) := by
    simp only [apart, List.map_map, List.nil_append, List.append_assoc]
    rfl
  have hz := places_nodup (s := s)
  rw [hapart] at hz ⊢
  have hx := hz.sublist ((List.sublist_append_left _ _).map _)
  have hr := hx.sublist ((List.sublist_append_left _ _).map _)
  have hl := hr.sublist ((List.sublist_append_left _ _).map _)
  exact ⟨_, _, _, LatticeBuilder.addEach_ok [] s.torus .data (some "L") (sites_wrap hv .left .x).1 hl,
    LatticeBuilder.addEach_ok _ s.torus .data (some "R") (sites_wrap hv .right .x).1 hr,
    LatticeBuilder.addAll_ok _ s.torus (.check .x) (sites_wrap hv .left .x).2 hx,
    LatticeBuilder.addAll_ok _ s.torus (.check .z) (sites_wrap hv .left .z).2 hz⟩

/-- The builder as its checks are joined, first the X checks and then the Z checks. -/
theorem joined :
    ∃ b₄ : LatticeBuilder,
      s.elements.zipIdx.foldlM (fun b (g, i) => connectTargets b (2 * s.elements.length + i) (xSite g) 1 (s.xTargets g))
        (⟨.ofNodes s.apart, s.torus⟩ : LatticeBuilder) = .ok b₄ ∧
      s.elements.zipIdx.foldlM (fun b (g, i) => connectTargets b (3 * s.elements.length + i) (zSite g) 7 (s.zTargets g))
        b₄ = .ok ⟨s.bicycle, s.torus⟩ := by
  have hjoinx := joinChecks_ok hv .x (s.elements.map (dataNode .left) ++ s.elements.map (dataNode .right))
    (s.elements.map fun g => bare (.check .z) (checkSite .z g)) s.elements (fun g hg => hg) (2 * s.elements.length) 0
    (by rw [List.length_append, List.length_map, List.length_map]; omega) rfl
  have hjoinz := joinChecks_ok hv .z
    ((s.elements.map (dataNode .left) ++ s.elements.map (dataNode .right)) ++ s.elements.map (s.checkNode .x)) []
    s.elements (fun g hg => hg) (3 * s.elements.length) 0
    (by rw [List.length_append, List.length_append, List.length_map, List.length_map, List.length_map]; omega) (by
      simp only [apart, List.map_append, List.map_map, List.append_nil, List.append_assoc]
      rfl)
  have hnodes : s.bicycle = .ofNodes (s.elements.map (dataNode .left) ++ (s.elements.map (dataNode .right) ++
      (s.elements.map (s.checkNode .x) ++ s.elements.map (s.checkNode .z)))) := by
    rw [bicycle, nodes, List.append_assoc]
  simp only [List.append_nil, List.append_assoc] at hjoinx hjoinz
  rw [hnodes, apart, List.append_assoc]
  simp only [xTargets_eq, zTargets_eq]
  exact ⟨_, hjoinx, hjoinz⟩

/-- What building the code's graph makes. -/
theorem graph_eq : s.graph = .ok s.bicycle := by
  obtain ⟨b₁, b₂, b₃, hl, hr, hx, hz⟩ := added hv
  obtain ⟨b₄, hjoinx, hjoinz⟩ := joined hv
  have hstart : LatticeBuilder.start (.toroidal (2 * s.l) (2 * s.m)) = .ok ⟨.ofNodes [], s.torus⟩ := by
    have h1 := hv.lPos
    have h2 := hv.mPos
    have h3 : s.l ≤ 512 := hv.lLe
    have h4 : s.m ≤ 512 := hv.mLe
    have hperiods : ¬(2 * s.l = 0 ∨ 2 * s.m = 0 ∨ Boundary.maxPeriod < 2 * s.l ∨ Boundary.maxPeriod < 2 * s.m) := by
      unfold Boundary.maxPeriod
      omega
    rw [LatticeBuilder.start, if_neg hperiods]
    rfl
  simp only [graph, hstart, hl, hr, hx, hz, hjoinx, hjoinz, bind, Except.bind, pure, Except.pure]

omit hv in
theorem connectTargets_keeps {P : Graph → Prop} (hP : LatticeBuilder.KeptByJoining P) {b b' : LatticeBuilder}
    {check : Qubit} {source : Coordinate} {first : Nat} {targets : List Coordinate} (hb : P b.graph)
    (h : connectTargets b check source first targets = .ok b') : P b'.graph := by
  refine foldlM_keeps (P := fun b => P b.graph) (fun b a b' hb h => ?_) hb h
  obtain ⟨target, i⟩ := a
  unfold connectTo at h
  cases hdata : b.neighbour? source (target.x2 - source.x2) (target.y2 - source.y2) with
  | none =>
    simp only [hdata] at h
    cases h
  | some data =>
    simp only [hdata] at h
    exact LatticeBuilder.connect_keeps hP hb h

omit hv in
theorem graph_built {g : Graph} (h : s.graph = .ok g) : g.Built := by
  obtain ⟨b₀, hstart, h⟩ := exists_of_bind h
  obtain ⟨b₁, hl, h⟩ := exists_of_bind h
  obtain ⟨b₂, hr, h⟩ := exists_of_bind h
  obtain ⟨b₃, hx, h⟩ := exists_of_bind h
  obtain ⟨b₄, hz, h⟩ := exists_of_bind h
  obtain ⟨b₅, hjoinx, h⟩ := exists_of_bind h
  obtain ⟨b₆, hjoinz, h⟩ := exists_of_bind h
  cases h
  have hb₀ : b₀.graph.Built := LatticeBuilder.start_graph hstart ▸ .empty
  have hb₁ := LatticeBuilder.addEach_keeps (LatticeBuilder.built_adding .data) hb₀ hl
  have hb₂ := LatticeBuilder.addEach_keeps (LatticeBuilder.built_adding .data) hb₁ hr
  have hb₃ := LatticeBuilder.addAll_keeps (LatticeBuilder.built_adding _) hb₂ hx
  have hb₄ := LatticeBuilder.addAll_keeps (LatticeBuilder.built_adding _) hb₃ hz
  have hkeep := fun b check source first targets b' hb h =>
    @connectTargets_keeps _ LatticeBuilder.built_joining b b' check source first targets hb h
  have hb₅ : b₅.graph.Built := foldlM_keeps (P := (·.graph.Built)) (fun _ _ _ hb h => hkeep _ _ _ _ _ _ hb h) hb₄ hjoinx
  exact foldlM_keeps (P := (·.graph.Built)) (fun _ _ _ hb h => hkeep _ _ _ _ _ _ hb h) hb₅ hjoinz

theorem bicycle_built : s.bicycle.Built := graph_built (graph_eq hv)

end Joined

end BicycleSpec

end QuantumMemory

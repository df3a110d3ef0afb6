/-
  QuantumMemory.Proofs.Family.BicycleChecks — which data qubits the checks of a bivariate
  bicycle code have, and that they commute.

  A check has a data qubit if their group elements differ by one of its shifts
  (`datum_mem_reached`). The shifts of a check are six and all different, three to either
  half, so every check has six data qubits, and a data qubit is in three checks of a
  basis (`degree_eq`). The left data qubits that an X check at `g` and a Z check at `h` share
  are the pairs of terms `a`, `b` with `a + b = h - g`, and so are the right ones
  (`shared_even`). An order names the shift, so no two checks reach a data qubit at one
  (`reach_unique`).
-/

import Mathlib.Algebra.Ring.Parity
import QuantumMemory.Proofs.Family.BicycleGraph
import QuantumMemory.Proofs.Graph.Incidence
import QuantumMemory.Proofs.Graph.Layout

namespace QuantumMemory

namespace BicycleSpec

open LatticeBuilder (bare unjoined)

variable {s : BicycleSpec}

/-! ## Terms by halves -/

/-- The polynomial that leads an X check to a half. -/
def terms (s : BicycleSpec) : Half → List Monomial
  | .left => s.a
  | .right => s.b

def Half.other : Half → Half
  | .left => .right
  | .right => .left

theorem length_shifts {b : CheckBasis} (hb : b ≠ .y) : (s.shifts b).length = s.a.length + s.b.length := by
  cases b with
  | x => rw [shifts, List.length_append, List.length_map, List.length_map]
  | y => exact absurd rfl hb
  | z => rw [shifts, List.length_append, List.length_map, List.length_map, Nat.add_comm]

theorem length_reached (ha : s.a.length = 3) (hb : s.b.length = 3) {b : CheckBasis} (hy : b ≠ .y) (g : Int × Int) :
    (s.reached b g).length = 6 := by
  rw [reached, List.length_map, length_shifts hy, ha, hb]

/-- A check has as many shifts to a half as the polynomial that leads it there has terms. -/
theorem length_halfShifts (half : Half) :
    ((s.shifts .x).filter (·.1 = half)).length = (s.terms half).length ∧
      ((s.shifts .z).filter (·.1 = half)).length = (s.terms half.other).length := by
  cases half with
  | left => simp [shifts, terms, Half.other, List.filter_map, Function.comp_def]
  | right => simp [shifts, terms, Half.other, List.filter_map, Function.comp_def]

/-- The polynomial that leads a Z check to a half is the other one, backwards. -/
theorem mem_shifts_z {half : Half} {e : Int × Int} :
    (half, e) ∈ s.shifts .z ↔ ∃ t ∈ s.terms half.other, -s.exponents t = e := by
  rw [shifts, List.mem_append, List.mem_map, List.mem_map]
  cases half with
  | left => simp [terms, Half.other]
  | right => simp [terms, Half.other]

/-! ## Numbers -/

/-- The check of a basis at a group element. -/
def checkAt (s : BicycleSpec) : CheckBasis → Int × Int → Nat
  | .x, g => 2 * (s.l * s.m) + s.left g
  | _, g => 3 * (s.l * s.m) + s.left g

theorem role_data : ∀ n ∈ s.elements.map (dataNode .left) ++ s.elements.map (dataNode .right), n.role = .data := by
  intro n hn
  rcases List.mem_append.mp hn with hn | hn
  · obtain ⟨g, -, rfl⟩ := List.mem_map.mp hn
    rfl
  · obtain ⟨g, -, rfl⟩ := List.mem_map.mp hn
    rfl

theorem role_check (b : CheckBasis) : ∀ n ∈ s.elements.map (s.checkNode b), n.role = .check b := by
  intro n hn
  obtain ⟨g, -, rfl⟩ := List.mem_map.mp hn
  rfl

theorem dataQubits_bicycle : s.bicycle.dataQubits = List.range (2 * (s.l * s.m)) := by
  have hrun : s.bicycle.dataQubits = _ := Graph.qubitsWhere_run [] _ _ (List.forall_mem_nil _)
    (fun n hn => by rw [role_data n hn]; rfl) fun n hn => by
      rcases List.mem_append.mp hn with h | h
      · rw [role_check _ n h]
        rfl
      · rw [role_check _ n h]
        rfl
  rw [List.length_append, length_map_elements, length_map_elements, List.length_nil, ← List.range_eq_range',
    ← Nat.two_mul] at hrun
  exact hrun

theorem xChecks_bicycle : s.bicycle.checkQubits .x = List.range' (2 * (s.l * s.m)) (s.l * s.m) := by
  have hrun : s.bicycle.checkQubits .x = _ := Graph.qubitsWhere_run _ _ _ (fun n hn => by rw [role_data n hn]; rfl)
    (fun n hn => by rw [role_check _ n hn]; rfl) fun n hn => by rw [role_check _ n hn]; rfl
  rw [List.length_append, length_map_elements, length_map_elements, length_map_elements, ← Nat.two_mul] at hrun
  exact hrun

theorem zChecks_bicycle : s.bicycle.checkQubits .z = List.range' (3 * (s.l * s.m)) (s.l * s.m) := by
  have hnodes : s.nodes = ((s.elements.map (dataNode .left) ++ s.elements.map (dataNode .right)) ++
      s.elements.map (s.checkNode .x)) ++ (s.elements.map (s.checkNode .z) ++ []) := by
    rw [nodes, List.append_nil, List.append_assoc _ _ (s.elements.map (s.checkNode .z))]
  rw [bicycle, hnodes]
  refine (Graph.qubitsWhere_run _ _ _ (fun n hn => ?_) (fun n hn => ?_) (List.forall_mem_nil _)).trans ?_
  · rcases List.mem_append.mp hn with h | h
    · rw [role_data n h]
      rfl
    · rw [role_check _ n h]
      rfl
  · rw [role_check _ n hn]
    rfl
  · rw [List.length_append, List.length_append, length_map_elements, length_map_elements, length_map_elements,
      length_map_elements]
    congr 1
    omega

theorem yChecks_bicycle : s.bicycle.checkQubits .y = [] := by
  refine List.eq_nil_iff_forall_not_mem.mpr fun q hq => ?_
  obtain ⟨n, hn, hr⟩ := Graph.mem_checkQubits.mp hq
  rw [bicycle, Graph.node?_ofNodes] at hn
  rcases List.mem_append.mp (List.mem_of_getElem? hn) with hmem | hmem
  · rw [role_data n hmem] at hr
    cases hr
  · rcases List.mem_append.mp hmem with hmem | hmem
    · rw [role_check _ n hmem] at hr
      cases hr
    · rw [role_check _ n hmem] at hr
      cases hr

theorem exists_element {n : Nat} (h : n < s.l * s.m) : ∃ g ∈ s.elements, s.left g = n := by
  obtain ⟨j, i, hj, hi, rfl⟩ := exists_cell h
  exact ⟨((i : Int), (j : Int)), mem_elements.mpr ⟨⟨by simp only; omega, by simp only; omega⟩, by simp only; omega,
    by simp only; omega⟩, left_cell hi hj⟩

theorem exists_datum {q : Nat} (h : q ∈ s.bicycle.dataQubits) : ∃ half p, q = s.datum half p := by
  rw [dataQubits_bicycle, List.mem_range] at h
  by_cases hleft : q < s.l * s.m
  · obtain ⟨g, -, hg⟩ := exists_element hleft
    exact ⟨.left, g, hg.symm⟩
  · obtain ⟨g, -, hg⟩ := exists_element (s := s) (n := q - s.l * s.m) (by omega)
    refine ⟨.right, g, ?_⟩
    show q = s.l * s.m + s.left g
    omega

theorem check_cases {b : CheckBasis} {q : Nat} (h : q ∈ s.bicycle.checkQubits b) :
    b ≠ .y ∧ ∃ g ∈ s.elements, q = s.checkAt b g := by
  cases b with
  | x =>
    rw [xChecks_bicycle, List.mem_range'_1] at h
    obtain ⟨g, hg, hleft⟩ := exists_element (s := s) (n := q - 2 * (s.l * s.m)) (by omega)
    refine ⟨by decide, g, hg, ?_⟩
    simp only [checkAt]
    omega
  | y =>
    rw [yChecks_bicycle] at h
    cases h
  | z =>
    rw [zChecks_bicycle, List.mem_range'_1] at h
    obtain ⟨g, hg, hleft⟩ := exists_element (s := s) (n := q - 3 * (s.l * s.m)) (by omega)
    refine ⟨by decide, g, hg, ?_⟩
    simp only [checkAt]
    omega

section Orders

variable (hv : s.Valid)

include hv

theorem node?_datum (half : Half) (p : Int × Int) :
    s.bicycle.node? (s.datum half p) = some (dataNode half (p.1 % s.l, p.2 % s.m)) := by
  rw [bicycle, Graph.node?_ofNodes]
  exact getElem?_datum hv half p _

theorem node?_check {b : CheckBasis} (hb : b ≠ .y) {g : Int × Int} (hg : g ∈ s.elements) :
    s.bicycle.node? (s.checkAt b g) = some (s.checkNode b g) := by
  have hlt := left_lt hv g
  rw [bicycle, Graph.node?_ofNodes, nodes, List.getElem?_append_right, List.length_append, length_map_elements,
    length_map_elements]
  · cases b with
    | x =>
      have hindex : s.checkAt .x g - (s.l * s.m + s.l * s.m) = s.left g := by
        simp only [checkAt]
        omega
      rw [hindex, List.getElem?_append_left (by rwa [length_map_elements]), getElem?_map hv, norm_eq hg]
    | y => exact absurd rfl hb
    | z =>
      have hindex : s.checkAt .z g - (s.l * s.m + s.l * s.m) = s.l * s.m + s.left g := by
        simp only [checkAt]
        omega
      rw [hindex, List.getElem?_append_right (by rw [length_map_elements]; exact Nat.le_add_right _ _),
        length_map_elements, Nat.add_sub_cancel_left, getElem?_map hv, norm_eq hg]
  · rw [List.length_append, length_map_elements, length_map_elements]
    cases b <;> simp only [checkAt] <;> omega

theorem checkAt_mem {b : CheckBasis} (hb : b ≠ .y) {g : Int × Int} (hg : g ∈ s.elements) :
    s.checkAt b g ∈ s.bicycle.checkQubits b :=
  Graph.mem_checkQubits.mpr ⟨_, node?_check hv hb hg, rfl⟩

theorem checkAt_eq_iff {b : CheckBasis} {g g' : Int × Int} : s.checkAt b g = s.checkAt b g' ↔ s.cls g = s.cls g' := by
  rw [← left_eq_iff hv]
  cases b <;> simp only [checkAt] <;> omega

theorem links_check {b : CheckBasis} (hb : b ≠ .y) {g : Int × Int} (hg : g ∈ s.elements) :
    s.bicycle.links (s.checkAt b g) = linksFrom (firstOrder b) (s.reached b g) :=
  Graph.links_of_node (node?_check hv hb hg)

theorem support_check {b : CheckBasis} (hb : b ≠ .y) {g : Int × Int} (hg : g ∈ s.elements) :
    s.bicycle.support (s.checkAt b g) = s.reached b g := by
  rw [Graph.support_check (Graph.not_isData_of_check (checkAt_mem hv hb hg)), links_check hv hb hg, linksFrom,
    List.map_map]
  exact List.zipIdx_map_fst _ _

/-! ## Weights and degrees -/

/-- A check has a data qubit if one of its shifts to that half leads there. -/
theorem datum_mem_reached {b : CheckBasis} {g p : Int × Int} {half : Half} :
    s.datum half p ∈ s.reached b g ↔ ∃ e, (half, e) ∈ s.shifts b ∧ s.cls p = s.cls g + s.cls e := by
  rw [reached, List.mem_map]
  constructor
  · intro h
    obtain ⟨⟨half', e⟩, hu, he⟩ := h
    obtain ⟨rfl, hcls⟩ := (datum_eq_iff hv).mp he
    exact ⟨e, hu, by rw [← hcls, cls_add]⟩
  · intro h
    obtain ⟨e, hu, hcls⟩ := h
    exact ⟨(half, e), hu, (datum_eq_iff hv).mpr ⟨rfl, by rw [cls_add, hcls]⟩⟩

/-- The checks of a basis that have a data qubit are as many as their shifts to its half. -/
theorem degree_eq {b : CheckBasis} (hb : b ≠ .y) (half : Half) (p : Int × Int) :
    ((s.bicycle.checkQubits b).filter (s.datum half p ∈ s.bicycle.support ·)).length =
      ((s.shifts b).filter (·.1 = half)).length := by
  have hperm : ((s.bicycle.checkQubits b).filter (s.datum half p ∈ s.bicycle.support ·)).Perm
      (((s.shifts b).filter (·.1 = half)).map fun u => s.checkAt b (p - u.2)) := by
    refine (List.perm_ext_iff_of_nodup ((Graph.checkQubits_nodup b).filter _) ?_).mpr fun c => ?_
    · have hapart := (List.pairwise_map.mp (shifts_apart hv b)).filter (·.1 = half)
      refine List.pairwise_map.mpr (hapart.imp_of_mem fun {u u'} hu hu' hne he => hne ?_)
      have h1 : u.1 = half := by simpa using (List.mem_filter.mp hu).2
      have h2 : u'.1 = half := by simpa using (List.mem_filter.mp hu').2
      have hcls := (checkAt_eq_iff hv).mp he
      rw [cls_sub, cls_sub, sub_right_inj] at hcls
      exact Prod.ext (h1.trans h2.symm) hcls
    · rw [List.mem_filter, decide_eq_true_eq, List.mem_map]
      constructor
      · intro h
        obtain ⟨-, g, hg, rfl⟩ := check_cases h.1
        rw [support_check hv hb hg] at h
        obtain ⟨e, hu, hcls⟩ := (datum_mem_reached hv).mp h.2
        refine ⟨(half, e), List.mem_filter.mpr ⟨hu, by simp⟩, (checkAt_eq_iff hv).mpr ?_⟩
        rw [cls_sub, hcls, add_sub_cancel_right]
      · intro h
        obtain ⟨u, hu, rfl⟩ := h
        obtain ⟨hmem, hhalf⟩ := List.mem_filter.mp hu
        have hhalf' : u.1 = half := by simpa using hhalf
        have hg := norm_mem hv (p - u.2)
        have hnorm : s.checkAt b (p - u.2) = s.checkAt b ((p - u.2).1 % s.l, (p - u.2).2 % s.m) := by
          rw [checkAt_eq_iff hv]
          simp [cls]
        rw [hnorm, support_check hv hb hg]
        refine ⟨checkAt_mem hv hb hg, (datum_mem_reached hv).mpr ⟨u.2, hhalf' ▸ hmem, ?_⟩⟩
        have hcls := (checkAt_eq_iff hv).mp hnorm
        rw [← hcls, cls_sub, sub_add_cancel]
  rw [hperm.length_eq, List.length_map]

/-! ## What checks share -/

omit hv in
/-- Of two lists of group elements the pairs with a given sum are as many from either side. -/
theorem length_pairs {G : Type} [AddCommGroup G] [BEq G] [LawfulBEq G] {xs ys : List G} (hx : xs.Nodup) (hy : ys.Nodup) (δ : G) :
    (xs.filter (δ - · ∈ ys)).length = (ys.filter (δ - · ∈ xs)).length := by
  have hperm : ((xs.filter (δ - · ∈ ys)).map (δ - ·)).Perm (ys.filter (δ - · ∈ xs)) := by
    refine (List.perm_ext_iff_of_nodup ((hx.filter _).map sub_right_injective) (hy.filter _)).mpr fun y => ?_
    simp only [List.mem_map, List.mem_filter, decide_eq_true_eq]
    constructor
    · intro h
      obtain ⟨x, ⟨hmem, hpair⟩, rfl⟩ := h
      exact ⟨hpair, by rwa [sub_sub_cancel]⟩
    · intro h
      exact ⟨δ - y, ⟨h.2, by rw [sub_sub_cancel]; exact h.1⟩, sub_sub_cancel δ y⟩
  rw [← hperm.length_eq, List.length_map]

theorem cls_terms_nodup {ts : List Monomial} (h : (ts.map s.reduce).Nodup) :
    (ts.map fun t => s.cls (s.exponents t)).Nodup :=
  List.pairwise_map.mpr ((List.pairwise_map.mp h).imp fun hne he => hne (cls_exponents_inj hv he))

/-- A Z check at `h` has the data qubit that a term leads to from `g`, if another term of the
    other polynomial makes up for what is left of `h - g`. -/
theorem reached_z_iff {g h : Int × Int} {half : Half} {t : Monomial} :
    s.datum half (g + s.exponents t) ∈ s.reached .z h ↔
      s.cls h - s.cls g - s.cls (s.exponents t) ∈ (s.terms half.other).map fun u => s.cls (s.exponents u) := by
  rw [datum_mem_reached hv, List.mem_map, cls_add]
  constructor
  · intro hmem
    obtain ⟨e, he, hcls⟩ := hmem
    obtain ⟨u, hu, rfl⟩ := mem_shifts_z.mp he
    rw [cls_neg] at hcls
    exact ⟨u, hu, by linear_combination hcls⟩
  · intro hmem
    obtain ⟨u, hu, hcls⟩ := hmem
    refine ⟨_, mem_shifts_z.mpr ⟨u, hu, rfl⟩, ?_⟩
    rw [cls_neg]
    linear_combination hcls

/-- The left data qubits that an X check at `g` and a Z check at `h` share, and the right
    ones, are the pairs of terms of A and B that add up to `h - g`. -/
theorem shared_even {g h : Int × Int} (hg : g ∈ s.elements) (hh : h ∈ s.elements) :
    Even (s.bicycle.shared (s.checkAt .x g) (s.checkAt .z h)).length := by
  have hhalf : ∀ half : Half, (((s.terms half).map fun t => s.datum half (g + s.exponents t)).filter
        (· ∈ s.reached .z h)).length =
      (((s.terms half).map fun t => s.cls (s.exponents t)).filter fun x =>
        s.cls h - s.cls g - x ∈ (s.terms half.other).map fun u => s.cls (s.exponents u)).length := by
    intro half
    rw [List.filter_map, List.filter_map, List.length_map, List.length_map]
    refine congrArg List.length (List.filter_congr fun t _ => ?_)
    simp only [Function.comp_apply, reached_z_iff hv]
  have hsupport : s.bicycle.support (s.checkAt .x g) = (s.a.map fun t => s.datum .left (g + s.exponents t)) ++
      s.b.map fun t => s.datum .right (g + s.exponents t) := by
    rw [support_check hv (by decide) hg, reached, shifts, List.map_append, List.map_map, List.map_map]
    rfl
  have hpairs := length_pairs (cls_terms_nodup hv hv.aNodup) (cls_terms_nodup hv hv.bNodup) (s.cls h - s.cls g)
  rw [Graph.shared, support_check hv (by decide : CheckBasis.z ≠ .y) hh, hsupport, List.filter_append,
    List.length_append]
  exact ⟨_, congrArg₂ (· + ·) ((hhalf .left).trans hpairs) (hhalf .right)⟩

/-! ## The schedule -/

omit hv in
theorem mem_linksFrom {first k q : Nat} {data : List Qubit} :
    ⟨k, q⟩ ∈ linksFrom first data ↔ ∃ n, data[n]? = some q ∧ k = first + n := by
  rw [linksFrom, List.mem_map]
  constructor
  · intro h
    obtain ⟨⟨q', k'⟩, hmem, he⟩ := h
    cases he
    obtain ⟨hle, -, hget⟩ := List.mem_zipIdx hmem
    refine ⟨k - first, ?_, by omega⟩
    rw [hget, List.getElem?_eq_getElem]
  · intro h
    obtain ⟨n, hn, rfl⟩ := h
    exact ⟨(q, first + n), List.mk_add_mem_zipIdx_iff_getElem?.mpr hn, rfl⟩

omit hv in
/-- The six orders of X checks come before the six of Z checks. -/
theorem order_unique {b b' : CheckBasis} {n n' : Nat} (hy : b ≠ .y) (hy' : b' ≠ .y) (hn : n < 6) (hn' : n' < 6)
    (h : firstOrder b + n = firstOrder b' + n') : b = b' ∧ n = n' := by
  cases b with
  | x =>
    cases b' with
    | x => exact ⟨rfl, Nat.add_left_cancel h⟩
    | y => exact absurd rfl hy'
    | z =>
      simp only [firstOrder] at h
      omega
  | y => exact absurd rfl hy
  | z =>
    cases b' with
    | x =>
      simp only [firstOrder] at h
      omega
    | y => exact absurd rfl hy'
    | z => exact ⟨rfl, Nat.add_left_cancel h⟩

/-- The order of an interaction names its basis and its shift, and that its check. -/
theorem reach_unique (ha : s.a.length = 3) (hb : s.b.length = 3) {b b' : CheckBasis} {c c' k data : Nat}
    (hc : c ∈ s.bicycle.checkQubits b) (hc' : c' ∈ s.bicycle.checkQubits b') (hlink : ⟨k, data⟩ ∈ s.bicycle.links c)
    (hlink' : ⟨k, data⟩ ∈ s.bicycle.links c') : c = c' := by
  obtain ⟨hy, g, hg, rfl⟩ := check_cases hc
  obtain ⟨hy', g', hg', rfl⟩ := check_cases hc'
  rw [links_check hv hy hg, mem_linksFrom] at hlink
  rw [links_check hv hy' hg', mem_linksFrom] at hlink'
  obtain ⟨n, hn, hk⟩ := hlink
  obtain ⟨n', hn', hk'⟩ := hlink'
  have hlt := (List.getElem?_eq_some_iff.mp hn).1
  have hlt' := (List.getElem?_eq_some_iff.mp hn').1
  rw [length_reached ha hb hy] at hlt
  rw [length_reached ha hb hy'] at hlt'
  obtain ⟨rfl, rfl⟩ := order_unique hy hy' hlt hlt' (hk.symm.trans hk')
  rw [reached, List.getElem?_map, Option.map_eq_some_iff] at hn hn'
  obtain ⟨u, hu, he⟩ := hn
  obtain ⟨u', hu', he'⟩ := hn'
  rw [hu] at hu'
  cases hu'
  have hcls := ((datum_eq_iff hv).mp (he.trans he'.symm)).2
  rw [cls_add, cls_add, add_left_inj] at hcls
  exact (checkAt_eq_iff hv).mpr hcls

theorem bicycle_noConflict (ha : s.a.length = 3) (hb : s.b.length = 3) {bases : List CheckBasis} (hn : bases.Nodup) :
    Layout.NoConflict s.bicycle bases :=
  Layout.noConflict_of_reach (bicycle_built hv).sound hn fun _ _ _ _ _ _ hc hc' hlink hlink' =>
    reach_unique hv ha hb hc hc' hlink hlink'

omit hv in
theorem bicycle_declares : Layout.Declares [.z, .x] s.bicycle := by
  intro q n b hn hr
  obtain ⟨hy, -⟩ := check_cases (s := s) (Graph.mem_checkQubits.mpr ⟨n, hn, hr⟩)
  cases b with
  | x => exact ⟨by decide, by decide⟩
  | y => exact absurd rfl hy
  | z => exact ⟨by decide, by decide⟩

/-! ## The whole code -/

omit hv in
theorem interactions_linksFrom (first : Nat) (data : List Qubit) :
    (linksFrom first data).map (fun l => (l.order, l.data)) = (data.zipIdx first).map fun (q, k) => (k, q) := by
  rw [linksFrom, List.map_map]
  rfl

omit hv in
theorem cls_exponents (t : Monomial) : s.cls (s.exponents t) = s.cls (t.x, t.y) := by
  simp only [cls, exponents, reduce, Int.cast_natCast, ZMod.natCast_mod]

theorem left_plus (g : Int × Int) (t : Monomial) : s.left (g + s.exponents t) = s.left (g.1 + t.x, g.2 + t.y) := by
  rw [left_eq_iff hv, cls_add, cls_exponents, ← cls_add]
  rfl

theorem left_minus (g : Int × Int) (t : Monomial) : s.left (g + -s.exponents t) = s.left (g.1 - t.x, g.2 - t.y) := by
  rw [left_eq_iff hv, cls_add, cls_neg, cls_exponents, ← cls_neg, ← cls_add]
  rfl

omit hv in
theorem interactions_runs (first : Nat) (ts us : List Monomial) (f f' : Monomial → Qubit) :
    ((ts.map f ++ us.map f').zipIdx first).map (fun (q, k) => (k, q)) =
      (ts.zipIdx first).map (fun (t, k) => (k, f t)) ++ (us.zipIdx (first + ts.length)).map fun (u, k) => (k, f' u) := by
  rw [List.zipIdx_append, List.map_append, List.length_map, List.zipIdx_map, List.zipIdx_map, List.map_map, List.map_map]
  rfl

theorem xInteractions_eq (ha : s.a.length = 3) {g : Int × Int} (hg : g ∈ s.elements) :
    s.bicycle.interactions (s.checkAt .x g) =
      (s.a.zipIdx 1).map (fun (t, k) => (k, s.left (g.1 + t.x, g.2 + t.y))) ++
        (s.b.zipIdx 4).map fun (t, k) => (k, s.right (g.1 + t.x, g.2 + t.y)) := by
  have hreached : s.reached .x g = (s.a.map fun t => s.left (g.1 + t.x, g.2 + t.y)) ++
      s.b.map fun t => s.right (g.1 + t.x, g.2 + t.y) := by
    rw [reached, shifts, List.map_append, List.map_map, List.map_map]
    simp only [Function.comp_def, datum, right, left_plus hv]
  rw [Graph.interactions_check (Graph.not_isData_of_check (checkAt_mem hv (by decide) hg)),
    links_check hv (by decide) hg, interactions_linksFrom, hreached, interactions_runs, ha]
  rfl

theorem zInteractions_eq (hb : s.b.length = 3) {g : Int × Int} (hg : g ∈ s.elements) :
    s.bicycle.interactions (s.checkAt .z g) =
      (s.b.zipIdx 7).map (fun (t, k) => (k, s.left (g.1 - t.x, g.2 - t.y))) ++
        (s.a.zipIdx 10).map fun (t, k) => (k, s.right (g.1 - t.x, g.2 - t.y)) := by
  have hreached : s.reached .z g = (s.b.map fun t => s.left (g.1 - t.x, g.2 - t.y)) ++
      s.a.map fun t => s.right (g.1 - t.x, g.2 - t.y) := by
    rw [reached, shifts, List.map_append, List.map_map, List.map_map]
    simp only [Function.comp_def, datum, right, left_minus hv]
  rw [Graph.interactions_check (Graph.not_isData_of_check (checkAt_mem hv (by decide) hg)),
    links_check hv (by decide) hg, interactions_linksFrom, hreached, interactions_runs, hb]
  rfl

end Orders

/-- The graph of a bivariate bicycle code: its qubits by their group elements, what each
    check touches and when, that all checks commute, and that they can be scheduled. -/
structure Realizes (s : BicycleSpec) (g : Graph) : Prop where
  data : g.dataQubits = List.range (2 * (s.l * s.m))
  leftData : ∀ i j : Nat, i < s.l → j < s.m →
    g.node? (i * s.m + j) = some ⟨.data, some (leftSite (i, j)), some "L", []⟩
  rightData : ∀ i j : Nat, i < s.l → j < s.m →
    g.node? (s.l * s.m + (i * s.m + j)) = some ⟨.data, some (rightSite (i, j)), some "R", []⟩
  xChecks : g.checkQubits .x = List.range' (2 * (s.l * s.m)) (s.l * s.m)
  zChecks : g.checkQubits .z = List.range' (3 * (s.l * s.m)) (s.l * s.m)
  xInteractions : ∀ i j : Nat, i < s.l → j < s.m →
    g.interactions (2 * (s.l * s.m) + (i * s.m + j)) =
      (s.a.zipIdx 1).map (fun (t, k) => (k, s.left (i + t.x, j + t.y))) ++
        (s.b.zipIdx 4).map fun (t, k) => (k, s.right (i + t.x, j + t.y))
  zInteractions : ∀ i j : Nat, i < s.l → j < s.m →
    g.interactions (3 * (s.l * s.m) + (i * s.m + j)) =
      (s.b.zipIdx 7).map (fun (t, k) => (k, s.left (i - t.x, j - t.y))) ++
        (s.a.zipIdx 10).map fun (t, k) => (k, s.right (i - t.x, j - t.y))
  weights : ∀ b, ∀ c ∈ g.checkQubits b, (g.support c).Nodup ∧ (g.support c).length = 6
  degrees : ∀ q ∈ g.dataQubits, ((g.checkQubits .x).filter (q ∈ g.support ·)).length = 3 ∧
    ((g.checkQubits .z).filter (q ∈ g.support ·)).length = 3
  commutes : ∀ x ∈ g.checkQubits .x, ∀ z ∈ g.checkQubits .z, Even (g.shared x z).length
  orthogonal : g.incidence .x * (g.incidence .z).transpose = 0
  -- A basis listed twice would meet its own checks at every order.
  noConflict : ∀ bases : List CheckBasis, bases.Nodup → ∀ policy k q,
    Layout.ofGraph g bases policy ≠ .error (.layerConflict k q)
  layout : ∀ policy, ∃ l, Layout.ofGraph g [.z, .x] policy = .ok l

theorem bicycle_realizes (hv : s.Valid) (ha : s.a.length = 3) (hb : s.b.length = 3) : s.Realizes s.bicycle := by
  have hlisted : ∀ i j : Nat, i < s.l → j < s.m → ((i : Int), (j : Int)) ∈ s.elements := by
    intro i j hi hj
    exact mem_elements.mpr ⟨⟨by simp only; omega, by simp only; omega⟩, by simp only; omega, by simp only; omega⟩
  have hdatum : ∀ (half : Half) (i j : Nat), i < s.l → j < s.m →
      s.bicycle.node? (s.datum half (i, j)) = some (dataNode half (i, j)) := by
    intro half i j hi hj
    rw [node?_datum hv, norm_eq (hlisted i j hi hj)]
  have heven : ∀ x ∈ s.bicycle.checkQubits .x, ∀ z ∈ s.bicycle.checkQubits .z, Even (s.bicycle.shared x z).length := by
    intro x hx z hz
    obtain ⟨-, g, hg, rfl⟩ := check_cases hx
    obtain ⟨-, h, hh, rfl⟩ := check_cases hz
    exact shared_even hv hg hh
  refine ⟨dataQubits_bicycle, fun i j hi hj => ?_, fun i j hi hj => ?_, xChecks_bicycle, zChecks_bicycle,
    fun i j hi hj => ?_, fun i j hi hj => ?_, fun b c hc => ?_, fun q hq => ?_, heven,
    Graph.incidence_orthogonal (bicycle_built hv).sound heven, fun bases hn policy k q => ?_, fun policy => ?_⟩
  · rw [← left_cell hi hj]
    exact hdatum .left i j hi hj
  · rw [← left_cell hi hj]
    exact hdatum .right i j hi hj
  · rw [← left_cell hi hj]
    exact xInteractions_eq hv ha (hlisted i j hi hj)
  · rw [← left_cell hi hj]
    exact zInteractions_eq hv hb (hlisted i j hi hj)
  · obtain ⟨hy, g, hg, rfl⟩ := check_cases hc
    rw [support_check hv hy hg]
    exact ⟨reached_nodup hv b g, length_reached ha hb hy g⟩
  · obtain ⟨half, p, rfl⟩ := exists_datum hq
    obtain ⟨hx, hz⟩ := length_halfShifts (s := s) half
    rw [degree_eq hv (by decide), degree_eq hv (by decide), hx, hz]
    cases half with
    | left => exact ⟨ha, hb⟩
    | right => exact ⟨hb, ha⟩
  · exact Layout.ofGraph_ne_layerConflict (bicycle_noConflict hv ha hb hn) policy k q
  · exact Layout.ofGraph_total bicycle_declares (bicycle_noConflict hv ha hb (by decide)) policy

/-- Every valid choice of polynomials, of three terms each, has its code's graph. -/
theorem graph_realizes (ha : s.a.length = 3) (hb : s.b.length = 3) (h : s.validate = .ok ()) :
    ∃ g, s.graph = .ok g ∧ s.Realizes g :=
  ⟨s.bicycle, graph_eq (valid_of_validate h), bicycle_realizes (valid_of_validate h) ha hb⟩

/-- On the torus of two by two, where y³ is y. -/
theorem graph_realizes_two :
    ∃ g, graph ⟨2, 2, [⟨0, 0⟩, ⟨1, 0⟩, ⟨0, 3⟩], [⟨0, 0⟩, ⟨1, 1⟩, ⟨0, 1⟩]⟩ = .ok g ∧
      Realizes ⟨2, 2, [⟨0, 0⟩, ⟨1, 0⟩, ⟨0, 3⟩], [⟨0, 0⟩, ⟨1, 1⟩, ⟨0, 1⟩]⟩ g ∧
      g.interactions 8 = [(1, 0), (2, 2), (3, 1), (4, 4), (5, 7), (6, 5)] := by
  obtain ⟨g, hgraph, hrealizes⟩ := graph_realizes
    (s := ⟨2, 2, [⟨0, 0⟩, ⟨1, 0⟩, ⟨0, 3⟩], [⟨0, 0⟩, ⟨1, 1⟩, ⟨0, 1⟩]⟩) (by decide) (by decide) (by rfl)
  exact ⟨g, hgraph, hrealizes, hrealizes.xInteractions 0 0 (by decide) (by decide)⟩

end BicycleSpec

end QuantumMemory

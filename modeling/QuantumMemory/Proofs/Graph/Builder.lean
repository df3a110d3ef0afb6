/-
  QuantumMemory.Proofs.Graph.Builder — graphs laid out on the plane or a torus, node by node.

  A graph is the list of its nodes (`ofNodes`). Adding qubits at new places appends nodes
  (`addAll_ok`), and joining a run of checks gives each of them the links that its diagonals
  plan for (`joinAll_ok`). What is planned depends on the roles and the places of the nodes
  and not on their links (`diagonalPlan_congr`), so joining one check leaves the plans of
  the others as they were. What adding a qubit and adding an interaction keep, building
  keeps (`addAll_keeps`, `joinAll_keeps`).
-/

import QuantumMemory.Lattice.Builder
import QuantumMemory.Proofs.Graph.Built
import QuantumMemory.Proofs.Success

namespace QuantumMemory

namespace Graph

def ofNodes (nodes : List Node) : Graph := ⟨nodes.toArray⟩

variable {nodes : List Node}

theorem node?_ofNodes (nodes : List Node) (q : Qubit) : (ofNodes nodes).node? q = nodes[q]? := by
  simp [ofNodes, node?]

theorem size_ofNodes (nodes : List Node) : (ofNodes nodes).size = nodes.length := by simp [ofNodes, size]

theorem find?_ofNodes (nodes : List Node) (c : Coordinate) :
    (ofNodes nodes).find? c = (nodes.map (·.coordinate)).findIdx? (· == some c) := by
  rw [find?, ofNodes, List.findIdx?_toArray, List.findIdx?_map]
  rfl

theorem isData_ofNodes (nodes : List Node) (q : Qubit) :
    (ofNodes nodes).isData q = ((nodes.map (·.role))[q]?).any Role.isData := by
  rw [isData, role?, node?_ofNodes, List.getElem?_map]

theorem find?_some {g : Graph} {c : Coordinate} {q : Qubit} (h : g.find? c = some q) :
    ∃ n, g.node? q = some n ∧ n.coordinate = some c := by
  obtain ⟨hlt, hq, -⟩ := Array.findIdx?_eq_some_iff_getElem.mp h
  exact ⟨_, Array.getElem?_eq_getElem hlt, by simpa using hq⟩

theorem find?_eq_some {nodes : List Node} (hn : (nodes.map (·.coordinate)).Nodup) {q : Qubit} {n : Node}
    (hq : nodes[q]? = some n) {c : Coordinate} (hc : n.coordinate = some c) : (ofNodes nodes).find? c = some q := by
  have hmap : (nodes.map (·.coordinate))[q]? = some (some c) := by rw [List.getElem?_map, hq, Option.map_some, hc]
  obtain ⟨hlt, hget⟩ := List.getElem?_eq_some_iff.mp hmap
  rw [find?_ofNodes, List.findIdx?_eq_some_iff_getElem]
  refine ⟨hlt, by simpa using hget, fun i hi => ?_⟩
  rw [← hget, Bool.not_eq_true, beq_eq_false_iff_ne]
  intro he
  have heq := (List.getElem_inj hn).mp he
  omega

theorem modify_ofNodes (pre : List Node) (n : Node) (post : List Node) (f : Node → Node) :
    (⟨(ofNodes (pre ++ n :: post)).nodes.modify pre.length f⟩ : Graph) = ofNodes (pre ++ f n :: post) := by
  have hmodify : (pre ++ n :: post).modify pre.length f = pre ++ f n :: post :=
    List.modifyTailIdx_add (List.modifyHead f) 0 pre (n :: post)
  rw [ofNodes, List.modify_toArray, hmodify, ofNodes]

/-- Where the nodes that `p` holds of stand in a row, their numbers do as well. -/
theorem qubitsWhere_run {p : Node → Bool} (pre mid post : List Node) (hpre : ∀ n ∈ pre, p n = false)
    (hmid : ∀ n ∈ mid, p n = true) (hpost : ∀ n ∈ post, p n = false) :
    (ofNodes (pre ++ (mid ++ post))).qubitsWhere p = List.range' pre.length mid.length := by
  have hnone : ∀ (ns : List Node) (k : Nat), (∀ n ∈ ns, p n = false) →
      (ns.zipIdx k).filterMap (fun e => if p e.1 then some e.2 else none) = [] := by
    intro ns k h
    refine List.filterMap_eq_nil_iff.mpr fun a ha => ?_
    simp [h a.1 (List.fst_mem_of_mem_zipIdx ha)]
  have hall : (mid.zipIdx pre.length).filterMap (fun e => if p e.1 then some e.2 else none) =
      (mid.zipIdx pre.length).map (·.2) := by
    rw [← List.filterMap_eq_map]
    refine List.filterMap_congr fun a ha => ?_
    simp [hmid a.1 (List.fst_mem_of_mem_zipIdx ha)]
  show ((pre ++ (mid ++ post)).zipIdx).filterMap (fun e => if p e.1 then some e.2 else none) = _
  simp only [List.zipIdx_append, List.filterMap_append, hnone pre _ hpre, hnone post _ hpost,
    Nat.zero_add, hall, List.zipIdx_map_snd, List.nil_append, List.append_nil]

/-! ## One interaction -/

theorem insertLink_last {link : Link} {links : List Link} (h : ∀ l ∈ links, l.order < link.order) :
    insertLink link links = links ++ [link] := by
  induction links with
  | nil => rfl
  | cons other rest ih =>
    obtain ⟨hother, hrest⟩ := List.forall_mem_cons.mp h
    rw [insertLink, if_neg (Nat.not_lt_of_lt hother), ih hrest, List.cons_append]

theorem clash?_eq_none {check : Qubit} {link : Link} {links : List Link}
    (h : ∀ l ∈ links, l.data ≠ link.data ∧ l.order ≠ link.order) : clash? check link links = none := by
  refine List.findSome?_eq_none_iff.mpr fun l hl => ?_
  obtain ⟨hd, ho⟩ := h l hl
  rw [if_neg hd, if_neg ho]

/-- A later interaction with another data qubit goes to the end. -/
theorem addInteraction_last {pre post : List Node} {n : Node} (hrole : n.role.isData = false) {data : Qubit} {order : Nat}
    (hdata : (ofNodes (pre ++ n :: post)).isData data = true) (hpos : 0 < order)
    (horder : ∀ l ∈ n.links, l.order < order) (hnew : ∀ l ∈ n.links, l.data ≠ data) :
    (ofNodes (pre ++ n :: post)).addInteraction pre.length data order =
      .ok (ofNodes (pre ++ { n with links := n.links ++ [⟨order, data⟩] } :: post)) := by
  have hnode : (ofNodes (pre ++ n :: post)).node? pre.length = some n := by
    rw [node?_ofNodes, List.getElem?_append_right (Nat.le_refl _), Nat.sub_self, List.getElem?_cons_zero]
  obtain ⟨m, hm, hr⟩ := isData_iff.mp hdata
  have hclash : clash? pre.length ⟨order, data⟩ n.links = none :=
    clash?_eq_none fun l hl => ⟨hnew l hl, Nat.ne_of_lt (horder l hl)⟩
  have hzero : order ≠ 0 := Nat.pos_iff_ne_zero.mp hpos
  simp only [addInteraction, hnode, hrole, role?, hm, Option.map_some, hr, hzero, hclash, Bool.not_true,
    Bool.false_eq_true, if_false]
  rw [modify_ofNodes, insertLink_last horder]

end Graph

namespace LatticeBuilder

open QuantumMemory.Graph

/-! ## Adding qubits -/

/-- A qubit without interactions. -/
def bare (role : Role) (c : Coordinate) : Node := ⟨role, some c, none, []⟩

def unjoined (role : Role) (label : Option String) (c : Coordinate) : Node := ⟨role, some c, label, []⟩

theorem add_ok {nodes : List Node} {boundary : Boundary} (role : Role) (label : Option String) {c : Coordinate}
    (hwrap : boundary.wrap c = .ok c) (h : ∀ n ∈ nodes, n.coordinate ≠ some c) :
    (⟨ofNodes nodes, boundary⟩ : LatticeBuilder).add role c label =
      .ok (⟨ofNodes (nodes ++ [unjoined role label c]), boundary⟩, nodes.length) := by
  have hfree : (ofNodes nodes).find? c = none := by
    rw [find?_ofNodes, List.findIdx?_eq_none_iff]
    intro p hp
    obtain ⟨n, hn, rfl⟩ := List.mem_map.mp hp
    simpa using h n hn
  have hadd : (ofNodes nodes).addQubit role (some c) label = .ok (_, (ofNodes nodes).size) :=
    addQubit_fresh role label fun c' hc' => by
      cases hc'
      exact hfree
  rw [size_ofNodes] at hadd
  simp only [add, hwrap, bind, Except.bind, pure, Except.pure]
  rw [hadd]
  simp [ofNodes, unjoined]

/-- Qubits at new places that the boundary keeps become the last nodes. -/
theorem addEach_ok (nodes : List Node) (boundary : Boundary) (role : Role) (label : Option String)
    {coordinates : List Coordinate} (hwrap : ∀ c ∈ coordinates, boundary.wrap c = .ok c)
    (h : ((nodes ++ coordinates.map (unjoined role label)).map (·.coordinate)).Nodup) :
    coordinates.foldlM (fun b c => do return (← b.add role c label).1) (⟨ofNodes nodes, boundary⟩ : LatticeBuilder) =
      (.ok ⟨ofNodes (nodes ++ coordinates.map (unjoined role label)), boundary⟩ : Except CodeError LatticeBuilder) := by
  induction coordinates generalizing nodes with
  | nil => simp [pure, Except.pure]
  | cons c rest ih =>
    obtain ⟨hc, hwraps⟩ := List.forall_mem_cons.mp hwrap
    have hfresh : ∀ n ∈ nodes, n.coordinate ≠ some c := by
      intro n hn he
      rw [List.map_append] at h
      exact (List.nodup_append.mp h).2.2 _ (List.mem_map_of_mem hn) _ List.mem_cons_self he
    have hrest : (((nodes ++ [unjoined role label c]) ++ rest.map (unjoined role label)).map (·.coordinate)).Nodup := by
      simpa using h
    rw [List.foldlM_cons, add_ok role label hc hfresh]
    refine (ih _ hwraps hrest).trans ?_
    rw [List.append_assoc]
    rfl

theorem addAll_ok (nodes : List Node) (boundary : Boundary) (role : Role) {coordinates : List Coordinate}
    (hwrap : ∀ c ∈ coordinates, boundary.wrap c = .ok c)
    (h : ((nodes ++ coordinates.map (bare role)).map (·.coordinate)).Nodup) :
    (⟨ofNodes nodes, boundary⟩ : LatticeBuilder).addAll role coordinates =
      .ok ⟨ofNodes (nodes ++ coordinates.map (bare role)), boundary⟩ := addEach_ok nodes boundary role none hwrap h

/-! ## Joining checks -/

/-- What a plan is made from: the role and the place of a node. -/
def place (n : Node) : Role × Option Coordinate := (n.role, n.coordinate)

def linksOf (plan : List (Nat × Qubit)) : List Link := plan.map fun (order, data) => ⟨order, data⟩

/-- A check with the links that are planned for its place. -/
def joined (b : LatticeBuilder) (directions : List Nat) (n : Node) : Node :=
  { n with links := match n.coordinate with
      | some c => linksOf (b.diagonalPlan c directions 1)
      | none => [] }

theorem find?_congr {nodes nodes' : List Node} (h : nodes.map place = nodes'.map place) (c : Coordinate) :
    (ofNodes nodes).find? c = (ofNodes nodes').find? c := by
  have hmap := congrArg (List.map Prod.snd) h
  simp only [List.map_map] at hmap
  rw [find?_ofNodes, find?_ofNodes]
  exact congrArg (List.findIdx? _) hmap

theorem isData_congr {nodes nodes' : List Node} (h : nodes.map place = nodes'.map place) (q : Qubit) :
    (ofNodes nodes).isData q = (ofNodes nodes').isData q := by
  have hmap := congrArg (List.map Prod.fst) h
  simp only [List.map_map] at hmap
  rw [isData_ofNodes, isData_ofNodes]
  exact congrArg (fun roles => (roles[q]?).any Role.isData) hmap

theorem diagonalPlan_congr {nodes nodes' : List Node} (h : nodes.map place = nodes'.map place) (c : Coordinate)
    (directions : List Nat) :
    (⟨ofNodes nodes, .open⟩ : LatticeBuilder).diagonalPlan c directions 1 =
      (⟨ofNodes nodes', .open⟩ : LatticeBuilder).diagonalPlan c directions 1 := by
  simp only [diagonalPlan, diagonalNeighbours, neighbour?, find?_congr h, isData_congr h]

theorem connectAll_ok (pre post : List Node) {n : Node} (hrole : n.role.isData = false) (plan : List (Nat × Qubit))
    (count : Nat) (hdata : ∀ p ∈ plan, (ofNodes (pre ++ n :: post)).isData p.2 = true) (hpos : ∀ p ∈ plan, 0 < p.1)
    (hascend : (n.links.map (·.order) ++ plan.map (·.1)).Pairwise (· < ·))
    (hnodup : (n.links.map (·.data) ++ plan.map (·.2)).Nodup) :
    (⟨ofNodes (pre ++ n :: post), .open⟩ : LatticeBuilder).connectAll pre.length count plan =
      (⟨ofNodes (pre ++ { n with links := n.links ++ linksOf plan } :: post), .open⟩, .ok (count + plan.length)) := by
  induction plan generalizing n count with
  | nil => simp [connectAll, linksOf]
  | cons p rest ih =>
    obtain ⟨order, data⟩ := p
    obtain ⟨hd, hdrest⟩ := List.forall_mem_cons.mp hdata
    obtain ⟨hp, hprest⟩ := List.forall_mem_cons.mp hpos
    have horder : ∀ l ∈ n.links, l.order < order := by
      intro l hl
      exact (List.pairwise_append.mp hascend).2.2 _ (List.mem_map_of_mem hl) _ List.mem_cons_self
    have hnew : ∀ l ∈ n.links, l.data ≠ data := by
      intro l hl
      exact (List.nodup_append.mp hnodup).2.2 _ (List.mem_map_of_mem hl) _ List.mem_cons_self
    have hadd := addInteraction_last hrole hd hp horder hnew
    set n' : Node := { n with links := n.links ++ [⟨order, data⟩] } with hn'
    have hsame : (pre ++ n :: post).map place = (pre ++ n' :: post).map place := by simp [place, hn']
    have hrest := ih (n := n') hrole (count + 1) (fun p hp => by rw [← isData_congr hsame]; exact hdrest p hp) hprest
      (by simpa [hn'] using hascend) (by simpa [hn'] using hnodup)
    simp only [connectAll, connect, hadd, bind, Except.bind, pure, Except.pure]
    rw [hrest]
    simp only [hn', linksOf, List.append_assoc, List.map_cons, List.singleton_append, List.length_cons]
    rw [Nat.add_assoc, Nat.add_comm 1]

/-! ## What is planned -/

theorem inRange_small {k : Int} (h1 : -0x80000000 ≤ k) (h2 : k ≤ 0x7FFFFFFF) : Coordinate.inRange k = true := by
  have hmin : Coordinate.minHalf ≤ k := h1
  have hmax : k ≤ Coordinate.maxHalf := h2
  simp [Coordinate.inRange, hmin, hmax]

/-- On the plane the neighbours of a site are what is found on its four diagonals. -/
theorem diagonalNeighbours_open (g : Graph) {c : Coordinate} (hx : 0 ≤ c.x2 ∧ c.x2 < 0x7FFFFFFF)
    (hy : 0 ≤ c.y2 ∧ c.y2 < 0x7FFFFFFF) :
    (⟨g, .open⟩ : LatticeBuilder).diagonalNeighbours c 1 =
      diagonals.map fun s => g.find? ⟨c.x2 + s.1, c.y2 + s.2⟩ := by
  have hunit : ∀ s ∈ diagonals, (-1 ≤ s.1 ∧ s.1 ≤ 1) ∧ -1 ≤ s.2 ∧ s.2 ≤ 1 := by decide
  refine List.map_congr_left fun s hs => ?_
  obtain ⟨h1, h2⟩ := hunit s hs
  have hshift : c.shift? s.1 s.2 = some ⟨c.x2 + s.1, c.y2 + s.2⟩ := by
    rw [Coordinate.shift?, inRange_small (by omega) (by omega), inRange_small (by omega) (by omega)]
    rfl
  simp only [Int.mul_one, inRange_small (show -0x80000000 ≤ s.1 by omega) (by omega),
    inRange_small (show -0x80000000 ≤ s.2 by omega) (by omega), Bool.and_self, if_true, neighbour?, hshift]
  rfl

section Plan

variable {b : LatticeBuilder} {c : Coordinate} {directions : List Nat}

/-- An interaction that is planned for a direction, the `position`-th of the permutation. -/
def planned? (b : LatticeBuilder) (c : Coordinate) (direction position : Nat) : Option (Nat × Qubit) :=
  match (b.diagonalNeighbours c 1)[direction]? with
  | some (some q) => if b.graph.isData q then some (position + 1, q) else none
  | _ => none

theorem diagonalPlan_eq (b : LatticeBuilder) (c : Coordinate) (directions : List Nat) :
    b.diagonalPlan c directions 1 = directions.zipIdx.filterMap fun (direction, position) =>
      b.planned? c direction position := rfl

theorem planned?_some (hb : b.boundary = .open) {direction position : Nat} {p : Nat × Qubit}
    (h : b.planned? c direction position = some p) :
    p.1 = position + 1 ∧ b.graph.isData p.2 = true ∧
      ∃ s, diagonals[direction]? = some s ∧ b.graph.find? ⟨c.x2 + s.1, c.y2 + s.2⟩ = some p.2 := by
  unfold planned? at h
  split at h
  · rename_i q hq
    split at h
    · rename_i hdata
      cases h
      refine ⟨rfl, hdata, ?_⟩
      rw [diagonalNeighbours, List.getElem?_map] at hq
      obtain ⟨s, hs, hq⟩ := Option.map_eq_some_iff.mp hq
      refine ⟨s, hs, ?_⟩
      simp only [Int.mul_one, neighbour?, hb, Boundary.wrap?, Coordinate.shift?] at hq
      split at hq
      · split at hq
        · exact hq
        · cases hq
      · cases hq
    · cases h
  · cases h

theorem plan_isData (hb : b.boundary = .open) : ∀ p ∈ b.diagonalPlan c directions 1, b.graph.isData p.2 = true := by
  intro p hp
  obtain ⟨⟨direction, position⟩, -, h⟩ := List.mem_filterMap.mp hp
  exact (planned?_some hb h).2.1

theorem plan_pos (hb : b.boundary = .open) : ∀ p ∈ b.diagonalPlan c directions 1, 0 < p.1 := by
  intro p hp
  obtain ⟨⟨direction, position⟩, -, h⟩ := List.mem_filterMap.mp hp
  rw [(planned?_some hb h).1]
  exact Nat.succ_pos position

theorem plan_ascend (hb : b.boundary = .open) : ((b.diagonalPlan c directions 1).map (·.1)).Pairwise (· < ·) := by
  have hidx : directions.zipIdx.Pairwise fun a a' => a.2 < a'.2 := by
    have h := List.zipIdx_map_snd 0 directions
    exact List.pairwise_map.mp (h ▸ List.pairwise_lt_range')
  rw [diagonalPlan_eq]
  refine List.pairwise_map.mpr (List.pairwise_filterMap.mpr (hidx.imp fun hlt p hp p' hp' => ?_))
  rw [(planned?_some hb hp).1, (planned?_some hb hp').1]
  omega

/-- Two directions lead to two places. -/
theorem plan_nodup (hb : b.boundary = .open) (hd : directions.Nodup) :
    ((b.diagonalPlan c directions 1).map (·.2)).Nodup := by
  have hidx : directions.zipIdx.Pairwise fun a a' => a.1 ≠ a'.1 := by
    have h := List.zipIdx_map_fst 0 directions
    exact List.pairwise_map.mp (by rw [h]; exact hd)
  rw [diagonalPlan_eq]
  refine List.pairwise_map.mpr (List.pairwise_filterMap.mpr (hidx.imp fun hne p hp p' hp' he => hne ?_))
  obtain ⟨-, -, s, hs, hfind⟩ := planned?_some hb hp
  obtain ⟨-, -, s', hs', hfind'⟩ := planned?_some hb hp'
  obtain ⟨n, hn, hc⟩ := find?_some hfind
  obtain ⟨n', hn', hc'⟩ := find?_some hfind'
  rw [he, hn'] at hn
  cases hn
  rw [hc] at hc'
  have hsame := Coordinate.mk.inj (Option.some.inj hc')
  have heq : s = s' := Prod.ext (by omega) (by omega)
  have hdiagonals : diagonals.Nodup := by decide
  exact (List.getElem?_inj (List.getElem?_eq_some_iff.mp hs).1 hdiagonals).mp (by rw [hs, hs', heq])

end Plan

theorem joinDiagonal_ok {directions : List Nat} (hperm : isPermutation directions = true) (hd : directions.Nodup)
    (pre post : List Node) {n : Node} (hrole : n.role.isData = false) (hlinks : n.links = [])
    (hplace : n.coordinate ≠ none) :
    (⟨ofNodes (pre ++ n :: post), .open⟩ : LatticeBuilder).joinDiagonal pre.length directions 1 =
      .ok (⟨ofNodes (pre ++ joined ⟨ofNodes (pre ++ n :: post), .open⟩ directions n :: post), .open⟩,
        (joined ⟨ofNodes (pre ++ n :: post), .open⟩ directions n).links.length) := by
  obtain ⟨c, hc⟩ := Option.ne_none_iff_exists'.mp hplace
  have hnode : (ofNodes (pre ++ n :: post)).node? pre.length = some n := by
    rw [node?_ofNodes, List.getElem?_append_right (Nat.le_refl _), Nat.sub_self, List.getElem?_cons_zero]
  have hall := connectAll_ok pre post hrole
    ((⟨ofNodes (pre ++ n :: post), .open⟩ : LatticeBuilder).diagonalPlan c directions 1) 0 (plan_isData rfl)
    (plan_pos rfl) (by simpa [hlinks] using plan_ascend rfl) (by simpa [hlinks] using plan_nodup rfl hd)
  rw [joinDiagonal, connectDiagonal, validatePermutation, if_pos hperm]
  simp only [hnode, hc, hall]
  simp only [joined, hc, hlinks, List.nil_append, linksOf, List.length_map, Nat.zero_add]

/-- Checks that stand in a row in the list of nodes are joined as planned. -/
theorem joinAll_ok {directions : List Nat} (hperm : isPermutation directions = true) (hd : directions.Nodup)
    (nodes pre mid post : List Node) (hsame : (pre ++ (mid ++ post)).map place = nodes.map place)
    (hmid : ∀ n ∈ mid, n.role.isData = false ∧ n.links = [] ∧ n.coordinate ≠ none) :
    (⟨ofNodes (pre ++ (mid ++ post)), .open⟩ : LatticeBuilder).joinAll directions (List.range' pre.length mid.length) =
      .ok ⟨ofNodes (pre ++ (mid.map (joined ⟨ofNodes nodes, .open⟩ directions) ++ post)), .open⟩ := by
  induction mid generalizing pre with
  | nil => rfl
  | cons n rest ih =>
    obtain ⟨⟨hrole, hlinks, hplace⟩, hrest⟩ := List.forall_mem_cons.mp hmid
    have hjoin := joinDiagonal_ok hperm hd pre (rest ++ post) hrole hlinks hplace
    have hplan : joined ⟨ofNodes (pre ++ n :: (rest ++ post)), .open⟩ directions n =
        joined ⟨ofNodes nodes, .open⟩ directions n := by
      have hplans := fun c => diagonalPlan_congr hsame c directions
      simp only [List.cons_append] at hplans
      simp only [joined, hplans]
    rw [hplan] at hjoin
    set n' := joined ⟨ofNodes nodes, .open⟩ directions n with hn'
    have hnext := ih (pre ++ [n']) (by rw [← hsame]; simp [place, hn', joined]) hrest
    simp only [List.append_assoc, List.singleton_append, List.length_append, List.length_singleton] at hnext
    rw [joinAll, List.length_cons, List.range'_succ, List.foldlM_cons, List.cons_append, hjoin]
    exact hnext

/-! ## What is kept on the way -/

/-- Adding a qubit of the role keeps `P`. -/
def KeptByAdding (role : Role) (P : Graph → Prop) : Prop :=
  ∀ ⦃g g' : Graph⦄ ⦃coordinate : Option Coordinate⦄ ⦃label : Option String⦄ ⦃q : Qubit⦄,
    g.addQubit role coordinate label = .ok (g', q) → P g → P g'

/-- Adding an interaction keeps `P`. -/
def KeptByJoining (P : Graph → Prop) : Prop :=
  ∀ ⦃g g' : Graph⦄ ⦃check data : Qubit⦄ ⦃order : Nat⦄, g.addInteraction check data order = .ok g' → P g → P g'

theorem built_adding (role : Role) : KeptByAdding role Graph.Built := fun _ _ _ _ _ h hb => hb.addQubit h

theorem built_joining : KeptByJoining Graph.Built := fun _ _ _ _ _ h hb => hb.addInteraction h

theorem isData_adding (role : Role) (q : Qubit) : KeptByAdding role (·.isData q = true) :=
  fun _ _ _ _ _ h hq => isData_addQubit h hq

theorem isData_joining (q : Qubit) : KeptByJoining (·.isData q = true) :=
  fun _ _ _ _ _ h hq => (isData_addInteraction h q).trans hq

theorem size_joining (n : Nat) : KeptByJoining (·.size = n) := by
  intro g g' check data order h hn
  obtain ⟨node, -, -, -, -, -, rfl⟩ := addInteraction_ok h
  exact (Array.size_modify).trans hn

/-- As long as only data is added, all is data. -/
theorem allData_adding : KeptByAdding .data fun g => ∀ q < g.size, g.isData q = true := by
  intro g g' coordinate label p h hall q hq
  have hstays := @isData_addQubit _ _ _ _ _ _ h q
  obtain ⟨rfl, rfl, -⟩ := addQubit_ok h
  by_cases he : q = g.size
  · exact isData_iff.mpr ⟨_, by rw [node?_push, if_pos he], rfl⟩
  · have hsize : (⟨g.nodes.push ⟨.data, coordinate, label, []⟩⟩ : Graph).size = g.size + 1 := Array.size_push _
    exact hstays (hall q (by rw [hsize] at hq; omega))

section Keeps

variable {P : Graph → Prop} {role : Role} {b b' : LatticeBuilder}

theorem add_keeps (hP : KeptByAdding role P) (hb : P b.graph) {c : Coordinate} {label : Option String} {q : Qubit}
    (h : b.add role c label = .ok (b', q)) : P b'.graph := by
  obtain ⟨c', -, hadd⟩ := exists_of_bind h
  obtain ⟨⟨g, p⟩, hg, hb'⟩ := exists_of_bind hadd
  cases hb'
  exact hP hg hb

theorem addEach_keeps (hP : KeptByAdding role P) (hb : P b.graph) {label : Option String} {coordinates : List Coordinate}
    (h : coordinates.foldlM (fun b c => do return (← b.add role c label).1) b = Except.ok b') : P b'.graph := by
  refine foldlM_keeps (P := fun b => P b.graph) (fun b c b' hb h => ?_) hb h
  obtain ⟨⟨b₁, q⟩, hadd, hb'⟩ := exists_of_bind h
  cases hb'
  exact add_keeps hP hb hadd

theorem addAll_keeps (hP : KeptByAdding role P) (hb : P b.graph) {coordinates : List Coordinate}
    (h : b.addAll role coordinates = .ok b') : P b'.graph := addEach_keeps hP hb h

theorem connect_keeps (hP : KeptByJoining P) (hb : P b.graph) {check data : Qubit} {order : Nat}
    (h : b.connect check data order = .ok b') : P b'.graph := by
  obtain ⟨g, hg, hb'⟩ := exists_of_bind h
  cases hb'
  exact hP hg hb

theorem connectAll_keeps (hP : KeptByJoining P) (hb : P b.graph) (check : Qubit) (count : Nat) (plan : List (Nat × Qubit)) :
    P (b.connectAll check count plan).1.graph := by
  induction plan generalizing b count with
  | nil => exact hb
  | cons p rest ih =>
    obtain ⟨order, data⟩ := p
    unfold connectAll
    cases hc : b.connect check data order with
    | error e => exact hb
    | ok b₁ => exact ih (connect_keeps hP hb hc) (count + 1)

theorem connectDiagonal_keeps (hP : KeptByJoining P) (hb : P b.graph) (check : Qubit) (directions : List Nat) (step2 : Int) :
    P (b.connectDiagonal check directions step2).1.graph := by
  unfold connectDiagonal
  split
  · exact hb
  · split
    · exact hb
    · split
      · exact hb
      · exact connectAll_keeps hP hb check 0 _

theorem joinDiagonal_keeps (hP : KeptByJoining P) (hb : P b.graph) {check : Qubit} {directions : List Nat} {step2 : Int}
    {count : Nat} (h : b.joinDiagonal check directions step2 = .ok (b', count)) : P b'.graph := by
  have hkept := connectDiagonal_keeps hP hb check directions step2
  unfold joinDiagonal at h
  split at h
  · rename_i b₁ n hc
    rw [hc] at hkept
    cases h
    exact hkept
  · cases h

theorem joinAll_keeps (hP : KeptByJoining P) (hb : P b.graph) {directions : List Nat} {checks : List Qubit}
    (h : b.joinAll directions checks = .ok b') : P b'.graph := by
  refine foldlM_keeps (P := fun b => P b.graph) (fun b q b' hb h => ?_) hb h
  obtain ⟨⟨b₁, count⟩, hjoin, hb'⟩ := exists_of_bind h
  cases hb'
  exact joinDiagonal_keeps hP hb hjoin

end Keeps

theorem connectAll_boundary (b : LatticeBuilder) (check : Qubit) (count : Nat) (plan : List (Nat × Qubit)) :
    (b.connectAll check count plan).1.boundary = b.boundary := by
  induction plan generalizing b count with
  | nil => rfl
  | cons p rest ih =>
    obtain ⟨order, data⟩ := p
    unfold connectAll
    cases hc : b.connect check data order with
    | error e => rfl
    | ok b₁ =>
      obtain ⟨g, -, hb₁⟩ := exists_of_bind hc
      cases hb₁
      exact ih { b with graph := g } (count + 1)

theorem joinDiagonal_boundary {b b' : LatticeBuilder} {check : Qubit} {directions : List Nat} {step2 : Int} {count : Nat}
    (h : b.joinDiagonal check directions step2 = .ok (b', count)) : b'.boundary = b.boundary := by
  have hkept : (b.connectDiagonal check directions step2).1.boundary = b.boundary := by
    unfold connectDiagonal
    split
    · rfl
    · split
      · rfl
      · split
        · rfl
        · exact connectAll_boundary b check 0 _
  unfold joinDiagonal at h
  split at h
  · rename_i b₁ n hc
    rw [hc] at hkept
    cases h
    exact hkept
  · cases h

theorem add_size {b b' : LatticeBuilder} {role : Role} {c : Coordinate} {label : Option String} {q : Qubit}
    (h : b.add role c label = .ok (b', q)) : b'.graph.size = b.graph.size + 1 := by
  obtain ⟨c', -, hadd⟩ := exists_of_bind h
  obtain ⟨⟨g, p⟩, hg, hb'⟩ := exists_of_bind hadd
  cases hb'
  obtain ⟨-, rfl, -⟩ := addQubit_ok hg
  exact Array.size_push _

theorem addAll_size {b b' : LatticeBuilder} {role : Role} {coordinates : List Coordinate}
    (h : b.addAll role coordinates = .ok b') : b'.graph.size = b.graph.size + coordinates.length := by
  refine foldlM_counts (f := fun b : LatticeBuilder => b.graph.size) (fun b c b' h => ?_) h
  obtain ⟨⟨b₁, q⟩, hadd, hb'⟩ := exists_of_bind h
  cases hb'
  exact add_size hadd

theorem start_ok {boundary : Boundary} {b : LatticeBuilder} (h : start boundary = .ok b) : b = ⟨.empty, boundary⟩ := by
  cases boundary with
  | «open» =>
    cases h
    rfl
  | toroidal w height =>
    simp only [start] at h
    split at h
    · cases h
    · cases h
      rfl

theorem start_graph {boundary : Boundary} {b : LatticeBuilder} (h : start boundary = .ok b) : b.graph = .empty := by
  rw [start_ok h]

/-- The data that is added first. -/
theorem addAll_data {boundary : Boundary} {b b' : LatticeBuilder} (hstart : start boundary = .ok b)
    {coordinates : List Coordinate} (h : b.addAll .data coordinates = .ok b') :
    b'.graph.Built ∧ b'.graph.size = coordinates.length ∧ ∀ q < coordinates.length, b'.graph.isData q = true := by
  have hempty := start_graph hstart
  have hsize : b'.graph.size = coordinates.length := by
    rw [addAll_size h, hempty]
    exact Nat.zero_add _
  have hbuilt : b'.graph.Built := addAll_keeps (built_adding .data) (hempty ▸ .empty) h
  have hall := addAll_keeps allData_adding (by rw [hempty]; exact fun q hq => absurd hq (Nat.not_lt_zero q)) h
  exact ⟨hbuilt, hsize, fun q hq => hall q (hsize ▸ hq)⟩

end LatticeBuilder

end QuantumMemory

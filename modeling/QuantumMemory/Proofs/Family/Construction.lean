/-
  QuantumMemory.Proofs.Family.Construction — the codes that can be made, and that their
  memories always build.

  A code is made by a built-in family, from two polynomials or from a lattice that the user
  describes (`Code.Made`). Whatever a constructor accepts is `Consistent`: the layout is that
  of the graph, no check is listed twice, and the logical qubits are data. On a user's
  lattice bases may come again; every check is joined to some data qubit there
  (`LatticeSpec.graph_joined`), so those that do have no checks.

  - `Code.Made.buildMemory_eq`: what a memory of any code that is made compiles to
    (`Consistent.buildMemory_eq`, if the code has a layout).
  - `Code.memory_never_fails`: below 2^30 qubits no build fails but for want of a round.
-/

import QuantumMemory.Family.Kind
import QuantumMemory.Family.UserLattice
import QuantumMemory.Proofs.Family.BicycleGraph
import QuantumMemory.Proofs.Family.Surface
import QuantumMemory.Proofs.Graph.Layout
import QuantumMemory.Proofs.Shor.Program

namespace QuantumMemory

/-- What the constructors make sure of. -/
structure PlacedCode.Consistent (c : PlacedCode) : Prop where
  params : c.params.validate = .ok ()
  built : c.graph.Built
  layout : ∃ bases policy, Layout.ofGraph c.graph bases policy = .ok c.layout
  once : c.layout.allChecks.Nodup
  logical : ∀ q ∈ c.logical, q ∈ c.graph.dataQubits

namespace PlacedCode.Consistent

variable {c : PlacedCode} (h : c.Consistent)

include h

theorem tidy : c.layout.Tidy := by
  obtain ⟨bases, policy, hl⟩ := h.layout
  exact (Layout.ofGraph_ok hl).tidy_of_once h.built.sound h.once

theorem inReach (hsize : c.graph.size < 2 ^ 30) : c.layout.InReach := by
  obtain ⟨bases, policy, hl⟩ := h.layout
  exact (Layout.ofGraph_ok hl).inReach_of_once h.once hsize

theorem logical_data : ∀ q ∈ c.logical, q ∈ c.layout.data := by
  obtain ⟨bases, policy, hl⟩ := h.layout
  rw [(Layout.ofGraph_ok hl).data]
  exact h.logical

theorem buildMemory_eq (hsize : c.graph.size < 2 ^ 30) {rounds : Nat} (hpos : 1 ≤ rounds) :
    c.layout.buildMemory c.name c.params rounds c.logical =
      .ok (c.layout.compiled c.name c.params rounds c.logical) := by
  obtain ⟨h1, h2⟩ := Layout.usable_of_validate h.params
  exact Layout.buildMemory_eq h.tidy (h.inReach hsize) c.name h1 h2 hpos h.logical_data

end PlacedCode.Consistent

/-- A layout over bases that do not repeat makes a consistent code. -/
theorem PlacedCode.consistent_of_bases {name : String} {params : CodeParams} {g : Graph} {l : Layout}
    {logical : List Qubit} (hp : params.validate = .ok ()) (hg : g.Built) {bases : List CheckBasis} (hb : bases.Nodup)
    {policy : BoundaryPolicy} (hl : Layout.ofGraph g bases policy = .ok l) (hlog : ∀ q ∈ logical, q ∈ g.dataQubits) :
    PlacedCode.Consistent ⟨name, params, g, l, logical⟩ :=
  ⟨hp, hg, ⟨bases, policy, hl⟩, (Layout.ofGraph_ok hl).allChecks_nodup hb, hlog⟩

/-! ## Built-in families -/

namespace Repetition

theorem graph_data {d : Nat} {g : Graph} (h : graph d = .ok g) : g.Built ∧ ∀ q < d, g.isData q = true := by
  obtain ⟨b₀, hstart, h⟩ := exists_of_bind h
  obtain ⟨b₁, hdata, h⟩ := exists_of_bind h
  obtain ⟨b₂, hcheck, h⟩ := exists_of_bind h
  obtain ⟨b₃, hjoin, h⟩ := exists_of_bind h
  cases h
  obtain ⟨hb₁, -, hfirst⟩ := LatticeBuilder.addAll_data hstart hdata
  rw [dataSites, List.length_map, List.length_range] at hfirst
  have hb₂ := LatticeBuilder.addAll_keeps (LatticeBuilder.built_adding _) hb₁ hcheck
  refine ⟨LatticeBuilder.joinAll_keeps LatticeBuilder.built_joining hb₂ hjoin, fun q hq => ?_⟩
  have hq₂ := LatticeBuilder.addAll_keeps (LatticeBuilder.isData_adding _ q) (hfirst q hq) hcheck
  exact LatticeBuilder.joinAll_keeps (LatticeBuilder.isData_joining q) hq₂ hjoin

theorem make_consistent {params : CodeParams} {c : PlacedCode} (h : make params = .ok c) : c.Consistent := by
  obtain ⟨⟨⟩, hp, h⟩ := exists_of_bind h
  by_cases hd : params.distance < 2
  · rw [if_pos hd] at h
    cases h
  rw [if_neg hd] at h
  obtain ⟨g, hg, h⟩ := exists_of_bind h
  obtain ⟨l, hl, h⟩ := exists_of_bind h
  cases h
  obtain ⟨hbuilt, hdata⟩ := graph_data hg
  refine PlacedCode.consistent_of_bases hp hbuilt (by decide) hl fun q hq => ?_
  rw [List.mem_singleton.mp hq, Graph.mem_dataQubits]
  exact hdata 0 (by omega)

end Repetition

namespace RotatedSurface

theorem make_consistent {params : CodeParams} {c : PlacedCode} (h : make params = .ok c) : c.Consistent := by
  obtain ⟨⟨⟩, hp, h⟩ := exists_of_bind h
  by_cases hd : params.distance < 3 ∨ params.distance % 2 = 0
  · rw [if_pos hd] at h
    cases h
  rw [if_neg hd] at h
  obtain ⟨g, hg, h⟩ := exists_of_bind h
  obtain ⟨l, hl, h⟩ := exists_of_bind h
  cases h
  obtain ⟨hbuilt, hdata⟩ := graph_data hg
  refine PlacedCode.consistent_of_bases hp hbuilt (by decide) hl fun q hq => ?_
  obtain ⟨i, hi, rfl⟩ := List.mem_map.mp hq
  rw [Graph.mem_dataQubits]
  refine hdata _ ?_
  rw [List.mem_range] at hi
  calc i + i * params.distance < params.distance + i * params.distance := Nat.add_lt_add_right hi _
    _ = (i + 1) * params.distance := by rw [Nat.succ_mul, Nat.add_comm]
    _ ≤ params.distance * params.distance := Nat.mul_le_mul_right _ hi

end RotatedSurface

namespace Bicycle

theorem findLogical_data {g : Graph} {logical : List Qubit} (h : findLogical g = .ok logical) :
    ∀ q ∈ logical, q ∈ g.dataQubits := by
  rw [findLogical, logicalOf.eq_def] at h
  split at h
  · cases h
    intro q hq
    obtain ⟨k, -, hk⟩ := List.mem_filterMap.mp hq
    exact List.mem_of_getElem? hk
  · cases h

theorem ofSpec_consistent {params : CodeParams} {spec : BicycleSpec} {c : PlacedCode} (h : ofSpec params spec = .ok c) :
    c.Consistent := by
  obtain ⟨⟨⟩, hp, h⟩ := exists_of_bind h
  obtain ⟨⟨⟩, hs, h⟩ := exists_of_bind h
  obtain ⟨g, hg, h⟩ := exists_of_bind h
  obtain ⟨l, hl, h⟩ := exists_of_bind h
  obtain ⟨logical, hlog, h⟩ := exists_of_bind h
  cases h
  exact PlacedCode.consistent_of_bases hp (BicycleSpec.graph_built hg) (by decide) hl (findLogical_data hlog)

theorem make_consistent {params : CodeParams} {c : PlacedCode} (h : make params = .ok c) : c.Consistent := by
  obtain ⟨⟨⟩, -, h⟩ := exists_of_bind h
  obtain ⟨spec, -, h⟩ := exists_of_bind h
  exact ofSpec_consistent h

end Bicycle

/-! ## User lattices -/

namespace LatticeBuilder

variable {b b' : LatticeBuilder}

theorem links_joining (check : Qubit) : KeptByJoining (·.links check ≠ []) := by
  intro g g' c data order h hlinks
  simp only [Graph.links_addInteraction h]
  split
  · exact List.ne_nil_of_mem (Graph.mem_insertLink.mpr (.inl rfl))
  · exact hlinks

/-- A check that is joined to anything has links. -/
theorem connectAll_links {check : Qubit} {count m : Nat} {plan : List (Nat × Qubit)}
    (h : b.connectAll check count plan = (b', .ok m)) (hm : count < m) : b'.graph.links check ≠ [] := by
  cases plan with
  | nil =>
    cases h
    exact absurd hm (Nat.lt_irrefl _)
  | cons p rest =>
    obtain ⟨order, data⟩ := p
    unfold connectAll at h
    cases hc : b.connect check data order with
    | error e =>
      rw [hc] at h
      cases h
    | ok b₁ =>
      obtain ⟨g, hg, hb₁⟩ := exists_of_bind hc
      cases hb₁
      have hlinked : g.links check ≠ [] := by
        rw [Graph.links_addInteraction hg, if_pos rfl]
        exact List.ne_nil_of_mem (Graph.mem_insertLink.mpr (.inl rfl))
      have hkept := connectAll_keeps (b := { b with graph := g }) (links_joining check) hlinked check (count + 1) rest
      rw [hc] at h
      simp only at h
      rw [h] at hkept
      exact hkept

theorem joinDiagonal_links {check : Qubit} {directions : List Nat} {step2 : Int} {count : Nat}
    (h : b.joinDiagonal check directions step2 = .ok (b', count)) (hcount : count ≠ 0) : b'.graph.links check ≠ [] := by
  unfold joinDiagonal at h
  split at h
  · rename_i b₁ m hconnect
    cases h
    unfold connectDiagonal at hconnect
    split at hconnect
    · cases hconnect
    · split at hconnect
      · cases hconnect
      · split at hconnect
        · cases hconnect
        · exact connectAll_links hconnect (Nat.pos_of_ne_zero hcount)
  · cases h

end LatticeBuilder

namespace LatticeSpec

open LatticeBuilder

variable {s : LatticeSpec} {b b' : LatticeBuilder}

theorem joinCheck_ok {step2 : Int} {site : CheckSite} {check : Qubit} (h : s.joinCheck step2 b site check = .ok b') :
    ∃ count, b.joinDiagonal check (s.directionsOf site) step2 = .ok (b', count) ∧ count ≠ 0 := by
  obtain ⟨⟨b₁, count⟩, hjoin, h⟩ := exists_of_bind h
  by_cases hcount : count = 0
  · simp only [if_pos hcount] at h
    cases h
  · simp only [if_neg hcount] at h
    cases h
    exact ⟨count, hjoin, hcount⟩

theorem joinCheck_keeps {P : Graph → Prop} (hP : KeptByJoining P) {step2 : Int} {site : CheckSite} {check : Qubit}
    (hb : P b.graph) (h : s.joinCheck step2 b site check = .ok b') : P b'.graph := by
  obtain ⟨count, hjoin, -⟩ := joinCheck_ok h
  exact joinDiagonal_keeps hP hb hjoin

theorem joinCheck_links {step2 : Int} {site : CheckSite} {check : Qubit}
    (h : s.joinCheck step2 b site check = .ok b') : b'.graph.links check ≠ [] := by
  obtain ⟨count, hjoin, hcount⟩ := joinCheck_ok h
  exact joinDiagonal_links hjoin hcount

/-- The graph of a lattice, with every check joined to data. -/
theorem graph_joined {g : Graph} (h : s.graph = .ok g) :
    g.Built ∧ ∀ basis check, check ∈ g.checkQubits basis → g.links check ≠ [] := by
  obtain ⟨step2, -, h⟩ := exists_of_bind h
  obtain ⟨b₀, hstart, h⟩ := exists_of_bind h
  obtain ⟨b₁, hdata, h⟩ := exists_of_bind h
  obtain ⟨b₂, hadd, h⟩ := exists_of_bind h
  obtain ⟨b₃, hjoin, h⟩ := exists_of_bind h
  cases h
  obtain ⟨hb₁, hsize₁, hfirst⟩ := addAll_data hstart hdata
  have added : ∀ {P : Graph → Prop}, (∀ role, KeptByAdding role P) → P b₁.graph → P b₂.graph := by
    intro P hP hb
    refine foldlM_keeps (P := fun b => P b.graph) (fun b site b' hb h => ?_) hb hadd
    obtain ⟨⟨b₄, q⟩, hone, h⟩ := exists_of_bind h
    cases h
    exact add_keeps (hP _) hb hone
  have joined : ∀ {P : Graph → Prop}, KeptByJoining P → P b₂.graph → P b₃.graph := by
    intro P hP hb
    exact foldlM_keeps (P := fun b => P b.graph) (fun b a b' hb h => joinCheck_keeps hP hb h) hb hjoin
  have hsize₂ : b₂.graph.size = s.data.length + s.checks.length := by
    rw [← hsize₁]
    refine foldlM_counts (f := fun b : LatticeBuilder => b.graph.size) (fun b site b' h => ?_) hadd
    obtain ⟨⟨b₄, q⟩, hone, h⟩ := exists_of_bind h
    cases h
    exact add_size hone
  have hsize : b₃.graph.size = s.data.length + s.checks.length := joined (size_joining _) hsize₂
  refine ⟨joined built_joining (added built_adding hb₁), fun basis check hcheck => ?_⟩
  have hge : s.data.length ≤ check := by
    by_contra hlt
    have hisData := joined (isData_joining check) (added (isData_adding · check) (hfirst check (by omega)))
    rw [Graph.not_isData_of_check hcheck] at hisData
    cases hisData
  have hlt : check - s.data.length < s.checks.length := by
    have hin : check < b₃.graph.size := Graph.qubitsWhere_lt hcheck
    exact Nat.sub_lt_left_of_lt_add hge (hsize ▸ hin)
  have hmem : (s.checks[check - s.data.length], check - s.data.length) ∈ s.checks.zipIdx :=
    List.mk_mem_zipIdx_iff_getElem?.mpr (List.getElem?_eq_getElem hlt)
  refine foldlM_reaches (P := fun b => b.graph.links check ≠ []) hmem (fun b b' h => ?_)
    (fun b a b' hb h => joinCheck_keeps (links_joining check) hb h) hjoin
  have hlinks := joinCheck_links h
  rwa [Nat.add_sub_cancel' hge] at hlinks

theorem dataAt_ok {g : Graph} {c : Coordinate} {q : Qubit} (h : s.dataAt g c = .ok q) : q ∈ g.dataQubits := by
  unfold dataAt at h
  split at h
  · split at h
    · rename_i hdata
      cases h
      exact Graph.mem_dataQubits.mpr hdata
    · cases h
  · cases h

theorem make_consistent {params : CodeParams} {c : PlacedCode} (h : make params s = .ok c) : c.Consistent := by
  obtain ⟨⟨⟩, hp, h⟩ := exists_of_bind h
  obtain ⟨g, hg, h⟩ := exists_of_bind h
  obtain ⟨l, hl, h⟩ := exists_of_bind h
  obtain ⟨logical, hlog, h⟩ := exists_of_bind h
  by_cases hempty : logical.isEmpty = true
  · rw [if_pos hempty] at h
    cases h
  rw [if_neg hempty] at h
  cases h
  obtain ⟨hbuilt, hjoined⟩ := graph_joined hg
  refine ⟨hp, hbuilt, ⟨s.bases, s.policy, hl⟩, (Layout.ofGraph_ok hl).once_of_joined hbuilt.sound hjoined, fun q hq => ?_⟩
  obtain ⟨c, -, hc⟩ := mapM_ok hlog q hq
  exact dataAt_ok hc

end LatticeSpec

/-! ## All codes -/

namespace Code

/-- The codes that can be made. -/
inductive Made : Code → Prop
  | builtIn {kind : CodeKind} {params : CodeParams} {code : Code} : kind.build params = .ok code → Made code
  | bicycle {params : CodeParams} {spec : BicycleSpec} {code : PlacedCode} :
    Bicycle.ofSpec params spec = .ok code → Made (.placed code)
  | lattice {params : CodeParams} {spec : LatticeSpec} {code : PlacedCode} :
    LatticeSpec.make params spec = .ok code → Made (.placed code)

/-- What holds of a code, whichever way it is made. -/
def Consistent : Code → Prop
  | placed c => c.Consistent
  | shor c => c.params.validate = .ok () ∧ 1 ≤ c.blocks

theorem Made.consistent {code : Code} (h : code.Made) : code.Consistent := by
  cases h with
  | @builtIn kind params code h =>
    cases kind with
    | repetition =>
      obtain ⟨c, hc, rfl⟩ := map_ok h
      exact Repetition.make_consistent hc
    | rotatedSurface =>
      obtain ⟨c, hc, rfl⟩ := map_ok h
      exact RotatedSurface.make_consistent hc
    | bivariateBicycle =>
      obtain ⟨c, hc, rfl⟩ := map_ok h
      exact Bicycle.make_consistent hc
    | shor =>
      obtain ⟨c, hc, rfl⟩ := map_ok h
      obtain ⟨⟨⟩, hp, hmake⟩ := exists_of_bind hc
      by_cases hthree : params.distance % 3 = 0
      · rw [if_pos hthree] at hmake
        cases hmake
        exact ⟨hp, (ShorCode.make_eq hp hthree).1⟩
      · rw [if_neg hthree] at hmake
        cases hmake
  | bicycle h => exact Bicycle.ofSpec_consistent h
  | lattice h => exact LatticeSpec.make_consistent h

/-- The experiment that the memory of a code compiles to. -/
def compiled : Code → Nat → Experiment
  | placed c, rounds => c.layout.compiled c.name c.params rounds c.logical
  | shor c, rounds => c.compiled rounds

theorem Made.buildMemory_eq {code : Code} (h : code.Made) (hsize : code.numQubits < 2 ^ 30) {rounds : Nat}
    (hpos : 1 ≤ rounds) : code.buildMemory rounds = .ok (code.compiled rounds) := by
  have hc := h.consistent
  cases code with
  | placed c => exact hc.buildMemory_eq hsize hpos
  | shor c =>
    obtain ⟨hp, hblocks⟩ := hc
    obtain ⟨h1, h2⟩ := Layout.usable_of_validate hp
    have hqubits : 6 * c.blocks - 1 < 2 ^ 30 := hsize
    exact c.buildMemory_eq (by omega) hblocks h1 h2 hpos

/-- Below 2^30 qubits the memory of a code that was made is built for every number of rounds
    but zero, which is refused for what it is. -/
theorem memory_never_fails {code : Code} (h : code.Made) (hsize : code.numQubits < 2 ^ 30) :
    code.buildMemory 0 = .error (.invalidRounds 0) ∧ ∀ rounds, 1 ≤ rounds → ∃ e, code.buildMemory rounds = .ok e := by
  refine ⟨?_, fun rounds hpos => ⟨_, h.buildMemory_eq hsize hpos⟩⟩
  cases code with
  | placed c => rfl
  | shor c => rfl

/-- Two Z checks between three data qubits, where X is declared twice and Y for nothing, and
    the logical operator lists a site twice. -/
def line : LatticeSpec where
  name := "line"
  data := [⟨0, 0⟩, ⟨2, 2⟩, ⟨4, 4⟩]
  checks := [⟨.z, ⟨1, 1⟩, none⟩, ⟨.z, ⟨3, 3⟩, some [3, 2, 1, 0]⟩]
  bases := [.x, .z, .x, .y]
  xDirections := [0, 1, 2, 3]
  zDirections := [0, 3, 1, 2]
  step := .ofRatio false 1 2
  boundary := .open
  logical := [⟨0, 0⟩, ⟨0, 0⟩]
  policy := .skip

theorem memory_never_fails_line : ∃ code, LatticeSpec.make ⟨3, .one, .one⟩ line = .ok code ∧ code.graph.size < 2 ^ 30 ∧
    (Code.placed code).buildMemory 0 = .error (.invalidRounds 0) ∧
      ∀ rounds, 1 ≤ rounds → ∃ e, (Code.placed code).buildMemory rounds = .ok e := by
  have hfive : (LatticeSpec.make ⟨3, .one, .one⟩ line).toOption.map (·.graph.size) = some 5 := by decide +kernel
  cases hcode : LatticeSpec.make ⟨3, .one, .one⟩ line with
  | error e =>
    rw [hcode] at hfive
    cases hfive
  | ok code =>
    rw [hcode] at hfive
    have hsize : code.graph.size < 2 ^ 30 := (Option.some.inj hfive).trans_lt (by decide)
    exact ⟨code, rfl, hsize, memory_never_fails (.lattice hcode) hsize⟩

end Code

end QuantumMemory

/-
  QuantumMemory.Proofs.Family.BicycleLogical — the logical operator of a bivariate bicycle
  code.

  Where the data qubits are numbered first, the columns of the parity checks are the data
  qubits themselves (`parityChecks_eq`). A set of them meets the checks evenly if its marks are
  in the kernel (`evenOn_iff`), and is a sum of checks if they are a sum of rows (`sumOf_iff_marks`). So what is
  found is a logical operator, and if nothing is found there is none (`findLogical_cases`).

  - `Bicycle.ofSpec_logical`: every valid choice of polynomials gives a code with a logical
    operator, unless all that meets the X checks evenly is a sum of Z checks.
-/

import QuantumMemory.Proofs.Family.BicycleChecks
import QuantumMemory.Proofs.Linear.Kernel

namespace QuantumMemory

open BitMatrix

namespace Graph

/-- A logical operator: data qubits that every X check meets evenly, and no sum of Z checks. -/
structure IsLogical (g : Graph) (logical : List Qubit) : Prop where
  nodup : logical.Nodup
  nonempty : logical ≠ []
  data : ∀ q ∈ logical, q ∈ g.dataQubits
  even : g.EvenOn .x logical.toFinset
  notSum : ¬g.SumOf .z logical.toFinset

/-- Whatever every X check meets evenly is a sum of Z checks. -/
def OnlyStabilizers (g : Graph) : Prop :=
  ∀ s : Finset Qubit, (∀ q ∈ s, q ∈ g.dataQubits) → g.EvenOn .x s → g.SumOf .z s

theorem IsLogical.not_onlyStabilizers {g : Graph} {logical : List Qubit} (h : g.IsLogical logical) :
    ¬g.OnlyStabilizers := fun hall =>
  h.notSum (hall logical.toFinset (fun q hq => h.data q (List.mem_toFinset.mp hq)) h.even)

/-- One at the qubits of a set. -/
def marks (s : Finset Qubit) : Entries := fun q => if q ∈ s then 1 else 0

theorem eq_marks_iff {s : Finset Qubit} {x : Entries} : x = marks s ↔ ∀ q, x q = 1 ↔ q ∈ s := by
  have hbit : ∀ a : ZMod 2, a = 0 ∨ a = 1 := by decide
  constructor
  · intro h q
    rw [h, marks]
    split <;> simp_all
  · intro h
    funext q
    rw [marks]
    rcases hbit (x q) with hx | hx
    · have hnot : q ∉ s := fun hq => by
        rw [(h q).mpr hq] at hx
        cases hx
      rw [hx, if_neg hnot]
    · rw [hx, if_pos ((h q).mp hx)]

/-- The checks of a basis as rows, the columns being the first `n` qubits. -/
def checkMatrix (g : Graph) (n : Nat) (b : CheckBasis) : BitMatrix :=
  ⟨n, (g.checkQubits b).map fun c => vector (g.support c)⟩

section DataFirst

variable {g : Graph} {n : Nat} (hs : g.Sound) (hdata : g.dataQubits = List.range n)

include hs hdata

theorem support_lt {b : CheckBasis} {c q : Qubit} (hc : c ∈ g.checkQubits b) (hq : q ∈ g.support c) : q < n := by
  rw [support_check (not_isData_of_check hc)] at hq
  obtain ⟨l, hl, rfl⟩ := List.mem_map.mp hq
  have hmem := mem_dataQubits.mpr (hs.link_isData hl)
  rw [hdata] at hmem
  exact List.mem_range.mp hmem

omit hdata in
/-- The row of a check has a one at each of its data qubits. -/
theorem entries_support {b : CheckBasis} {c : Qubit} (hc : c ∈ g.checkQubits b) (q : Qubit) :
    entries (vector (g.support c)) q = if q ∈ g.support c then 1 else 0 := by
  have hnodup : (g.support c).Nodup := by
    rw [support_check (not_isData_of_check hc)]
    exact hs.links_data_nodup c
  rw [entries_vector, hnodup.count]
  split <;> rfl

theorem parityChecks_eq (b : CheckBasis) : Bicycle.parityChecks g b = (g.checkQubits b).map g.support := by
  refine List.map_congr_left fun c hc => ?_
  refine Eq.trans (List.filterMap_congr fun q hq => ?_) List.filterMap_some
  have hlt := support_lt hs hdata hc hq
  rw [hdata, List.findIdx?_eq_some_iff_getElem]
  refine ⟨by simpa using hlt, by simp, fun i hi => ?_⟩
  simpa using Nat.ne_of_lt hi

theorem parityMatrix_eq (b : CheckBasis) : Bicycle.parityMatrix g b = g.checkMatrix n b := by
  have hlength : g.dataQubits.length = n := by rw [hdata, List.length_range]
  have hstored : ofSupports? g.dataQubits.length (Bicycle.parityChecks g b) = some (g.checkMatrix n b) := by
    rw [hlength, parityChecks_eq hs hdata, ofSupports?, mapM_some (g := vector), List.map_map]
    · rfl
    · intro s hsup
      obtain ⟨c, hc, rfl⟩ := List.mem_map.mp hsup
      rw [vector?, if_pos (fits_of_lt fun q hq => support_lt hs hdata hc hq)]
  exact Option.some.inj ((Option.some_get _).trans hstored)

theorem checkMatrix_inRange (b : CheckBasis) : (g.checkMatrix n b).InRange := by
  intro row hrow
  obtain ⟨c, hc, rfl⟩ := List.mem_map.mp hrow
  refine entries_within.mp fun q hq => ?_
  rw [entries_support hs hc, if_neg fun hmem => Nat.not_lt_of_le hq (support_lt hs hdata hc hmem)]

omit hdata in
theorem evenOn_iff {b : CheckBasis} {s : Finset Qubit} (hlt : ∀ q ∈ s, q < n) :
    g.EvenOn b s ↔ marks s ∈ kernelSpace (g.checkMatrix n b) := by
  have hwithin : marks s ∈ within (g.checkMatrix n b).cols := fun q hq => if_neg fun hmem => Nat.not_lt_of_le hq (hlt q hmem)
  rw [mem_kernelSpace, and_iff_right hwithin, checkMatrix, List.forall_mem_map]
  refine forall₂_congr fun c hc => ?_
  have hcard : against n (entries (vector (g.support c))) (marks s) = ({q ∈ s | q ∈ g.support c}.card : ZMod 2) := by
    have hsame : {q ∈ Finset.range n | q ∈ g.support c ∧ q ∈ s} = {q ∈ s | q ∈ g.support c} := by
      ext q
      simp only [Finset.mem_filter, Finset.mem_range]
      exact ⟨fun h => ⟨h.2.2, h.2.1⟩, fun h => ⟨hlt q h.1, h.2, h.1⟩⟩
    rw [against_apply, ← hsame, ← Finset.sum_boole]
    refine Finset.sum_congr rfl fun q _ => ?_
    rw [entries_support hs hc, marks, ite_and, ite_mul, one_mul, zero_mul]
  rw [hcard, ZMod.natCast_eq_zero_iff_even]

omit hdata in
theorem sumOf_iff_marks {b : CheckBasis} {s : Finset Qubit} :
    g.SumOf b s ↔ marks s ∈ rowSpace (g.checkMatrix n b).rows := by
  have hrows : entries '' {row | row ∈ (g.checkMatrix n b).rows} =
      (fun c => entries (vector (g.support c))) '' ((g.checkQubits b).toFinset : Set Qubit) := by
    ext x
    simp only [checkMatrix, Set.mem_image, List.mem_map, Finset.mem_coe, List.mem_toFinset, Set.mem_ofPred_eq]
    exact ⟨fun ⟨_, ⟨c, hc, he⟩, hx⟩ => ⟨c, hc, he ▸ hx⟩, fun ⟨c, hc, hx⟩ => ⟨_, ⟨c, hc, rfl⟩, hx⟩⟩
  have hweights : ∀ w : Qubit → ZMod 2, ∑ c ∈ (g.checkQubits b).toFinset, w c • entries (vector (g.support c)) =
      g.weightOn b w := by
    intro w
    funext q
    rw [Finset.sum_apply, weightOn]
    refine Finset.sum_congr rfl fun c hc => ?_
    rw [Pi.smul_apply, entries_support hs (List.mem_toFinset.mp hc), smul_eq_mul, mul_ite, mul_one, mul_zero]
  rw [rowSpace, hrows, Submodule.mem_span_image_finset_iff_exists_fun', sumOf_iff]
  refine exists_congr fun w => ?_
  rw [hweights, eq_marks_iff]
  exact forall_congr' fun q => Iff.comm

theorem findLogical_eq {found : Option (List Nat)}
    (h : minWeightLogical? (g.checkMatrix n .x) (g.checkMatrix n .z) = some found) :
    Bicycle.findLogical g = Bicycle.logicalOf g.dataQubits found := by
  rw [← parityMatrix_eq hs hdata, ← parityMatrix_eq hs hdata] at h
  simp only [Bicycle.findLogical, h, Option.get_some]

/-- Either a logical operator is found, or there is none to be found. -/
theorem findLogical_cases :
    (∃ logical, Bicycle.findLogical g = .ok logical ∧ g.IsLogical logical) ∨
      (Bicycle.findLogical g = .error (.noLogicalOperator .onlyStabilizers) ∧ g.OnlyStabilizers) := by
  rcases minWeightLogical?_cases (checkMatrix_inRange hs hdata .x) (checkMatrix_inRange hs hdata .z) rfl with
    ⟨hnone, hall⟩ | ⟨v, hsome, hv, hkernel, hsum⟩
  · refine .inr ⟨findLogical_eq hs hdata hnone, fun s hsdata heven => ?_⟩
    have hlt : ∀ q ∈ s, q < n := fun q hq => List.mem_range.mp (hdata ▸ hsdata q hq)
    exact (sumOf_iff_marks hs).mpr (hall ((evenOn_iff hs hlt).mp heven))
  · have hlt : ∀ q ∈ BitMatrix.support n v, q < n := fun q hq => (mem_support.mp hq).1
    have hcolumns : (BitMatrix.support n v).filterMap (g.dataQubits[·]?) = BitMatrix.support n v := by
      refine Eq.trans (List.filterMap_congr fun q hq => ?_) List.filterMap_some
      rw [hdata, List.getElem?_range (hlt q hq)]
    have hmarks : marks (BitMatrix.support n v).toFinset = entries v := by
      funext q
      exact if_congr (List.mem_toFinset.trans (mem_support_of_lt hv)) rfl rfl
    have hne : BitMatrix.support n v ≠ [] := by
      intro hnil
      have hzero : v = 0 := by
        rw [← vector_support hv]
        show vector (BitMatrix.support n v) = 0
        rw [hnil]
        rfl
      rw [hzero, entries_zero] at hsum
      exact hsum (Submodule.zero_mem _)
    refine .inl ⟨BitMatrix.support n v, ?_, support_nodup n v, hne, fun q hq => ?_, ?_, fun hz => hsum ?_⟩
    · rw [findLogical_eq hs hdata hsome, ← hcolumns]
      rfl
    · rw [hdata]
      exact List.mem_range.mpr (hlt q hq)
    · rw [evenOn_iff hs fun q hq => hlt q (List.mem_toFinset.mp hq), hmarks]
      exact hkernel
    · rw [← hmarks]
      exact (sumOf_iff_marks hs).mp hz

end DataFirst

end Graph

namespace Bicycle

/-- Every valid choice of polynomials, of three terms each, makes a code with a logical
    operator, unless whatever the X checks meet evenly is a sum of Z checks; then, and for no
    other reason, it is refused. -/
theorem ofSpec_logical {params : CodeParams} (hp : params.validate = .ok ()) {s : BicycleSpec} (ha : s.a.length = 3)
    (hb : s.b.length = 3) (hs : s.validate = .ok ()) :
    ∃ g, s.graph = .ok g ∧
      ((∃ code, ofSpec params s = .ok code ∧ code.graph = g ∧ g.IsLogical code.logical) ∨
        ofSpec params s = .error (.noLogicalOperator .onlyStabilizers)) ∧
      (ofSpec params s = .error (.noLogicalOperator .onlyStabilizers) ↔ g.OnlyStabilizers) := by
  have hv := BicycleSpec.valid_of_validate hs
  have hgraph := BicycleSpec.graph_eq hv
  obtain ⟨l, hl⟩ := Layout.ofGraph_total BicycleSpec.bicycle_declares
    (BicycleSpec.bicycle_noConflict hv ha hb (by decide)) .emit
  have hmake : ofSpec params s = do
      let logical ← findLogical s.bicycle
      return ⟨"bivariate-bicycle", params, s.bicycle, l, logical⟩ := by
    rw [ofSpec, hp, hs, hgraph]
    simp only [bind, Except.bind, hl]
  refine ⟨s.bicycle, hgraph, ?_⟩
  rw [hmake]
  rcases Graph.findLogical_cases (BicycleSpec.bicycle_built hv).sound BicycleSpec.dataQubits_bicycle with
    ⟨logical, hfound, hlogical⟩ | ⟨hnone, honly⟩
  · rw [hfound]
    refine ⟨.inl ⟨_, rfl, rfl, hlogical⟩, fun h => ?_, fun h => absurd h hlogical.not_onlyStabilizers⟩
    cases h
  · rw [hnone]
    exact ⟨.inr rfl, fun _ => honly, fun _ => rfl⟩

/-- On a ring of three elements two left qubits make a logical operator; on the torus of two
    by two there is none. -/
theorem ofSpec_logical_small :
    (∃ g code, BicycleSpec.graph ⟨3, 1, [⟨0, 0⟩, ⟨1, 0⟩, ⟨2, 0⟩], [⟨0, 0⟩, ⟨1, 0⟩, ⟨2, 0⟩]⟩ = .ok g ∧
      ofSpec ⟨6, .one, .one⟩ ⟨3, 1, [⟨0, 0⟩, ⟨1, 0⟩, ⟨2, 0⟩], [⟨0, 0⟩, ⟨1, 0⟩, ⟨2, 0⟩]⟩ = .ok code ∧
      code.logical = [0, 1] ∧ g.IsLogical [0, 1]) ∧
    ∃ g, BicycleSpec.graph ⟨2, 2, [⟨0, 0⟩, ⟨1, 0⟩, ⟨0, 3⟩], [⟨0, 0⟩, ⟨1, 1⟩, ⟨0, 1⟩]⟩ = .ok g ∧ g.OnlyStabilizers := by
  constructor
  · have hfound : (ofSpec ⟨6, .one, .one⟩ ⟨3, 1, [⟨0, 0⟩, ⟨1, 0⟩, ⟨2, 0⟩],
        [⟨0, 0⟩, ⟨1, 0⟩, ⟨2, 0⟩]⟩).toOption.map (·.logical) = some [0, 1] := by decide +kernel
    obtain ⟨g, hg, ⟨code, hcode, -, hlogical⟩ | hnone, -⟩ := @ofSpec_logical ⟨6, .one, .one⟩ (by decide +kernel)
      ⟨3, 1, [⟨0, 0⟩, ⟨1, 0⟩, ⟨2, 0⟩], [⟨0, 0⟩, ⟨1, 0⟩, ⟨2, 0⟩]⟩ (by decide) (by decide) (by decide +kernel)
    · rw [hcode] at hfound
      have htwo : code.logical = [0, 1] := Option.some.inj hfound
      exact ⟨g, code, hg, hcode, htwo, htwo ▸ hlogical⟩
    · rw [hnone] at hfound
      cases hfound
  · have hrefused : (ofSpec ⟨6, .one, .one⟩ ⟨2, 2, [⟨0, 0⟩, ⟨1, 0⟩, ⟨0, 3⟩],
        [⟨0, 0⟩, ⟨1, 1⟩, ⟨0, 1⟩]⟩).toOption.isNone = true := by decide +kernel
    obtain ⟨g, hg, ⟨code, hcode, -⟩ | hnone, honly⟩ := @ofSpec_logical ⟨6, .one, .one⟩ (by decide +kernel)
      ⟨2, 2, [⟨0, 0⟩, ⟨1, 0⟩, ⟨0, 3⟩], [⟨0, 0⟩, ⟨1, 1⟩, ⟨0, 1⟩]⟩ (by decide) (by decide) (by decide +kernel)
    · rw [hcode] at hrefused
      cases hrefused
    · exact ⟨g, hg, honly.mp hnone⟩

end Bicycle

end QuantumMemory

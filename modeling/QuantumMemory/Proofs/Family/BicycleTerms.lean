/-
  QuantumMemory.Proofs.Family.BicycleTerms — a bivariate bicycle code has its polynomials as sets
  of group elements.

  The construction sees exponents modulo the orders only (`SameTerms.bicycle_eq`). The order of
  the terms decides when a check meets a data qubit and not whether: with the terms in another
  order the qubits stay as they are (`SameElements.unlinked_eq`), and every check has the same
  data (`SameElements.support_perm`). So both parity checks have the same rows
  (`Graph.checkMatrix_congr`), and the search for a logical operator comes to the same end.

  - `Bicycle.ofSpec_sameElements`: with the same group elements in its polynomials a code is made
    or refused alike, and has the same qubits, supports and logical operator; with its terms in
    the same order it is the same code.
-/

import Mathlib.Data.List.Forall2
import Mathlib.Data.Nat.ModEq
import QuantumMemory.Proofs.Family.BicycleLogical

namespace QuantumMemory

open BitMatrix

/-- One group element: the exponents differ by multiples of the orders. -/
def Monomial.Congruent (l m : Nat) (t t' : Monomial) : Prop := t.x ≡ t'.x [MOD l] ∧ t.y ≡ t'.y [MOD m]

instance Monomial.instDecidableCongruent (l m : Nat) (t t' : Monomial) : Decidable (t.Congruent l m t') :=
  inferInstanceAs (Decidable (t.x ≡ t'.x [MOD l] ∧ t.y ≡ t'.y [MOD m]))

/-- The shift that a monomial of reduced exponents stands for. -/
def Monomial.shift (t : Monomial) : Int × Int := (t.x, t.y)

/-- A node without its links. -/
def Node.unlinked (n : Node) : Node := { n with links := [] }

namespace Graph

theorem vector_perm {support support' : List Nat} (h : support.Perm support') : vector support = vector support' := by
  refine entries_inj.mp (funext fun c => ?_)
  rw [entries_vector, entries_vector, h.count_eq]

/-- A row does not tell in which order a check meets its data. -/
theorem checkMatrix_congr {g g' : Graph} {b : CheckBasis} (n : Nat) (hchecks : g'.checkQubits b = g.checkQubits b)
    (hsupport : ∀ c ∈ g.checkQubits b, (g'.support c).Perm (g.support c)) : g'.checkMatrix n b = g.checkMatrix n b := by
  rw [checkMatrix, checkMatrix, hchecks]
  exact congrArg (BitMatrix.mk n) (List.map_congr_left fun c hc => vector_perm (hsupport c hc))

end Graph

namespace BicycleSpec

/-- Term by term the same group elements. -/
structure SameTerms (s s' : BicycleSpec) : Prop where
  l : s'.l = s.l
  m : s'.m = s.m
  a : List.Forall₂ (Monomial.Congruent s.l s.m) s.a s'.a
  b : List.Forall₂ (Monomial.Congruent s.l s.m) s.b s'.b

/-- The same group elements, the terms of a polynomial in whatever order. -/
structure SameElements (s s' : BicycleSpec) : Prop where
  l : s'.l = s.l
  m : s'.m = s.m
  a : ∃ ts : List Monomial, ts.Perm s.a ∧ List.Forall₂ (Monomial.Congruent s.l s.m) ts s'.a
  b : ∃ ts : List Monomial, ts.Perm s.b ∧ List.Forall₂ (Monomial.Congruent s.l s.m) ts s'.b

variable {s s' : BicycleSpec}

theorem SameTerms.sameElements (h : SameTerms s s') : SameElements s s' :=
  ⟨h.l, h.m, ⟨s.a, .refl _, h.a⟩, ⟨s.b, .refl _, h.b⟩⟩

/-! ## Validity -/

theorem repeated?_of_nodup {ts : List Monomial} (h : ts.Nodup) : repeated? ts = none := by
  induction ts with
  | nil => rfl
  | cons t rest ih =>
    obtain ⟨hnew, hrest⟩ := List.nodup_cons.mp h
    rw [repeated?, if_neg hnew]
    exact ih hrest

theorem validate_of_valid (hv : s.Valid) : s.validate = .ok () := by
  have horders : ¬(s.l = 0 ∨ s.m = 0 ∨ maxOrder < s.l ∨ maxOrder < s.m) := by
    have h1 := hv.lPos
    have h2 := hv.mPos
    have h3 := hv.lLe
    have h4 := hv.mLe
    omega
  rw [validate, if_neg horders]
  simp only [checkTerms, repeated?_of_nodup hv.aNodup, repeated?_of_nodup hv.bNodup, bind, Except.bind]

/-! ## Terms as the group sees them -/

theorem map_reduce_eq (hl : s'.l = s.l) (hm : s'.m = s.m) {ts ts' : List Monomial}
    (h : List.Forall₂ (Monomial.Congruent s.l s.m) ts ts') : ts'.map s'.reduce = ts.map s.reduce := by
  induction h with
  | nil => rfl
  | cons ht _ ih =>
    obtain ⟨hx, hy⟩ := ht
    rw [List.map_cons, List.map_cons, ih, reduce, reduce, hl, hm, hx, hy]

theorem SameTerms.map_a (h : SameTerms s s') : s'.a.map s'.reduce = s.a.map s.reduce := map_reduce_eq h.l h.m h.a

theorem SameTerms.map_b (h : SameTerms s s') : s'.b.map s'.reduce = s.b.map s.reduce := map_reduce_eq h.l h.m h.b

theorem SameElements.map_a (h : SameElements s s') : (s'.a.map s'.reduce).Perm (s.a.map s.reduce) := by
  obtain ⟨ts, hperm, hts⟩ := h.a
  rw [map_reduce_eq h.l h.m hts]
  exact hperm.map s.reduce

theorem SameElements.map_b (h : SameElements s s') : (s'.b.map s'.reduce).Perm (s.b.map s.reduce) := by
  obtain ⟨ts, hperm, hts⟩ := h.b
  rw [map_reduce_eq h.l h.m hts]
  exact hperm.map s.reduce

theorem SameElements.valid (h : SameElements s s') (hv : s.Valid) : s'.Valid where
  lPos := h.l.symm ▸ hv.lPos
  mPos := h.m.symm ▸ hv.mPos
  lLe := h.l.symm ▸ hv.lLe
  mLe := h.m.symm ▸ hv.mLe
  aNodup := h.map_a.nodup_iff.mpr hv.aNodup
  bNodup := h.map_b.nodup_iff.mpr hv.bNodup

theorem SameElements.length_a (h : SameElements s s') : s'.a.length = s.a.length := by
  simpa using h.map_a.length_eq

theorem SameElements.length_b (h : SameElements s s') : s'.b.length = s.b.length := by
  simpa using h.map_b.length_eq

/-- The shifts of a check by polynomials of reduced exponents. -/
def shiftsBy (as bs : List Monomial) : CheckBasis → List (Half × (Int × Int))
  | .x => as.map (fun t => (.left, t.shift)) ++ bs.map (fun t => (.right, t.shift))
  | .y => []
  | .z => bs.map (fun t => (.left, -t.shift)) ++ as.map (fun t => (.right, -t.shift))

theorem shifts_eq (b : CheckBasis) : s.shifts b = shiftsBy (s.a.map s.reduce) (s.b.map s.reduce) b := by
  cases b with
  | x =>
    rw [shiftsBy, List.map_map, List.map_map]
    rfl
  | y => rfl
  | z =>
    rw [shiftsBy, List.map_map, List.map_map]
    rfl

theorem shiftsBy_perm {as as' bs bs' : List Monomial} (ha : as'.Perm as) (hb : bs'.Perm bs) (b : CheckBasis) :
    (shiftsBy as' bs' b).Perm (shiftsBy as bs b) := by
  cases b with
  | x => exact (ha.map _).append (hb.map _)
  | y => exact .refl _
  | z => exact (hb.map _).append (ha.map _)

/-! ## The graph -/

section Orders

variable (hl : s'.l = s.l) (hm : s'.m = s.m)

include hl hm

theorem elements_congr : s'.elements = s.elements := by rw [elements, elements, hl, hm]

theorem left_congr : s'.left = s.left := by
  funext p
  rw [left, left, hl, hm]

theorem datum_congr : s'.datum = s.datum := by
  funext half p
  cases half with
  | left => rw [datum, datum, left_congr hl hm]
  | right => rw [datum, datum, right, right, left_congr hl hm, hl, hm]

theorem checkAt_congr (b : CheckBasis) (g : Int × Int) : s'.checkAt b g = s.checkAt b g := by
  cases b <;> simp only [checkAt, left_congr hl hm, hl, hm]

theorem checkQubits_congr (b : CheckBasis) : s'.bicycle.checkQubits b = s.bicycle.checkQubits b := by
  cases b with
  | x => rw [xChecks_bicycle, xChecks_bicycle, hl, hm]
  | y => rw [yChecks_bicycle, yChecks_bicycle]
  | z => rw [zChecks_bicycle, zChecks_bicycle, hl, hm]

end Orders

theorem map_unlinked_nodes : s.nodes.map Node.unlinked = s.apart := by
  simp only [nodes, apart, List.map_append, List.map_map]
  rfl

/-- The polynomials decide about links only. -/
theorem SameElements.unlinked_eq (h : SameElements s s') :
    s'.bicycle.nodes.map Node.unlinked = s.bicycle.nodes.map Node.unlinked := by
  have harray : ∀ r : BicycleSpec, r.bicycle.nodes.map Node.unlinked = r.apart.toArray := by
    intro r
    rw [← map_unlinked_nodes]
    exact List.map_toArray
  rw [harray, harray, apart, apart, elements_congr h.l h.m]

theorem SameElements.reached_perm (h : SameElements s s') (b : CheckBasis) (g : Int × Int) :
    (s'.reached b g).Perm (s.reached b g) := by
  rw [reached, reached, shifts_eq, shifts_eq, datum_congr h.l h.m]
  exact (shiftsBy_perm h.map_a h.map_b b).map _

theorem SameElements.support_perm (h : SameElements s s') (hv : s.Valid) {b : CheckBasis} {c : Qubit}
    (hc : c ∈ s.bicycle.checkQubits b) : (s'.bicycle.support c).Perm (s.bicycle.support c) := by
  obtain ⟨hb, g, hg, rfl⟩ := check_cases hc
  rw [support_check hv hb hg, ← checkAt_congr h.l h.m,
    support_check (h.valid hv) hb (by rwa [elements_congr h.l h.m])]
  exact h.reached_perm b g

theorem SameElements.findLogical_eq (h : SameElements s s') (hv : s.Valid) :
    Bicycle.findLogical s'.bicycle = Bicycle.findLogical s.bicycle := by
  have hmatrix : ∀ b, s'.bicycle.checkMatrix (2 * (s.l * s.m)) b = s.bicycle.checkMatrix (2 * (s.l * s.m)) b :=
    fun b => Graph.checkMatrix_congr _ (checkQubits_congr h.l h.m b) fun _ hc => h.support_perm hv hc
  have hdata : s'.bicycle.dataQubits = List.range (2 * (s.l * s.m)) := by rw [dataQubits_bicycle, h.l, h.m]
  obtain ⟨found, hfound⟩ := Option.isSome_iff_exists.mp (isSome_minWeightLogical?
    (x := s.bicycle.checkMatrix (2 * (s.l * s.m)) .x) (z := s.bicycle.checkMatrix (2 * (s.l * s.m)) .z) rfl)
  have hfound' := hfound
  rw [← hmatrix, ← hmatrix] at hfound'
  rw [Graph.findLogical_eq (bicycle_built (h.valid hv)).sound hdata hfound',
    Graph.findLogical_eq (bicycle_built hv).sound dataQubits_bicycle hfound, hdata, dataQubits_bicycle]

/-- The exponents count modulo the orders. -/
theorem SameTerms.bicycle_eq (h : SameTerms s s') : s'.bicycle = s.bicycle := by
  have hnode : ∀ b, s'.checkNode b = s.checkNode b := by
    intro b
    funext g
    rw [checkNode, checkNode, reached, reached, shifts_eq, shifts_eq, h.map_a, h.map_b, datum_congr h.l h.m]
  rw [bicycle, bicycle, nodes, nodes, hnode, hnode, elements_congr h.l h.m]

end BicycleSpec

/-! ## The code -/

namespace Bicycle

/-- Codes alike but for the times of their interactions: the same qubits, data for every check,
    and logical operator. -/
structure SameChecks (code code' : PlacedCode) : Prop where
  nodes : code'.graph.nodes.map Node.unlinked = code.graph.nodes.map Node.unlinked
  supports : ∀ b, ∀ c ∈ code.graph.checkQubits b, (code'.graph.support c).Perm (code.graph.support c)
  logical : code'.logical = code.logical

variable {params : CodeParams} {s s' : BicycleSpec}

/-- All that can fail is the search for a logical operator. -/
theorem ofSpec_eq (hp : params.validate = .ok ()) (ha : s.a.length = 3) (hb : s.b.length = 3) (hv : s.Valid) :
    ∃ l, ofSpec params s =
      (findLogical s.bicycle).map fun logical => ⟨"bivariate-bicycle", params, s.bicycle, l, logical⟩ := by
  obtain ⟨l, hl⟩ := Layout.ofGraph_total BicycleSpec.bicycle_declares
    (BicycleSpec.bicycle_noConflict hv ha hb (by decide)) .emit
  refine ⟨l, ?_⟩
  rw [ofSpec, hp, BicycleSpec.validate_of_valid hv, BicycleSpec.graph_eq hv]
  simp only [bind, Except.bind, hl]
  cases findLogical s.bicycle <;> rfl

/-- A code is made of its polynomials' graph, and looks no further. -/
theorem ofSpec_congr (params : CodeParams) (hv : s.Valid) (hv' : s'.Valid) (h : s'.bicycle = s.bicycle) :
    ofSpec params s' = ofSpec params s := by
  simp only [ofSpec, BicycleSpec.validate_of_valid hv, BicycleSpec.validate_of_valid hv', BicycleSpec.graph_eq hv,
    BicycleSpec.graph_eq hv', h]

theorem ofSpec_refused {e : CodeError} (hp : params.validate = .error e) (s : BicycleSpec) :
    ofSpec params s = .error e := by
  rw [ofSpec, hp]
  rfl

/-- The polynomials count as sets of group elements. Whatever exponents and order of terms
    stand for them, a valid choice is made into a code or refused alike; the codes have the
    same qubits, the same data for every check and the same logical operator, and with the
    terms in order the same graph and circuits. -/
theorem ofSpec_sameElements (ha : s.a.length = 3) (hb : s.b.length = 3) (hs : s.validate = .ok ())
    (h : s.SameElements s') :
    s'.validate = .ok () ∧
      (∀ params e, params.validate = .error e → ofSpec params s = .error e ∧ ofSpec params s' = .error e) ∧
      ∀ params, params.validate = .ok () →
        ((∃ code code', ofSpec params s = .ok code ∧ ofSpec params s' = .ok code' ∧ SameChecks code code' ∧
            (s.SameTerms s' → code'.graph = code.graph ∧
              ∀ rounds, (Code.placed code').buildMemory rounds = (Code.placed code).buildMemory rounds)) ∨
          ofSpec params s = .error (.noLogicalOperator .onlyStabilizers) ∧
            ofSpec params s' = .error (.noLogicalOperator .onlyStabilizers)) := by
  have hv := BicycleSpec.valid_of_validate hs
  have hv' := h.valid hv
  refine ⟨BicycleSpec.validate_of_valid hv', fun params e hp => ⟨ofSpec_refused hp s, ofSpec_refused hp s'⟩,
    fun params hp => ?_⟩
  obtain ⟨l, hmake⟩ := ofSpec_eq hp ha hb hv
  obtain ⟨l', hmake'⟩ := ofSpec_eq hp (h.length_a.trans ha) (h.length_b.trans hb) hv'
  rw [h.findLogical_eq hv] at hmake'
  rcases Graph.findLogical_cases (BicycleSpec.bicycle_built hv).sound BicycleSpec.dataQubits_bicycle with
    ⟨logical, hfound, -⟩ | ⟨hnone, -⟩
  · rw [hfound] at hmake hmake'
    refine .inl ⟨_, _, hmake, hmake', ⟨h.unlinked_eq, fun b c hc => h.support_perm hv hc, rfl⟩, fun hterms => ?_⟩
    have hsame := ofSpec_congr params hv hv' hterms.bicycle_eq
    rw [hmake, hmake'] at hsame
    have hcode := Except.ok.inj hsame
    exact ⟨hterms.bicycle_eq, fun rounds => by rw [hcode]⟩
  · rw [hnone] at hmake hmake'
    exact .inr ⟨hmake, hmake'⟩

/-- On a ring of three elements: larger exponents with the terms in another order, and larger
    exponents alone. -/
theorem ofSpec_sameElements_ring :
    let ring : BicycleSpec := ⟨3, 1, [⟨0, 0⟩, ⟨1, 0⟩, ⟨2, 0⟩], [⟨0, 0⟩, ⟨1, 0⟩, ⟨2, 0⟩]⟩
    let turned : BicycleSpec := ⟨3, 1, [⟨5, 7⟩, ⟨3, 0⟩, ⟨4, 0⟩], [⟨1, 2⟩, ⟨0, 0⟩, ⟨2, 0⟩]⟩
    let wound : BicycleSpec := ⟨3, 1, [⟨3, 7⟩, ⟨1, 0⟩, ⟨5, 0⟩], [⟨0, 2⟩, ⟨4, 0⟩, ⟨2, 0⟩]⟩
    ring.SameElements turned ∧ ring.SameElements wound ∧ ring.SameTerms wound ∧
      (∃ code code', ofSpec ⟨6, .one, .one⟩ ring = .ok code ∧ ofSpec ⟨6, .one, .one⟩ turned = .ok code' ∧
        SameChecks code code') ∧
      ∃ code code', ofSpec ⟨6, .one, .one⟩ ring = .ok code ∧ ofSpec ⟨6, .one, .one⟩ wound = .ok code' ∧
        code'.graph = code.graph := by
  intro ring turned wound
  have hp : CodeParams.validate ⟨6, .one, .one⟩ = .ok () := by decide +kernel
  have hring : ring.validate = .ok () := by decide +kernel
  have hturned : ring.SameElements turned :=
    ⟨rfl, rfl, ⟨[⟨2, 0⟩, ⟨0, 0⟩, ⟨1, 0⟩], by decide, by decide⟩, ⟨[⟨1, 0⟩, ⟨0, 0⟩, ⟨2, 0⟩], by decide, by decide⟩⟩
  have hterms : ring.SameTerms wound := ⟨rfl, rfl, by decide, by decide⟩
  have hmade : (ofSpec ⟨6, .one, .one⟩ ring).toOption.isSome = true := by decide +kernel
  refine ⟨hturned, hterms.sameElements, hterms, ?_, ?_⟩
  · rcases (ofSpec_sameElements (s := ring) rfl rfl hring hturned).2.2 _ hp with
      ⟨code, code', hcode, hcode', hsame, -⟩ | ⟨hnone, -⟩
    · exact ⟨code, code', hcode, hcode', hsame⟩
    · rw [hnone] at hmade
      cases hmade
  · rcases (ofSpec_sameElements (s := ring) rfl rfl hring hterms.sameElements).2.2 _ hp with
      ⟨code, code', hcode, hcode', -, hgraph⟩ | ⟨hnone, -⟩
    · exact ⟨code, code', hcode, hcode', (hgraph hterms).1⟩
    · rw [hnone] at hmade
      cases hmade

end Bicycle

end QuantumMemory

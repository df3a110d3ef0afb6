/-
  QuantumMemory.Proofs.Family.Decoration — a code at other rates, and its memory without noise.

  What a code is built from besides its parameters is a `Design`. The rates of the noise have
  no part in making a code: at any rates that are valid a design gives the same code
  (`make_withParams`), and at no noise the same memory but for the noise (`noise_decorates`).
-/

import QuantumMemory.Proofs.Family.Construction
import QuantumMemory.Proofs.Shor.Decoration

namespace QuantumMemory

/-! ## Other rates -/

section Rates

variable {params params' : CodeParams} (hd : params'.distance = params.distance) (hp : params'.validate = .ok ())

include hd hp

theorem Repetition.make_withParams {c : PlacedCode} (h : make params = .ok c) :
    make params' = .ok { c with params := params' } := by
  obtain ⟨⟨⟩, -, h⟩ := exists_of_bind h
  by_cases hsmall : params.distance < 2
  · rw [if_pos hsmall] at h
    cases h
  · rw [if_neg hsmall] at h
    obtain ⟨g, hg, h⟩ := exists_of_bind h
    obtain ⟨l, hl, h⟩ := exists_of_bind h
    cases h
    simp only [make, hp, hd, if_neg hsmall, hg, hl, bind, Except.bind, pure, Except.pure]

theorem RotatedSurface.make_withParams {c : PlacedCode} (h : make params = .ok c) :
    make params' = .ok { c with params := params' } := by
  obtain ⟨⟨⟩, -, h⟩ := exists_of_bind h
  by_cases hodd : params.distance < 3 ∨ params.distance % 2 = 0
  · rw [if_pos hodd] at h
    cases h
  · rw [if_neg hodd] at h
    obtain ⟨g, hg, h⟩ := exists_of_bind h
    obtain ⟨l, hl, h⟩ := exists_of_bind h
    cases h
    simp only [make, hp, hd, if_neg hodd, hg, hl, bind, Except.bind, pure, Except.pure]

omit hd in
theorem Bicycle.ofSpec_withParams {spec : BicycleSpec} {c : PlacedCode} (h : ofSpec params spec = .ok c) :
    ofSpec params' spec = .ok { c with params := params' } := by
  obtain ⟨⟨⟩, -, h⟩ := exists_of_bind h
  obtain ⟨⟨⟩, hs, h⟩ := exists_of_bind h
  obtain ⟨g, hg, h⟩ := exists_of_bind h
  obtain ⟨l, hl, h⟩ := exists_of_bind h
  obtain ⟨logical, hlog, h⟩ := exists_of_bind h
  cases h
  simp only [ofSpec, hp, hs, hg, hl, hlog, bind, Except.bind, pure, Except.pure]

theorem Bicycle.make_withParams {c : PlacedCode} (h : make params = .ok c) :
    make params' = .ok { c with params := params' } := by
  obtain ⟨⟨⟩, -, h⟩ := exists_of_bind h
  obtain ⟨spec, hs, h⟩ := exists_of_bind h
  rw [make, hp, hd, hs]
  exact ofSpec_withParams hp h

omit hd in
theorem LatticeSpec.make_withParams {spec : LatticeSpec} {c : PlacedCode} (h : make params spec = .ok c) :
    make params' spec = .ok { c with params := params' } := by
  obtain ⟨⟨⟩, -, h⟩ := exists_of_bind h
  obtain ⟨g, hg, h⟩ := exists_of_bind h
  obtain ⟨l, hl, h⟩ := exists_of_bind h
  obtain ⟨logical, hlog, h⟩ := exists_of_bind h
  by_cases hempty : logical.isEmpty = true
  · rw [if_pos hempty] at h
    cases h
  · rw [if_neg hempty] at h
    cases h
    simp only [make, hp, hg, hl, hlog, if_neg hempty, bind, Except.bind, pure, Except.pure]

theorem ShorCode.make_withParams {c : ShorCode} (h : make params = .ok c) : make params' = .ok ⟨params'⟩ := by
  obtain ⟨⟨⟩, -, h⟩ := exists_of_bind h
  by_cases hthree : params.distance % 3 = 0
  · exact (make_eq hp (hd ▸ hthree)).2
  · rw [if_neg hthree] at h
    cases h

end Rates

theorem CodeParams.noiseless_validate {params : CodeParams} (h : params.validate = .ok ()) :
    params.noiseless.validate = .ok () := by
  unfold CodeParams.validate at h
  by_cases hd : params.distance = 0
  · rw [if_pos hd] at h
    cases h
  · have hd' : ¬params.noiseless.distance = 0 := hd
    rw [CodeParams.validate, if_neg hd']
    rfl

/-- The same code with other parameters. -/
def Code.withParams (code : Code) (params : CodeParams) : Code :=
  match code with
  | placed c => placed { c with params }
  | shor _ => shor ⟨params⟩

/-! ## Designs -/

/-- What a code is built from besides its parameters. -/
inductive Design
  | builtIn (kind : CodeKind)
  | bicycle (spec : BicycleSpec)
  | lattice (spec : LatticeSpec)

namespace Design

/-- The code of the design with the given parameters. -/
def make : Design → CodeParams → Except CodeError Code
  | builtIn kind, params => kind.build params
  | bicycle spec, params => (Bicycle.ofSpec params spec).map .placed
  | lattice spec, params => (LatticeSpec.make params spec).map .placed

variable {design : Design} {params params' : CodeParams} {code : Code} (h : design.make params = .ok code)

include h

theorem made : code.Made := by
  cases design with
  | builtIn kind => exact .builtIn h
  | bicycle spec =>
    obtain ⟨c, hc, rfl⟩ := map_ok h
    exact .bicycle hc
  | lattice spec =>
    obtain ⟨c, hc, rfl⟩ := map_ok h
    exact .lattice hc

theorem validate_of_make : params.validate = .ok () := by
  -- Every constructor looks at its parameters first.
  have hfirst : ∀ {γ : Type} {f : Unit → Except CodeError γ} {g : γ → Code},
      (params.validate >>= f).map g = .ok code → params.validate = .ok () := by
    intro γ f g h
    obtain ⟨c, hc, -⟩ := map_ok h
    obtain ⟨⟨⟩, hp, -⟩ := exists_of_bind hc
    exact hp
  rcases design with kind | spec | spec
  · cases kind <;> exact hfirst h
  · exact hfirst h
  · exact hfirst h

theorem make_withParams (hd : params'.distance = params.distance) (hp : params'.validate = .ok ()) :
    design.make params' = .ok (code.withParams params') := by
  cases design with
  | builtIn kind =>
    cases kind with
    | repetition =>
      obtain ⟨c, hc, rfl⟩ := map_ok h
      exact congrArg (Except.map Code.placed) (Repetition.make_withParams hd hp hc)
    | rotatedSurface =>
      obtain ⟨c, hc, rfl⟩ := map_ok h
      exact congrArg (Except.map Code.placed) (RotatedSurface.make_withParams hd hp hc)
    | bivariateBicycle =>
      obtain ⟨c, hc, rfl⟩ := map_ok h
      exact congrArg (Except.map Code.placed) (Bicycle.make_withParams hd hp hc)
    | shor =>
      obtain ⟨c, hc, rfl⟩ := map_ok h
      exact congrArg (Except.map Code.shor) (ShorCode.make_withParams hd hp hc)
  | bicycle spec =>
    obtain ⟨c, hc, rfl⟩ := map_ok h
    exact congrArg (Except.map Code.placed) (Bicycle.ofSpec_withParams hp hc)
  | lattice spec =>
    obtain ⟨c, hc, rfl⟩ := map_ok h
    exact congrArg (Except.map Code.placed) (LatticeSpec.make_withParams hp hc)

/-- A code has the parameters that it is made with. -/
theorem withParams_self : code.withParams params = code := by
  have hagain := make_withParams h rfl (validate_of_make h)
  exact Except.ok.inj (hagain.symm.trans h)

/-- Whatever can be made can be made without noise, and its memories are then those with noise
    but for the noise, which stands in its places: the same instructions in the same order,
    the same ledger, the same failure. -/
theorem noise_decorates : ∃ bare, design.make params.noiseless = .ok bare ∧
    (code.numQubits < 2 ^ 30 → ∀ rounds, 1 ≤ rounds → ∃ e, code.buildMemory rounds = .ok e) ∧
    ∀ rounds, Memory.Matching params.depolarize1Rate params.depolarize2Rate (code.buildMemory rounds)
      (bare.buildMemory rounds) := by
  have hp := validate_of_make h
  have hself := withParams_self h
  refine ⟨_, make_withParams h rfl (CodeParams.noiseless_validate hp), ?_, fun rounds => ?_⟩
  · intro hsize rounds hpos
    exact ⟨_, (made h).buildMemory_eq hsize hpos⟩
  · rw [← hself]
    cases code with
    | placed c => exact Layout.buildMemory_matching hp c.layout c.name rounds c.logical
    | shor c => exact ShorCode.buildMemory_matching hp rounds

omit h in
theorem noise_decorates_line : ∃ code bare, (lattice Code.line).make ⟨3, .one, .one⟩ = .ok code ∧
    (lattice Code.line).make ⟨3, .zero, .zero⟩ = .ok bare ∧ code.numQubits = 5 ∧
    (∀ rounds, 1 ≤ rounds → ∃ e, code.buildMemory rounds = .ok e) ∧
    ∀ rounds, Memory.Matching .one .one (code.buildMemory rounds) (bare.buildMemory rounds) := by
  have hfive : ((lattice Code.line).make ⟨3, .one, .one⟩).toOption.map (·.numQubits) = some 5 := by decide +kernel
  cases hcode : (lattice Code.line).make ⟨3, .one, .one⟩ with
  | error e =>
    rw [hcode] at hfive
    cases hfive
  | ok code =>
    rw [hcode] at hfive
    have hsize : code.numQubits = 5 := Option.some.inj hfive
    obtain ⟨bare, hbare, hbuilds, hmatch⟩ := noise_decorates hcode
    exact ⟨code, bare, rfl, hbare, hsize, hbuilds (by rw [hsize]; decide), hmatch⟩

end Design

end QuantumMemory

/-
  QuantumMemory.Proofs.Lab.Selection — which sections of an experiment its code is built from.

  What is accepted selects one of three things (`Selects`): a lattice that is described, the
  bicycle family with polynomials of the user's own, or a family by its name. The code is then that of the
  selection's own constructor, and each section has a say in it, with one exception: polynomials
  may stand beside a lattice, and are passed over there.

  - `sections_decide`: what is accepted, and what each section of it does to the code.
  - `polynomials_beside_lattice`: not every section that is accepted is used.
-/

import QuantumMemory.Lab.Config
import QuantumMemory.Proofs.Success

namespace QuantumMemory

/-- What the code of an experiment can be built from. -/
inductive Selection
  | lattice (spec : LatticeSpec)
  | polynomials (spec : BicycleSpec)
  | family (kind : CodeKind)

namespace Selection

/-- The code by its own constructor. -/
def build (params : CodeParams) : Selection → Except CodeError Code
  | lattice spec => (spec.make params).map .placed
  | polynomials spec => (Bicycle.ofSpec params spec).map .placed
  | family kind => kind.build params

def memory (s : Selection) (params : CodeParams) (rounds : Nat) : Except CodeError Experiment := do
  (← s.build params).buildMemory rounds

end Selection

theorem Bicycle.ofSpec_name {params : CodeParams} {spec : BicycleSpec} {code : PlacedCode}
    (h : Bicycle.ofSpec params spec = .ok code) : code.name = "bivariate-bicycle" := by
  obtain ⟨⟨⟩, -, h⟩ := exists_of_bind h
  obtain ⟨⟨⟩, -, h⟩ := exists_of_bind h
  obtain ⟨g, -, h⟩ := exists_of_bind h
  obtain ⟨l, -, h⟩ := exists_of_bind h
  obtain ⟨logical, -, h⟩ := exists_of_bind h
  cases h
  rfl

namespace ExperimentConfig

variable {c : ExperimentConfig} {s s' : Selection}

/-- The memory of the code that is configured. -/
def memory (c : ExperimentConfig) (rounds : Nat) : Except LabError Experiment := do
  let code ← c.buildCode
  (code.buildMemory rounds).mapError .code

/-! ## Selection -/

/-- The sections that are given name the selection. Polynomials beside a lattice do not matter to it. -/
inductive Selects (c : ExperimentConfig) : Selection → Prop
  | lattice {spec : LatticeSpec} (hcode : c.code = none) (hlattice : c.lattice = some spec) : Selects c (.lattice spec)
  | polynomials {spec : BicycleSpec} (hcode : c.code = some .bivariateBicycle) (hlattice : c.lattice = none)
      (hbicycle : c.bicycle = some spec) : Selects c (.polynomials spec)
  | family {kind : CodeKind} (hcode : c.code = some kind) (hlattice : c.lattice = none) (hbicycle : c.bicycle = none) :
      Selects c (.family kind)

theorem Selects.unique (h : c.Selects s) (h' : c.Selects s') : s = s' := by
  cases h <;> cases h' <;> simp_all

theorem validateRounds_iff {rounds : Nat} : validateRounds rounds = .ok () ↔ 1 ≤ rounds := by
  unfold validateRounds
  split
  · simp_all
  · simp only [true_iff]
    omega

/-- What is accepted has valid numbers and sections that select something. -/
theorem validate_iff : c.validate = .ok () ↔ c.params.validate = .ok () ∧ 1 ≤ c.rounds ∧ ∃ s, c.Selects s := by
  constructor
  · intro h
    obtain ⟨⟨⟩, hparams, h⟩ := exists_of_bind h
    obtain ⟨⟨⟩, hrounds, h⟩ := exists_of_bind h
    refine ⟨mapError_ok.mp hparams, validateRounds_iff.mp (mapError_ok.mp hrounds), ?_⟩
    cases hcode : c.code with
    | none =>
      cases hlattice : c.lattice with
      | none =>
        simp only [hcode, hlattice] at h
        cases h
      | some spec => exact ⟨_, .lattice hcode hlattice⟩
    | some kind =>
      cases hlattice : c.lattice with
      | some spec =>
        simp only [hcode, hlattice] at h
        cases h
      | none =>
        cases hbicycle : c.bicycle with
        | none => exact ⟨_, .family hcode hlattice hbicycle⟩
        | some spec =>
          by_cases hkind : kind = .bivariateBicycle
          · subst hkind
            exact ⟨_, .polynomials hcode hlattice hbicycle⟩
          · simp only [hcode, hlattice, hbicycle, if_neg hkind] at h
            cases h
  · rintro ⟨hparams, hrounds, s, hs⟩
    rw [validate, hparams, validateRounds_iff.mpr hrounds]
    cases hs with
    | lattice hcode hlattice =>
      rw [hcode, hlattice]
      rfl
    | polynomials hcode hlattice hbicycle =>
      rw [hcode, hlattice, hbicycle]
      rfl
    | family hcode hlattice hbicycle =>
      rw [hcode, hlattice, hbicycle]
      rfl

theorem Selects.selectCode_eq (h : c.Selects s) : c.selectCode = (s.build c.params).mapError .code := by
  cases h with
  | lattice hcode hlattice =>
    rw [selectCode, hlattice]
    rfl
  | polynomials hcode hlattice hbicycle =>
    rw [selectCode, hcode, hlattice, hbicycle]
    rfl
  | @family kind hcode hlattice hbicycle =>
    rw [selectCode, hcode, hlattice, hbicycle]
    cases kind <;> rfl

theorem buildCode_eq (hvalid : c.validate = .ok ()) (h : c.Selects s) :
    c.buildCode = (s.build c.params).mapError .code := by
  rw [buildCode, hvalid]
  exact h.selectCode_eq

/-- Of what has the numbers of an accepted configuration only the sections matter. -/
theorem Selects.accepted {c' : ExperimentConfig} (h : c'.Selects s) (hvalid : c.validate = .ok ())
    (hparams : c'.params = c.params) (hrounds : c'.rounds = c.rounds) : c'.validate = .ok () := by
  obtain ⟨hp, hr, -⟩ := validate_iff.mp hvalid
  exact validate_iff.mpr ⟨hparams ▸ hp, hrounds ▸ hr, s, h⟩

/-! ## What a section does -/

/-- There are lattices with which the result is another one. -/
def LatticeCounts (c : ExperimentConfig) : Prop := ∃ spec, { c with lattice := some spec }.buildCode ≠ c.buildCode

/-- There are polynomials with which the result is another one. -/
def PolynomialsCount (c : ExperimentConfig) : Prop := ∃ spec, { c with bicycle := some spec }.buildCode ≠ c.buildCode

theorem Selects.withLattice {spec : LatticeSpec} (h : c.Selects (.lattice spec)) (other : LatticeSpec) :
    { c with lattice := some other }.Selects (.lattice other) := by
  cases h with
  | lattice hcode _ => exact .lattice hcode rfl

theorem Selects.withPolynomials {spec : BicycleSpec} (h : c.Selects (.polynomials spec)) (other : BicycleSpec) :
    { c with bicycle := some other }.Selects (.polynomials other) := by
  cases h with
  | polynomials hcode hlattice _ => exact .polynomials hcode hlattice rfl

/-- Beside a lattice polynomials come and go. -/
theorem Selects.besideLattice {spec : LatticeSpec} (h : c.Selects (.lattice spec)) (other : Option BicycleSpec) :
    { c with bicycle := other }.Selects (.lattice spec) := by
  cases h with
  | lattice hcode hlattice => exact .lattice hcode hlattice

/-- A lattice without sites. -/
def bareLattice (step : Binary64) (boundary : Boundary) : LatticeSpec :=
  ⟨"lattice", [], [], [.z, .x], [0, 1, 2, 3], [0, 1, 2, 3], step, boundary, [], .emit⟩

/-- Two lattices are refused for reasons of their own, so one of them makes a difference. -/
theorem Selects.latticeCounts {spec : LatticeSpec} (h : c.Selects (.lattice spec)) (hvalid : c.validate = .ok ()) :
    c.LatticeCounts := by
  have hrefused : ∀ (other : LatticeSpec) e, other.graph = .error e →
      { c with lattice := some other }.buildCode = .error (.code e) := by
    intro other e hgraph
    rw [buildCode_eq ((h.withLattice other).accepted hvalid rfl rfl) (h.withLattice other), Selection.build,
      LatticeSpec.make, (validate_iff.mp hvalid).1, hgraph]
    rfl
  have hstep := hrefused (bareLattice .zero .open) (.invalidLattice (.step .zero)) rfl
  have hperiods := hrefused (bareLattice .one (.toroidal 0 0)) (.invalidLattice (.periods 0 0)) rfl
  have hne : (.error (.code (.invalidLattice (.step .zero))) : Except LabError Code) ≠
      .error (.code (.invalidLattice (.periods 0 0))) := fun he => by cases he
  rcases hne.ne_or_ne c.buildCode with hdiffer | hdiffer
  · exact ⟨_, hstep ▸ hdiffer⟩
  · exact ⟨_, hperiods ▸ hdiffer⟩

/-- Polynomials over a group of the order `l` times nothing. -/
def barePolynomials (l : Nat) : BicycleSpec := ⟨l, 0, [⟨0, 0⟩, ⟨0, 1⟩, ⟨0, 2⟩], [⟨0, 0⟩, ⟨1, 0⟩, ⟨2, 0⟩]⟩

theorem Selects.polynomialsCount {spec : BicycleSpec} (h : c.Selects (.polynomials spec))
    (hvalid : c.validate = .ok ()) : c.PolynomialsCount := by
  have hrefused : ∀ l, { c with bicycle := some (barePolynomials l) }.buildCode =
      .error (.code (.invalidLattice (.groupOrders l 0))) := by
    intro l
    have hspec : (barePolynomials l).validate = .error (.invalidLattice (.groupOrders l 0)) := by
      rw [BicycleSpec.validate, if_pos (.inr (.inl rfl))]
      rfl
    rw [buildCode_eq ((h.withPolynomials _).accepted hvalid rfl rfl) (h.withPolynomials _), Selection.build,
      Bicycle.ofSpec, (validate_iff.mp hvalid).1, hspec]
    rfl
  have hne : (.error (.code (.invalidLattice (.groupOrders 0 0))) : Except LabError Code) ≠
      .error (.code (.invalidLattice (.groupOrders 1 0))) := fun he => by cases he
  rcases hne.ne_or_ne c.buildCode with hdiffer | hdiffer
  · exact ⟨_, hrefused 0 ▸ hdiffer⟩
  · exact ⟨_, hrefused 1 ▸ hdiffer⟩

/-! ## Main results -/

/-- What comes of a configuration that is accepted and selects `s`. -/
structure DecidedBy (c : ExperimentConfig) (s : Selection) : Prop where
  /-- The code, or the error, of the selection's own constructor. -/
  code : c.buildCode = (s.build c.params).mapError .code
  memory : ∀ rounds, c.memory rounds = (s.memory c.params rounds).mapError .code
  selected : c.buildCode ≠ .error (.config .nothingSelected)
  lattice : c.lattice.isSome = true → c.code = none ∧ c.LatticeCounts
  polynomials : c.bicycle.isSome = true → c.lattice = none → c.code = some .bivariateBicycle ∧ c.PolynomialsCount
  /-- Beside a lattice there may be any polynomials, or none, and the result is the same. -/
  passedOver : c.lattice.isSome = true → ∀ other, { c with bicycle := other }.validate = .ok () ∧
    { c with bicycle := other }.buildCode = c.buildCode

theorem Selects.decidedBy (h : c.Selects s) (hvalid : c.validate = .ok ()) : c.DecidedBy s where
  code := buildCode_eq hvalid h
  memory rounds := by
    rw [memory, buildCode_eq hvalid h, Selection.memory, mapError_bind]
  selected := by
    rw [buildCode_eq hvalid h]
    cases s.build c.params with
    | ok code => exact fun he => by cases he
    | error e => exact fun he => by cases he
  lattice hsome := by
    cases h with
    | lattice hcode hlattice => exact ⟨hcode, (Selects.lattice hcode hlattice).latticeCounts hvalid⟩
    | polynomials _ hlattice _ | family _ hlattice _ =>
      rw [hlattice] at hsome
      cases hsome
  polynomials hsome hnone := by
    cases h with
    | lattice _ hlattice =>
      rw [hlattice] at hnone
      cases hnone
    | polynomials hcode hlattice hbicycle =>
      exact ⟨hcode, (Selects.polynomials hcode hlattice hbicycle).polynomialsCount hvalid⟩
    | family _ _ hbicycle =>
      rw [hbicycle] at hsome
      cases hsome
  passedOver hsome other := by
    cases h with
    | lattice hcode hlattice =>
      have h := Selects.lattice hcode hlattice
      have hother := (h.besideLattice other).accepted hvalid rfl rfl
      exact ⟨hother, (buildCode_eq hother (h.besideLattice other)).trans (buildCode_eq hvalid h).symm⟩
    | polynomials _ hlattice _ | family _ hlattice _ =>
      rw [hlattice] at hsome
      cases hsome

/-- Accepted is what has valid numbers and sections that select something, and that is then
    built. Every section decides about it but polynomials beside a lattice. -/
theorem sections_decide (c : ExperimentConfig) :
    (c.validate = .ok () ↔ c.params.validate = .ok () ∧ 1 ≤ c.rounds ∧ ∃ s, c.Selects s) ∧
    ∀ s, c.validate = .ok () → c.Selects s → (∀ s', c.Selects s' → s' = s) ∧ c.DecidedBy s :=
  ⟨validate_iff, fun _ hvalid h => ⟨fun _ h' => h'.unique h, h.decidedBy hvalid⟩⟩

/-- One check on one data qubit. -/
def point : LatticeSpec :=
  ⟨"point", [⟨0, 0⟩], [⟨.z, ⟨1, 1⟩, none⟩], [.z], [0, 1, 2, 3], [0, 1, 2, 3], .ofRatio false 1 2, .open, [⟨0, 0⟩], .emit⟩

/-- The known polynomials for distance 6. -/
def six : BicycleSpec := ⟨6, 6, [⟨3, 0⟩, ⟨0, 1⟩, ⟨0, 2⟩], [⟨0, 3⟩, ⟨1, 0⟩, ⟨2, 0⟩]⟩

/-- A lattice, and polynomials beside it. -/
def beside : ExperimentConfig := ⟨none, ⟨3, .zero, .zero⟩, 2, some six, some point⟩

def apart : ExperimentConfig := ⟨some .bivariateBicycle, ⟨6, .zero, .zero⟩, 2, some six, none⟩

theorem beside_valid : beside.validate = .ok () := by decide

theorem sections_decide_beside :
    (beside.validate = .ok () ∧ beside.Selects (.lattice point) ∧ beside.DecidedBy (.lattice point)) ∧
    apart.validate = .ok () ∧ apart.Selects (.polynomials six) ∧ apart.DecidedBy (.polynomials six) :=
  have hbeside : beside.Selects (.lattice point) := .lattice rfl rfl
  have hapart : apart.Selects (.polynomials six) := .polynomials rfl rfl rfl
  have hvalid : apart.validate = .ok () := by decide
  ⟨⟨beside_valid, hbeside, ((sections_decide beside).2 _ beside_valid hbeside).2⟩,
    hvalid, hapart, ((sections_decide apart).2 _ hvalid hapart).2⟩

/-- The polynomials of an accepted configuration are not always those of its code. -/
theorem polynomials_beside_lattice : ¬ ∀ (c : ExperimentConfig) (spec : BicycleSpec), c.validate = .ok () →
    c.bicycle = some spec → c.buildCode = ((Bicycle.ofSpec c.params spec).map .placed).mapError .code := by
  intro hall
  have hcode := hall beside six beside_valid rfl
  have hname : beside.buildCode.toOption.map Code.name = some "point" := by decide +kernel
  rw [hcode] at hname
  cases hspec : Bicycle.ofSpec beside.params six with
  | error e =>
    rw [hspec] at hname
    cases hname
  | ok code =>
    rw [hspec] at hname
    have hother : code.name = "bivariate-bicycle" := Bicycle.ofSpec_name hspec
    have hpoint : code.name = "point" := Option.some.inj hname
    rw [hother] at hpoint
    exact absurd hpoint (by decide)

end ExperimentConfig

end QuantumMemory

/-
  QuantumMemory.Proofs.Lab.Shots — the shots of a sweep, and the ways in which a sweep comes about.

  Every rate of a sweep is a count of errors by the number of shots (`rates_of_run`). A sweep that is made, or
  made from a configuration, or given other rounds, is validated and has shots. One that is read
  from a text is taken as it is written (`Obtained`).

  - `run_obtained`: with shots all rates are probabilities. A sweep without shots can only have been
    read, and then no rate is a number.
  - `unvalidated_sweep_without_shots`: such a text exists.
-/

import QuantumMemory.Document.Json
import QuantumMemory.Lab.Config
import QuantumMemory.Proofs.Document.Fields
import QuantumMemory.Proofs.Lab.Sweep
import QuantumMemory.Proofs.Number.Rounding

namespace QuantumMemory

namespace ThresholdLab

/-! ## Rates -/

section Run

variable {σ : Type} {lab : ThresholdLab} {factory : Factory σ} {backend : Backend σ} {s s' : σ}

/-- A count of errors by the number of shots. -/
def IsRate (lab : ThresholdLab) (rate : Binary64) : Prop :=
  ∃ errors ≤ lab.shots, rate = Binary64.quotient errors lab.shots

theorem rateAt_isRate {d : Nat} {p rate : Binary64}
    (h : Lab.from s (lab.rateAt factory backend d p) = (.ok rate, s')) : lab.IsRate rate := by
  obtain ⟨params, s₁, -, h⟩ := Lab.from_bind_ok.mp h
  obtain ⟨make, s₂, -, h⟩ := Lab.from_bind_ok.mp h
  obtain ⟨experiment, s₃, -, h⟩ := Lab.from_bind_ok.mp h
  obtain ⟨errors, s₄, hcounted, h⟩ := Lab.from_bind_ok.mp h
  cases h
  exact ⟨errors, countLogicalErrors_le hcounted, rfl⟩

/-- All rates that are held are counts by the number of shots. -/
def HoldsRates (lab : ThresholdLab) (stats : ThresholdStats) : Prop :=
  ∀ entry ∈ stats.logicalErrorRates, ∀ rate ∈ entry.2, lab.IsRate rate

theorem pass_holdsRates {d : Nat} {stats stats' : ThresholdStats} (hstats : lab.HoldsRates stats)
    (h : Lab.from s (lab.pass factory backend stats d) = (.ok stats', s')) : lab.HoldsRates stats' := by
  obtain ⟨rates, s₁, hrates, h⟩ := Lab.from_bind_ok.mp h
  cases h
  intro entry hentry
  rcases ThresholdStats.mem_insertRates hentry with rfl | hentry
  · exact Lab.mapM_gives (fun _ _ _ _ => rateAt_isRate) hrates
  · exact hstats entry hentry

theorem rates_of_run {stats : ThresholdStats} (h : Lab.from s (lab.run factory backend) = (.ok stats, s')) :
    lab.HoldsRates stats :=
  Lab.foldlM_keeps (fun _ _ _ _ _ => pass_holdsRates) (fun _ hentry => absurd hentry List.not_mem_nil) h

end Run

/-! ## Sweeps and where they come from -/

/-- The ways to a sweep. The number of shots of one that is made is a 64-bit count. -/
inductive Obtained : ThresholdLab → Prop
  | made {distances : List Nat} {errorRates : List Binary64} {shots : Nat} {lab : ThresholdLab}
      (hword : shots ≤ Document.word64) (hmade : make distances errorRates shots = .ok lab) : Obtained lab
  | withRounds {before lab : ThresholdLab} {rounds : Nat} (hbefore : Obtained before)
      (hrounds : before.withRoundsPerDistance rounds = .ok lab) : Obtained lab
  | configured {config : ThresholdConfig} {lab : ThresholdLab} (hword : config.shots ≤ Document.word64)
      (hlab : config.lab = .ok lab) : Obtained lab
  | read {text : String} {lab : ThresholdLab} (hread : (Document.Json.read text).bind ofDocument? = some lab) :
      Obtained lab

variable {lab before : ThresholdLab}

theorem shots_ne_zero_of_validate (h : lab.validate = .ok ()) : lab.shots ≠ 0 := by
  intro hnone
  rw [validate, if_pos hnone] at h
  split at h <;> cases h

theorem make_ok {distances : List Nat} {errorRates : List Binary64} {shots : Nat}
    (h : make distances errorRates shots = .ok lab) : lab.shots = shots ∧ lab.shots ≠ 0 := by
  obtain ⟨⟨⟩, hvalid, h⟩ := exists_of_bind h
  cases h
  exact ⟨rfl, shots_ne_zero_of_validate hvalid⟩

theorem withRoundsPerDistance_ok {rounds : Nat} (h : before.withRoundsPerDistance rounds = .ok lab) :
    lab.shots = before.shots ∧ lab.shots ≠ 0 := by
  obtain ⟨⟨⟩, hvalid, h⟩ := exists_of_bind h
  cases h
  exact ⟨rfl, shots_ne_zero_of_validate hvalid⟩

theorem lab_ok {config : ThresholdConfig} (h : config.lab = .ok lab) : lab.shots = config.shots ∧ lab.shots ≠ 0 := by
  obtain ⟨made, hmade, hrounds⟩ := exists_of_bind h
  obtain ⟨hshots, hsome⟩ := withRoundsPerDistance_ok hrounds
  exact ⟨hshots.trans (make_ok hmade).1, hsome⟩

theorem shots_le_of_ofDocument? {d : Document} (h : ofDocument? d = some lab) : lab.shots ≤ Document.word64 := by
  simp only [ofDocument?, Option.bind_eq_bind, Option.bind_eq_some_iff, Option.pure_def, Option.some.injEq] at h
  obtain ⟨fields, -, distances, -, errorRates, -, shots, hshots, rounds, -, rfl⟩ := h
  obtain ⟨field, -, hread⟩ := Option.bind_eq_some_iff.mp hshots
  exact Document.natural?_le hread

theorem Obtained.shots_le (h : Obtained lab) : lab.shots ≤ Document.word64 := by
  induction h with
  | made hword hmade => exact (make_ok hmade).1 ▸ hword
  | withRounds _ hrounds ih => exact (withRoundsPerDistance_ok hrounds).1 ▸ ih
  | configured hword hlab => exact (lab_ok hlab).1 ▸ hword
  | read hread =>
    obtain ⟨d, -, hd⟩ := Option.bind_eq_some_iff.mp hread
    exact shots_le_of_ofDocument? hd

/-- All ways but reading end with a validation. -/
theorem Obtained.shots_ne_zero_or_read (h : Obtained lab) :
    lab.shots ≠ 0 ∨ ∃ text, (Document.Json.read text).bind ofDocument? = some lab := by
  cases h with
  | made _ hmade => exact .inl (make_ok hmade).2
  | withRounds _ hrounds => exact .inl (withRoundsPerDistance_ok hrounds).2
  | configured _ hlab => exact .inl (lab_ok hlab).2
  | read hread => exact .inr ⟨_, hread⟩

theorem IsRate.isProbability {rate : Binary64} (h : lab.IsRate rate) (hshots : lab.shots ≠ 0)
    (hword : lab.shots ≤ Document.word64) : rate.isProbability = true := by
  obtain ⟨errors, herrors, rfl⟩ := h
  exact Binary64.quotient_isProbability herrors (Nat.pos_of_ne_zero hshots) hword

theorem IsRate.eq_nan {rate : Binary64} (h : lab.IsRate rate) (hshots : lab.shots = 0) : rate = .nan := by
  obtain ⟨errors, herrors, rfl⟩ := h
  rw [hshots] at herrors ⊢
  rw [Nat.le_zero.mp herrors]
  rfl

/-- The rates of a sweep that succeeds, however the sweep came about and whatever the
    factory and the services: probabilities, unless there are no shots. Then the sweep was read from a
    text just as it is, and no rate is a number. -/
theorem run_obtained {σ : Type} (hlab : Obtained lab) {factory : Factory σ} {backend : Backend σ} {s s' : σ}
    {stats : ThresholdStats} (hrun : Lab.from s (lab.run factory backend) = (.ok stats, s')) :
    (lab.shots ≠ 0 → ∀ entry ∈ stats.logicalErrorRates, ∀ rate ∈ entry.2, rate.isProbability = true) ∧
    (lab.shots = 0 → (∃ text, (Document.Json.read text).bind ofDocument? = some lab) ∧
      ∀ entry ∈ stats.logicalErrorRates, ∀ rate ∈ entry.2, rate = .nan) := by
  have hrates := rates_of_run hrun
  constructor
  · exact fun hshots entry hentry rate hrate => (hrates entry hentry rate hrate).isProbability hshots hlab.shots_le
  · intro hnone
    refine ⟨?_, fun entry hentry rate hrate => (hrates entry hentry rate hrate).eq_nan hnone⟩
    rcases hlab.shots_ne_zero_or_read with hsome | hread
    · exact absurd hnone hsome
    · exact hread

/-- A text of a sweep without shots, and what it is read as. -/
def shotlessText : String :=
  "\x7b\"distances\":[3],\"error_rates\":[0.0],\"shots\":0,\"rounds_per_distance\":1\x7d"

def shotless : ThresholdLab := ⟨[3], [.zero], 0, 1⟩

theorem obtained_shotless : Obtained shotless :=
  .read (by decide +kernel : (Document.Json.read shotlessText).bind ofDocument? = some shotless)

theorem run_shotless : Lab.from 0 (shotless.run (.steady CodeKind.repetition.build) firstSampleErrs) =
    (.ok ⟨0, [.zero], [(3, [.nan])]⟩, 0) := by decide +kernel

/-- A sweep that is made with two shots, in one of which there is an error, and the one that is
    read and has no shots. -/
theorem run_obtained_shotless :
    let factory := Factory.steady CodeKind.repetition.build
    (∃ lab stats, make [2] [.zero] 2 = .ok lab ∧ Lab.from 0 (lab.run factory firstSampleErrs) = (.ok stats, 1) ∧
      stats.logicalErrorRates = [(2, [Binary64.quotient 1 2])] ∧ (Binary64.quotient 1 2).isProbability = true) ∧
    Lab.from 0 (shotless.run factory firstSampleErrs) = (.ok ⟨0, [.zero], [(3, [.nan])]⟩, 0) ∧
    ∃ text, (Document.Json.read text).bind ofDocument? = some shotless := by
  intro factory
  refine ⟨?_, ?_⟩
  · have hmade : make [2] [.zero] 2 = .ok ⟨[2], [.zero], 2, 3⟩ := by decide
    have hrun : Lab.from 0 ((⟨[2], [.zero], 2, 3⟩ : ThresholdLab).run factory firstSampleErrs) =
        (.ok ⟨2, [.zero], [(2, [Binary64.quotient 1 2])]⟩, 1) := by decide +kernel
    have hrates := (run_obtained (.made (by decide) hmade) hrun).1 (by decide)
    exact ⟨_, _, hmade, hrun, rfl, hrates _ (List.mem_singleton_self _) _ (List.mem_singleton_self _)⟩
  · exact ⟨run_shotless, ((run_obtained obtained_shotless run_shotless).2 rfl).1⟩

/-- The rates of a sweep that succeeds are not always probabilities: a text is read without
    validation. -/
theorem unvalidated_sweep_without_shots : ¬ ∀ (lab : ThresholdLab) (factory : Factory Nat) (backend : Backend Nat)
    (s s' : Nat) (stats : ThresholdStats), Obtained lab → Lab.from s (lab.run factory backend) = (.ok stats, s') →
      ∀ entry ∈ stats.logicalErrorRates, ∀ rate ∈ entry.2, rate.isProbability = true := by
  intro hall
  have hrates := hall shotless _ _ _ _ _ obtained_shotless run_shotless
  have hnan : Binary64.nan.isProbability = true :=
    hrates (3, [.nan]) (List.mem_singleton_self _) .nan (List.mem_singleton_self _)
  cases hnan

end ThresholdLab

end QuantumMemory

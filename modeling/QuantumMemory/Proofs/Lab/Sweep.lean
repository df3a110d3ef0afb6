/-
  QuantumMemory.Proofs.Lab.Sweep — what a sweep asks for, and what it makes of the answers.

  A point of the grid is one call of the factory, one memory circuit and one count of logical
  errors, each begun in the state that the one before it left (`Measures`), or it fails with the first
  of these that does (`Fails`). A sweep visits the points in order, distance by distance
  (`Visits`), and ends with the first that fails (`Stops`). Services may do to the state what they
  like, so what is not in these relations is not asked for.

  - `run_sweeps`: the sweep succeeds just if every point does, and then holds for each distance
    the rates of its last pass, all of them probabilities; it fails just with the first point
    that does, in the state that this left.
-/

import Mathlib.Data.List.Basic
import QuantumMemory.Document.Read
import QuantumMemory.Proofs.Lab.Rates
import QuantumMemory.Proofs.Lab.Work
import QuantumMemory.Proofs.Number.Rounding

namespace QuantumMemory

namespace ThresholdLab

/-- A distance and a physical rate. -/
abbrev Point := Nat × Binary64

/-- The points in their order: the rates for the first distance, for the second, and so on. -/
def grid (lab : ThresholdLab) : List Point := lab.distances.product lab.errorRates

section Trace

variable {σ : Type} (lab : ThresholdLab) (factory : Factory σ) (backend : Backend σ)

/-- A point goes well: a fresh code, its memory for the rounds of the distance, the errors
    counted once. -/
inductive Measures : Point → σ → Nat → σ → Prop
  | point {d : Nat} {p : Binary64} {s s₁ s₂ s₃ : σ} {make : MemoryMaker σ} {experiment : Experiment} {errors : Nat}
      (hparams : CodeParams.checked d p p = .ok ⟨d, p, p⟩)
      (hmade : Workshop.from s (factory ⟨d, p, p⟩) = (.ok make, s₁))
      (hbuilt : Workshop.from s₁ (make (lab.roundsPerDistance * d)) = (.ok experiment, s₂))
      (hcounted : Lab.from s₂ (countLogicalErrors backend experiment.circuit lab.shots) = (.ok errors, s₃)) :
      Measures (d, p) s errors s₃

/-- A point fails with its first step that does. -/
inductive Fails : Point → σ → LabError → σ → Prop
  | params {d : Nat} {p : Binary64} {s : σ} {e : CodeError} (hparams : CodeParams.checked d p p = .error e) :
      Fails (d, p) s (.code e) s
  | factory {d : Nat} {p : Binary64} {s s₁ : σ} {e : CodeError} (hparams : CodeParams.checked d p p = .ok ⟨d, p, p⟩)
      (hmade : Workshop.from s (factory ⟨d, p, p⟩) = (.error e, s₁)) : Fails (d, p) s (.code e) s₁
  | memory {d : Nat} {p : Binary64} {s s₁ s₂ : σ} {make : MemoryMaker σ} {e : CodeError}
      (hparams : CodeParams.checked d p p = .ok ⟨d, p, p⟩)
      (hmade : Workshop.from s (factory ⟨d, p, p⟩) = (.ok make, s₁))
      (hbuilt : Workshop.from s₁ (make (lab.roundsPerDistance * d)) = (.error e, s₂)) : Fails (d, p) s (.code e) s₂
  | errors {d : Nat} {p : Binary64} {s s₁ s₂ s₃ : σ} {make : MemoryMaker σ} {experiment : Experiment} {e : LabError}
      (hparams : CodeParams.checked d p p = .ok ⟨d, p, p⟩)
      (hmade : Workshop.from s (factory ⟨d, p, p⟩) = (.ok make, s₁))
      (hbuilt : Workshop.from s₁ (make (lab.roundsPerDistance * d)) = (.ok experiment, s₂))
      (hcounted : Lab.from s₂ (countLogicalErrors backend experiment.circuit lab.shots) = (.error e, s₃)) :
      Fails (d, p) s e s₃

/-- All points go well, one after the other; the list of numbers is their errors. -/
inductive Visits : List Point → σ → List Nat → σ → Prop
  | nil {s : σ} : Visits [] s [] s
  | cons {point : Point} {points : List Point} {s s₁ s₂ : σ} {errors : Nat} {counts : List Nat}
      (hfirst : Measures lab factory backend point s errors s₁) (hrest : Visits points s₁ counts s₂) :
      Visits (point :: points) s (errors :: counts) s₂

/-- The points before some point go well, and this one fails. -/
def Stops (points : List Point) (s : σ) (e : LabError) (s' : σ) : Prop :=
  ∃ before point after counts s₁, points = before ++ point :: after ∧ Visits lab factory backend before s counts s₁ ∧
    Fails lab factory backend point s₁ e s'

end Trace

/-- The errors of a sweep, pass by pass: as many passes as distances, and in each as many counts
    as rates. -/
structure Passes (lab : ThresholdLab) (passes : List (List Nat)) : Prop where
  count : passes.length = lab.distances.length
  width : ∀ counts ∈ passes, counts.length = lab.errorRates.length

/-- What a sweep makes of its passes. -/
structure Collects (lab : ThresholdLab) (passes : List (List Nat)) (stats : ThresholdStats) : Prop where
  shots : stats.shots = lab.shots
  errorRates : stats.errorRates = lab.errorRates
  ascend : (stats.logicalErrorRates.map Prod.fst).Pairwise (· < ·)
  keys : ∀ d, d ∈ stats.logicalErrorRates.map Prod.fst ↔ d ∈ lab.distances
  lastPass : ∀ (i d : Nat) (counts : List Nat), lab.distances[i]? = some d → (∀ j > i, lab.distances[j]? ≠ some d) →
    passes[i]? = some counts → stats.get? d = some (counts.map (Binary64.quotient · lab.shots))
  probability : ∀ entry ∈ stats.logicalErrorRates, ∀ rate ∈ entry.2, rate.isProbability = true

/-! ## Traces -/

section Trace

variable {σ : Type} {lab : ThresholdLab} {factory : Factory σ} {backend : Backend σ} {s s' : σ}

theorem Visits.length {points : List Point} {counts : List Nat} (h : Visits lab factory backend points s counts s') :
    counts.length = points.length := by
  induction h with
  | nil => rfl
  | cons _ _ ih => rw [List.length_cons, List.length_cons, ih]

theorem visits_append {before after : List Point} {counts : List Nat} :
    Visits lab factory backend (before ++ after) s counts s' ↔
      ∃ early late s₁, counts = early ++ late ∧ Visits lab factory backend before s early s₁ ∧
        Visits lab factory backend after s₁ late s' := by
  induction before generalizing s counts with
  | nil =>
    constructor
    · exact fun h => ⟨[], counts, s, rfl, .nil, h⟩
    · rintro ⟨_, _, _, rfl, ⟨⟩, h⟩
      exact h
  | cons point rest ih =>
    constructor
    · rintro (⟨⟩ | ⟨hfirst, hrest⟩)
      obtain ⟨early, late, s₁, rfl, hearly, hlate⟩ := ih.mp hrest
      exact ⟨_ :: early, late, s₁, rfl, .cons hfirst hearly, hlate⟩
    · rintro ⟨_, late, s₁, rfl, ⟨⟩ | ⟨hfirst, hearly⟩, hlate⟩
      exact .cons hfirst (ih.mpr ⟨_, late, s₁, rfl, hearly, hlate⟩)

theorem not_stops_nil {e : LabError} : ¬Stops lab factory backend [] s e s' := by
  rintro ⟨before, point, after, counts, s₁, hsplit, -⟩
  simp at hsplit

theorem stops_cons {point : Point} {points : List Point} {e : LabError} :
    Stops lab factory backend (point :: points) s e s' ↔
      Fails lab factory backend point s e s' ∨
        ∃ errors s₁, Measures lab factory backend point s errors s₁ ∧ Stops lab factory backend points s₁ e s' := by
  constructor
  · rintro ⟨before, failed, after, counts, s₁, hsplit, hbefore, hfails⟩
    cases hbefore with
    | nil =>
      cases hsplit
      exact .inl hfails
    | cons hfirst hrest =>
      cases hsplit
      exact .inr ⟨_, _, hfirst, _, failed, after, _, s₁, rfl, hrest, hfails⟩
  · rintro (hfails | ⟨errors, s₁, hfirst, before, failed, after, counts, s₂, rfl, hbefore, hfails⟩)
    · exact ⟨[], point, points, [], s, rfl, .nil, hfails⟩
    · exact ⟨point :: before, failed, after, errors :: counts, s₂, rfl, .cons hfirst hbefore, hfails⟩

theorem stops_append {before after : List Point} {e : LabError} :
    Stops lab factory backend (before ++ after) s e s' ↔
      Stops lab factory backend before s e s' ∨
        ∃ counts s₁, Visits lab factory backend before s counts s₁ ∧ Stops lab factory backend after s₁ e s' := by
  induction before generalizing s with
  | nil =>
    constructor
    · exact fun h => .inr ⟨[], s, .nil, h⟩
    · rintro (h | ⟨_, _, ⟨⟩, h⟩)
      · exact absurd h not_stops_nil
      · exact h
  | cons point rest ih =>
    rw [List.cons_append, stops_cons, stops_cons]
    constructor
    · rintro (hfails | ⟨errors, s₁, hfirst, hrest⟩)
      · exact .inl (.inl hfails)
      · rcases ih.mp hrest with hrest | ⟨counts, s₂, hvisits, hafter⟩
        · exact .inl (.inr ⟨errors, s₁, hfirst, hrest⟩)
        · exact .inr ⟨errors :: counts, s₂, .cons hfirst hvisits, hafter⟩
    · rintro ((hfails | ⟨errors, s₁, hfirst, hrest⟩) | ⟨_, s₂, ⟨⟩ | ⟨hfirst, hvisits⟩, hafter⟩)
      · exact .inl hfails
      · exact .inr ⟨errors, s₁, hfirst, ih.mpr (.inl hrest)⟩
      · exact .inr ⟨_, _, hfirst, ih.mpr (.inr ⟨_, s₂, hvisits, hafter⟩)⟩

/-! ## Points -/

theorem checked_eq_ok_iff {d : Nat} {p : Binary64} {params : CodeParams} :
    CodeParams.checked d p p = .ok params ↔ params = ⟨d, p, p⟩ ∧ CodeParams.checked d p p = .ok ⟨d, p, p⟩ := by
  constructor
  · intro h
    obtain ⟨-, hvalid, hparams⟩ := exists_of_bind h
    cases hparams
    exact ⟨rfl, h⟩
  · rintro ⟨rfl, h⟩
    exact h

variable {d : Nat} {p : Binary64} (hd : lab.rounds d = lab.roundsPerDistance * d)

include hd

theorem rateAt_ok {rate : Binary64} :
    Lab.from s (lab.rateAt factory backend d p) = (.ok rate, s') ↔
      ∃ errors, Measures lab factory backend (d, p) s errors s' ∧ rate = Binary64.quotient errors lab.shots := by
  simp only [rateAt, Lab.from_bind_ok, Lab.from_ofExcept_code_ok, Lab.from_ofWorkshop_ok, Lab.from_pure, hd]
  constructor
  · rintro ⟨params, _, ⟨hchecked, rfl⟩, make, s₁, hmade, experiment, s₂, hbuilt, errors, s₃, hcounted, hrate⟩
    obtain ⟨rfl, hparams⟩ := checked_eq_ok_iff.mp hchecked
    cases hrate
    exact ⟨errors, .point hparams hmade hbuilt hcounted, rfl⟩
  · rintro ⟨errors, ⟨hparams, hmade, hbuilt, hcounted⟩, rfl⟩
    exact ⟨_, _, ⟨hparams, rfl⟩, _, _, hmade, _, _, hbuilt, _, _, hcounted, rfl⟩

theorem rateAt_error {e : LabError} :
    Lab.from s (lab.rateAt factory backend d p) = (.error e, s') ↔ Fails lab factory backend (d, p) s e s' := by
  simp only [rateAt, Lab.from_bind_error, Lab.from_ofExcept_code_ok, Lab.from_ofExcept_code_error, Lab.from_ofWorkshop_ok,
    Lab.from_ofWorkshop_error, Lab.from_pure, hd]
  constructor
  · rintro (⟨c, hparams, rfl, rfl⟩ | ⟨params, _, ⟨hchecked, rfl⟩, hrest⟩)
    · exact .params hparams
    obtain ⟨rfl, hparams⟩ := checked_eq_ok_iff.mp hchecked
    rcases hrest with ⟨c, hmade, rfl⟩ | ⟨make, s₁, hmade, hrest⟩
    · exact .factory hparams hmade
    rcases hrest with ⟨c, hbuilt, rfl⟩ | ⟨experiment, s₂, hbuilt, hrest⟩
    · exact .memory hparams hmade hbuilt
    rcases hrest with hcounted | ⟨errors, s₃, -, hnone⟩
    · exact .errors hparams hmade hbuilt hcounted
    · cases hnone
  · rintro (hparams | ⟨hparams, hmade⟩ | ⟨hparams, hmade, hbuilt⟩ | ⟨hparams, hmade, hbuilt, hcounted⟩)
    · exact .inl ⟨_, hparams, rfl, rfl⟩
    · exact .inr ⟨_, _, ⟨hparams, rfl⟩, .inl ⟨_, hmade, rfl⟩⟩
    · exact .inr ⟨_, _, ⟨hparams, rfl⟩, .inr ⟨_, _, hmade, .inl ⟨_, hbuilt, rfl⟩⟩⟩
    · exact .inr ⟨_, _, ⟨hparams, rfl⟩, .inr ⟨_, _, hmade, .inr ⟨_, _, hbuilt, .inl hcounted⟩⟩⟩

/-! ## Passes -/

theorem mapM_rateAt_ok {rates : List Binary64} {measured : List Binary64} :
    Lab.from s (rates.mapM (lab.rateAt factory backend d)) = (.ok measured, s') ↔
      ∃ counts, Visits lab factory backend (rates.map (d, ·)) s counts s' ∧
        measured = counts.map (Binary64.quotient · lab.shots) := by
  induction rates generalizing s s' measured with
  | nil =>
    rw [List.mapM_nil, Lab.from_pure]
    constructor
    · rintro ⟨⟩
      exact ⟨[], .nil, rfl⟩
    · rintro ⟨_, ⟨⟩, rfl⟩
      rfl
  | cons p rest ih =>
    simp only [List.mapM_cons, Lab.from_bind_ok, Lab.from_pure, rateAt_ok hd, ih, List.map_cons]
    constructor
    · rintro ⟨_, s₁, ⟨errors, hfirst, rfl⟩, _, s₂, ⟨counts, hrest, rfl⟩, hpure⟩
      cases hpure
      exact ⟨errors :: counts, .cons hfirst hrest, rfl⟩
    · rintro ⟨_, ⟨⟩ | ⟨hfirst, hrest⟩, rfl⟩
      exact ⟨_, _, ⟨_, hfirst, rfl⟩, _, _, ⟨_, hrest, rfl⟩, rfl⟩

theorem mapM_rateAt_error {rates : List Binary64} {e : LabError} :
    Lab.from s (rates.mapM (lab.rateAt factory backend d)) = (.error e, s') ↔
      Stops lab factory backend (rates.map (d, ·)) s e s' := by
  induction rates generalizing s with
  | nil =>
    rw [List.mapM_nil, Lab.from_pure]
    exact ⟨fun h => (by cases h), fun h => absurd h not_stops_nil⟩
  | cons p rest ih =>
    simp only [List.mapM_cons, Lab.from_bind_error, Lab.from_pure, rateAt_ok hd, rateAt_error hd, ih, List.map_cons,
      stops_cons]
    constructor
    · rintro (hfails | ⟨_, s₁, ⟨errors, hfirst, rfl⟩, hrest | ⟨_, _, -, hnone⟩⟩)
      · exact .inl hfails
      · exact .inr ⟨errors, s₁, hfirst, hrest⟩
      · cases hnone
    · rintro (hfails | ⟨errors, s₁, hfirst, hrest⟩)
      · exact .inl hfails
      · exact .inr ⟨_, s₁, ⟨errors, hfirst, rfl⟩, .inl hrest⟩

end Trace

/-! ## Sweeps -/

/-- The statistics with the rates of one more pass. -/
def withPass (lab : ThresholdLab) (stats : ThresholdStats) (d : Nat) (counts : List Nat) : ThresholdStats :=
  { stats with
    logicalErrorRates :=
      ThresholdStats.insertRates d (counts.map (Binary64.quotient · lab.shots)) stats.logicalErrorRates }

/-- The statistics with the rates of passes over distances. -/
def withPasses (lab : ThresholdLab) (stats : ThresholdStats) (passes : List (Nat × List Nat)) : ThresholdStats :=
  passes.foldl (fun stats (d, counts) => lab.withPass stats d counts) stats

section Sweep

variable {σ : Type} {lab : ThresholdLab} {factory : Factory σ} {backend : Backend σ} {s s' : σ}

theorem pass_ok {d : Nat} (hd : lab.rounds d = lab.roundsPerDistance * d) {stats stats' : ThresholdStats} :
    Lab.from s (lab.pass factory backend stats d) = (.ok stats', s') ↔
      ∃ counts, Visits lab factory backend (lab.errorRates.map (d, ·)) s counts s' ∧
        stats' = lab.withPass stats d counts := by
  simp only [pass, Lab.from_bind_ok, Lab.from_pure, mapM_rateAt_ok hd]
  constructor
  · rintro ⟨_, s₁, ⟨counts, hvisits, rfl⟩, hpure⟩
    cases hpure
    exact ⟨counts, hvisits, rfl⟩
  · rintro ⟨counts, hvisits, rfl⟩
    exact ⟨_, s', ⟨counts, hvisits, rfl⟩, rfl⟩

theorem pass_error {d : Nat} (hd : lab.rounds d = lab.roundsPerDistance * d) {stats : ThresholdStats} {e : LabError} :
    Lab.from s (lab.pass factory backend stats d) = (.error e, s') ↔
      Stops lab factory backend (lab.errorRates.map (d, ·)) s e s' := by
  simp only [pass, Lab.from_bind_error, Lab.from_pure, mapM_rateAt_error hd]
  constructor
  · rintro (hstops | ⟨_, _, -, hnone⟩)
    · exact hstops
    · cases hnone
  · exact .inl

theorem foldlM_pass_ok {distances : List Nat} (hd : ∀ d ∈ distances, lab.rounds d = lab.roundsPerDistance * d)
    {stats stats' : ThresholdStats} :
    Lab.from s (distances.foldlM (lab.pass factory backend) stats) = (.ok stats', s') ↔
      ∃ passes : List (List Nat), passes.length = distances.length ∧ (∀ counts ∈ passes, counts.length = lab.errorRates.length) ∧
        Visits lab factory backend (distances.product lab.errorRates) s passes.flatten s' ∧
        stats' = lab.withPasses stats (distances.zip passes) := by
  induction distances generalizing s stats with
  | nil =>
    rw [List.foldlM_nil, Lab.from_pure]
    constructor
    · rintro ⟨⟩
      exact ⟨[], rfl, by simp, .nil, rfl⟩
    · rintro ⟨passes, hlength, -, hvisits, rfl⟩
      rw [List.eq_nil_of_length_eq_zero hlength] at hvisits
      cases hvisits
      rfl
  | cons d rest ih =>
    obtain ⟨hfirst, hrest⟩ := List.forall_mem_cons.mp hd
    simp only [List.foldlM_cons, Lab.from_bind_ok, pass_ok hfirst, ih hrest, List.product, List.flatMap_cons]
    constructor
    · rintro ⟨_, s₁, ⟨counts, hvisits, rfl⟩, passes, hlength, hwidth, hmore, rfl⟩
      have hcounts : counts.length = lab.errorRates.length := by rw [hvisits.length, List.length_map]
      refine ⟨counts :: passes, by simp [hlength], List.forall_mem_cons.mpr ⟨hcounts, hwidth⟩, ?_, rfl⟩
      exact visits_append.mpr ⟨counts, passes.flatten, s₁, rfl, hvisits, hmore⟩
    · rintro ⟨passes, hlength, hwidth, hvisits, rfl⟩
      obtain ⟨counts, passes, rfl⟩ := List.exists_cons_of_length_eq_add_one hlength
      obtain ⟨hcounts, hwidth⟩ := List.forall_mem_cons.mp hwidth
      obtain ⟨early, late, s₁, hsplit, hearly, hlate⟩ := visits_append.mp hvisits
      have hsame : counts.length = early.length := by rw [hcounts, hearly.length, List.length_map]
      obtain ⟨rfl, rfl⟩ := List.append_inj hsplit hsame
      exact ⟨_, s₁, ⟨counts, hearly, rfl⟩, passes, by simpa using hlength, hwidth, hlate, rfl⟩

theorem foldlM_pass_error {distances : List Nat} (hd : ∀ d ∈ distances, lab.rounds d = lab.roundsPerDistance * d)
    {stats : ThresholdStats} {e : LabError} :
    Lab.from s (distances.foldlM (lab.pass factory backend) stats) = (.error e, s') ↔
      Stops lab factory backend (distances.product lab.errorRates) s e s' := by
  induction distances generalizing s stats with
  | nil =>
    rw [List.foldlM_nil, Lab.from_pure]
    exact ⟨fun h => (by cases h), fun h => absurd h not_stops_nil⟩
  | cons d rest ih =>
    obtain ⟨hfirst, hrest⟩ := List.forall_mem_cons.mp hd
    simp only [List.foldlM_cons, Lab.from_bind_error, pass_ok hfirst, pass_error hfirst, ih hrest, List.product,
      List.flatMap_cons, stops_append]
    refine or_congr_right ⟨?_, ?_⟩
    · rintro ⟨_, s₁, ⟨counts, hvisits, rfl⟩, hstops⟩
      exact ⟨counts, s₁, hvisits, hstops⟩
    · rintro ⟨counts, s₁, hvisits, hstops⟩
      exact ⟨_, s₁, ⟨counts, hvisits, rfl⟩, hstops⟩

end Sweep

/-! ## Statistics -/

theorem withPasses_append (lab : ThresholdLab) (stats : ThresholdStats) (early late : List (Nat × List Nat)) :
    lab.withPasses stats (early ++ late) = lab.withPasses (lab.withPasses stats early) late := List.foldl_append

variable {lab : ThresholdLab} {stats : ThresholdStats} {passes : List (Nat × List Nat)}

/-- What every pass keeps all of them keep. -/
theorem withPasses_keeps {P : ThresholdStats → Prop} (hstats : P stats)
    (hpass : ∀ stats, ∀ pass ∈ passes, P stats → P (lab.withPass stats pass.1 pass.2)) :
    P (lab.withPasses stats passes) :=
  List.foldlRecOn passes _ hstats fun stats h pass hmem => hpass stats pass hmem h

theorem mem_keys_withPasses {d : Nat} : d ∈ (lab.withPasses stats passes).logicalErrorRates.map Prod.fst ↔
    d ∈ passes.map Prod.fst ∨ d ∈ stats.logicalErrorRates.map Prod.fst := by
  induction passes generalizing stats with
  | nil => simp [withPasses]
  | cons pass rest ih =>
    rw [show lab.withPasses stats (pass :: rest) = lab.withPasses (lab.withPass stats pass.1 pass.2) rest from rfl, ih,
      withPass, ThresholdStats.mem_insertRates_keys, List.map_cons, List.mem_cons]
    tauto

theorem get?_withPass (d e : Nat) (counts : List Nat) : (lab.withPass stats d counts).get? e =
    if e = d then some (counts.map (Binary64.quotient · lab.shots)) else stats.get? e := by
  rw [withPass, ThresholdStats.get?, ThresholdStats.find?_insertRates, ThresholdStats.get?]
  split <;> rfl

theorem get?_withPasses_of_not_mem {d : Nat} (h : d ∉ passes.map Prod.fst) :
    (lab.withPasses stats passes).get? d = stats.get? d := by
  refine withPasses_keeps (P := fun after => after.get? d = stats.get? d) rfl fun after pass hmem hsame => ?_
  have hne : d ≠ pass.1 := fun heq => h (heq ▸ List.mem_map_of_mem hmem)
  rw [get?_withPass, if_neg hne, hsame]

/-- The last pass over a distance is the one that is kept. -/
theorem get?_withPasses_last {d : Nat} {counts : List Nat} {early late : List (Nat × List Nat)}
    (h : d ∉ late.map Prod.fst) : (lab.withPasses stats (early ++ (d, counts) :: late)).get? d =
      some (counts.map (Binary64.quotient · lab.shots)) := by
  rw [withPasses_append, show ∀ before, lab.withPasses before ((d, counts) :: late) =
    lab.withPasses (lab.withPass before d counts) late from fun _ => rfl, get?_withPasses_of_not_mem h, get?_withPass,
    if_pos rfl]

/-- Passes over the distances, each with at most as many errors as shots, collected. -/
theorem collects_withPasses {passes : List (List Nat)} (hshots : 1 ≤ lab.shots) (hword : lab.shots ≤ Document.word64)
    (hcount : passes.length = lab.distances.length) (hbound : ∀ counts ∈ passes, ∀ errors ∈ counts, errors ≤ lab.shots) :
    Collects lab passes (lab.withPasses ⟨lab.shots, lab.errorRates, []⟩ (lab.distances.zip passes)) := by
  have hkeys : (lab.distances.zip passes).map Prod.fst = lab.distances := List.map_fst_zip hcount.ge
  refine ⟨?_, ?_, ?_, fun d => ?_, fun i d counts hd hlast hcounts => ?_, ?_⟩
  · exact withPasses_keeps (P := fun stats => stats.shots = lab.shots) rfl fun _ _ _ h => h
  · exact withPasses_keeps (P := fun stats => stats.errorRates = lab.errorRates) rfl fun _ _ _ h => h
  · exact withPasses_keeps (P := fun stats => (stats.logicalErrorRates.map Prod.fst).Pairwise (· < ·)) .nil
      fun _ _ _ h => ThresholdStats.insertRates_ascend h
  · rw [mem_keys_withPasses, hkeys]
    exact or_iff_left List.not_mem_nil
  · have hpair : (lab.distances.zip passes)[i]? = some (d, counts) := List.getElem?_zip_eq_some.mpr ⟨hd, hcounts⟩
    obtain ⟨hi, hget⟩ := List.getElem?_eq_some_iff.mp hpair
    have hlate : d ∉ ((lab.distances.zip passes).drop (i + 1)).map Prod.fst := by
      rw [List.map_drop, hkeys]
      intro hmem
      obtain ⟨k, hk⟩ := List.mem_iff_getElem?.mp hmem
      exact hlast (i + 1 + k) (by omega) (List.getElem?_drop ▸ hk)
    rw [← List.take_append_drop i (lab.distances.zip passes), List.drop_eq_getElem_cons hi, hget]
    exact get?_withPasses_last hlate
  · refine withPasses_keeps (P := fun stats => ∀ entry ∈ stats.logicalErrorRates, ∀ rate ∈ entry.2,
      rate.isProbability = true) (fun _ h => absurd h List.not_mem_nil) fun stats pass hpass h entry hentry rate hrate => ?_
    rcases ThresholdStats.mem_insertRates hentry with rfl | hentry
    · obtain ⟨errors, herrors, rfl⟩ := List.mem_map.mp hrate
      exact Binary64.quotient_isProbability (hbound _ (List.of_mem_zip hpass).2 errors herrors) hshots hword
    · exact h entry hentry rate hrate

section Sweep

variable {σ : Type} {lab : ThresholdLab} {factory : Factory σ} {backend : Backend σ} {s s' : σ}

theorem Measures.le {point : Point} {errors : Nat} (h : Measures lab factory backend point s errors s') :
    errors ≤ lab.shots := by
  obtain ⟨-, -, -, hcounted⟩ := h
  exact countLogicalErrors_le hcounted

theorem Visits.le {points : List Point} {counts : List Nat} (h : Visits lab factory backend points s counts s') :
    ∀ errors ∈ counts, errors ≤ lab.shots := by
  induction h with
  | nil => exact fun _ h => absurd h List.not_mem_nil
  | cons hfirst _ ih => exact List.forall_mem_cons.mpr ⟨hfirst.le, ih⟩

theorem rounds_eq {d : Nat} (h : lab.roundsPerDistance * d ≤ Document.word32) :
    lab.rounds d = lab.roundsPerDistance * d := Nat.mod_eq_of_lt (Nat.lt_succ_of_le h)

end Sweep

/-- A sweep, with whatever services and from whatever state, visits the grid in order. It
    succeeds just if every point goes well, and then has collected the passes; it fails just
    with the first point that does, which is the last thing that happens. -/
theorem run_sweeps {σ : Type} {lab : ThresholdLab} (hshots : 1 ≤ lab.shots) (hword : lab.shots ≤ Document.word64)
    (hrounds : ∀ d ∈ lab.distances, lab.roundsPerDistance * d ≤ Document.word32) (factory : Factory σ)
    (backend : Backend σ) (s s' : σ) :
    (∀ stats, Lab.from s (lab.run factory backend) = (.ok stats, s') → ∃ passes, Passes lab passes ∧
      Visits lab factory backend lab.grid s passes.flatten s' ∧ Collects lab passes stats) ∧
    (∀ passes, Passes lab passes → Visits lab factory backend lab.grid s passes.flatten s' →
      ∃ stats, Lab.from s (lab.run factory backend) = (.ok stats, s') ∧ Collects lab passes stats) ∧
    ∀ e, Lab.from s (lab.run factory backend) = (.error e, s') ↔ Stops lab factory backend lab.grid s e s' := by
  have hd : ∀ d ∈ lab.distances, lab.rounds d = lab.roundsPerDistance * d := fun d h => rounds_eq (hrounds d h)
  have hcollects : ∀ passes : List (List Nat), passes.length = lab.distances.length →
      Visits lab factory backend lab.grid s passes.flatten s' →
      Collects lab passes (lab.withPasses ⟨lab.shots, lab.errorRates, []⟩ (lab.distances.zip passes)) :=
    fun passes hcount hvisits => collects_withPasses hshots hword hcount fun counts hcounts errors herrors =>
      hvisits.le errors (List.mem_flatten.mpr ⟨counts, hcounts, herrors⟩)
  refine ⟨fun stats h => ?_, fun passes hpasses hvisits => ?_, fun e => foldlM_pass_error hd⟩
  · obtain ⟨passes, hcount, hwidth, hvisits, rfl⟩ := (foldlM_pass_ok hd).mp h
    exact ⟨passes, ⟨hcount, hwidth⟩, hvisits, hcollects passes hcount hvisits⟩
  · exact ⟨_, (foldlM_pass_ok hd).mpr ⟨passes, hpasses.count, hpasses.width, hvisits, rfl⟩,
      hcollects passes hpasses.count hvisits⟩

/-- Services of which the first sample, of two shots, has an error and no later one has. The
    state is the number of samples taken. -/
def firstSampleErrs : Backend Nat where
  sample := fun c _ => do
    let n ← get
    set (n + 1)
    return ⟨List.replicate 2 (List.replicate c.numDetectors false), [[n == 0], [false]]⟩
  errorModel := fun _ => return ⟨""⟩
  decoderFor := fun _ => return fun events => return events.map fun _ => [false]

/-- Of a distance that is listed twice the second pass counts, and a distance without a code
    ends the sweep. -/
theorem run_sweeps_repeated :
    let lab : ThresholdLab := ⟨[2, 3, 2], [.zero], 2, 1⟩
    let broken : ThresholdLab := ⟨[2, 1, 3], [.zero], 2, 1⟩
    let factory := Factory.steady CodeKind.repetition.build
    (∃ stats passes, Lab.from 0 (lab.run factory firstSampleErrs) = (.ok stats, 3) ∧ Passes lab passes ∧
      Visits lab factory firstSampleErrs lab.grid 0 passes.flatten 3 ∧ Collects lab passes stats ∧
      stats.logicalErrorRates = [(2, [.zero]), (3, [.zero])]) ∧
    ∃ e, Stops broken factory firstSampleErrs broken.grid 0 e 1 := by
  intro lab broken factory
  constructor
  · have hrun : Lab.from 0 (lab.run factory firstSampleErrs) =
        (.ok ⟨2, [.zero], [(2, [.zero]), (3, [.zero])]⟩, 3) := by decide +kernel
    obtain ⟨passes, hpasses, hvisits, hcollects⟩ :=
      (run_sweeps (by decide) (by decide) (by decide) factory firstSampleErrs 0 3).1 _ hrun
    exact ⟨_, passes, hrun, hpasses, hvisits, hcollects, rfl⟩
  · have hrun : Lab.from 0 (broken.run factory firstSampleErrs) = (.error (.code (.invalidDistance 1 .repetition)), 1) := by
      decide +kernel
    exact ⟨_, ((run_sweeps (by decide) (by decide) (by decide) factory firstSampleErrs 0 1).2.2 _).mp hrun⟩

end ThresholdLab

end QuantumMemory

/-
  QuantumMemory.Proofs.Lab.Count — how logical errors are counted.

  A count samples, looks at the shape of the batch, asks for the error model and for a decoder,
  decodes the events and compares. `Counting` has a case for each way this can end: with
  one of the services failing, with a batch or a table of predictions of the wrong shape, or
  with a number. To see what was asked of the services, the count is run with services that
  write down each request and then do what they did (`Backend.noted`).

  - `countLogicalErrors_counted`: no shots are no work; otherwise the services are asked once each
    and in order, up to the first step that fails, and the number is that of the shots that
    are mispredicted.
  - `countLogicalErrors_decoded`: of the predictions the number of rows is checked and their
    width is not. A row of the wrong width counts as mispredicted (`wide_prediction_counted`).
-/

import Mathlib.Data.Nat.Count
import QuantumMemory.Proofs.Lab.Work

namespace QuantumMemory

/-! ## Shapes -/

/-- A length that is checked: of what it is, what it should be, and what it is. -/
structure Extent where
  what : String
  expected : Nat
  got : Nat

namespace Extent

def check (x : Extent) : Except LabError Unit := ShotBatch.expect x.what x.expected x.got

def mismatch (x : Extent) : LabError := .shapeMismatch x.what x.expected x.got

/-- The first length that is wrong is the error. -/
def FirstWrong (extents : List Extent) (e : LabError) : Prop :=
  ∃ before wrong after, extents = before ++ wrong :: after ∧ (∀ x ∈ before, x.expected = x.got) ∧
    wrong.expected ≠ wrong.got ∧ e = wrong.mismatch

theorem check_of_eq {x : Extent} (h : x.expected = x.got) : x.check = .ok () := if_pos h

theorem check_of_ne {x : Extent} (h : x.expected ≠ x.got) : x.check = .error x.mismatch := if_neg h

theorem forM_check_of_forall {extents : List Extent} (h : ∀ x ∈ extents, x.expected = x.got) :
    extents.forM check = .ok () := by
  induction extents with
  | nil => rfl
  | cons x rest ih =>
    obtain ⟨hx, hrest⟩ := List.forall_mem_cons.mp h
    rw [List.forM_eq_forM, List.forM_cons, check_of_eq hx]
    exact ih hrest

theorem forM_check_of_firstWrong {extents : List Extent} {e : LabError} (h : FirstWrong extents e) :
    extents.forM check = .error e := by
  obtain ⟨before, wrong, after, rfl, hbefore, hwrong, rfl⟩ := h
  have hall : forM before check = .ok () := forM_check_of_forall hbefore
  rw [List.forM_eq_forM, List.forM_append, hall, List.forM_cons, check_of_ne hwrong]
  rfl

theorem forall_or_firstWrong (extents : List Extent) :
    (∀ x ∈ extents, x.expected = x.got) ∨ ∃ e, FirstWrong extents e := by
  induction extents with
  | nil => exact .inl fun x hx => absurd hx List.not_mem_nil
  | cons x rest ih =>
    by_cases hx : x.expected = x.got
    · rcases ih with hrest | ⟨e, before, wrong, after, rfl, hbefore, hwrong, he⟩
      · exact .inl (List.forall_mem_cons.mpr ⟨hx, hrest⟩)
      · exact .inr ⟨e, x :: before, wrong, after, rfl, List.forall_mem_cons.mpr ⟨hx, hbefore⟩, hwrong, he⟩
    · exact .inr ⟨x.mismatch, [], x, rest, rfl, fun y hy => absurd hy List.not_mem_nil, hx, rfl⟩

end Extent

namespace ShotBatch

/-- The lengths of a batch, in the order in which they are checked. -/
def extents (b : ShotBatch) (c : Circuit) (shots : Nat) : List Extent :=
  ⟨"shots with detection events", shots, b.events.length⟩ ::
    ⟨"shots with observable flips", shots, b.flips.length⟩ ::
    (b.events.map fun row => ⟨"detectors per shot", c.numDetectors, row.length⟩) ++
    b.flips.map fun row => ⟨"observables per shot", c.numObservables, row.length⟩

/-- As many rows as shots, and each as wide as the circuit says. -/
structure WellShaped (b : ShotBatch) (c : Circuit) (shots : Nat) : Prop where
  eventShots : b.events.length = shots
  flipShots : b.flips.length = shots
  detectors : ∀ row ∈ b.events, row.length = c.numDetectors
  observables : ∀ row ∈ b.flips, row.length = c.numObservables

variable {b : ShotBatch} {c : Circuit} {shots : Nat}

theorem checkShape_eq (b : ShotBatch) (c : Circuit) (shots : Nat) :
    b.checkShape c shots = (b.extents c shots).forM Extent.check := by
  simp only [extents, List.cons_append, List.forM_eq_forM, List.forM_cons, List.forM_append, List.forM_map]
  rfl

theorem wellShaped_iff : b.WellShaped c shots ↔ ∀ x ∈ b.extents c shots, x.expected = x.got := by
  simp only [extents, List.cons_append, List.forall_mem_cons, List.forall_mem_append, List.forall_mem_map]
  constructor
  · rintro ⟨hevents, hflips, hdetectors, hobservables⟩
    exact ⟨hevents.symm, hflips.symm, fun row h => (hdetectors row h).symm, fun row h => (hobservables row h).symm⟩
  · rintro ⟨hevents, hflips, hdetectors, hobservables⟩
    exact ⟨hevents.symm, hflips.symm, fun row h => (hdetectors row h).symm, fun row h => (hobservables row h).symm⟩

theorem checkShape_ok (h : b.WellShaped c shots) : b.checkShape c shots = .ok () := by
  rw [checkShape_eq, Extent.forM_check_of_forall (wellShaped_iff.mp h)]

theorem checkShape_error {e : LabError} (h : Extent.FirstWrong (b.extents c shots) e) :
    b.checkShape c shots = .error e := by
  rw [checkShape_eq, Extent.forM_check_of_firstWrong h]

end ShotBatch

/-! ## Requests -/

/-- What the services are asked for, with what they are given. -/
inductive Request
  | sample (c : Circuit) (shots : Nat)
  | errorModel (c : Circuit)
  | decoder (model : ErrorModel)
  | decode (events : List (List Bool))
  deriving DecidableEq

inductive Service
  | sample
  | errorModel
  | decoder
  | decode
  deriving DecidableEq

def Request.service : Request → Service
  | sample .. => .sample
  | errorModel .. => .errorModel
  | decoder .. => .decoder
  | decode .. => .decode

section Noted

variable {σ α : Type}

/-- The work, with the request for it written down behind the earlier ones. -/
def Lab.noting (request : Request) (work : Lab σ α) : Lab (σ × List Request) α :=
  ExceptT.mk fun (s, asked) => ((Lab.from s work).1, (Lab.from s work).2, asked ++ [request])

@[simp] theorem Lab.from_noting (s : σ) (asked : List Request) (request : Request) (work : Lab σ α) :
    Lab.from (s, asked) (noting request work) = ((Lab.from s work).1, (Lab.from s work).2, asked ++ [request]) := rfl

def Decoder.noted (decode : Decoder σ) : Decoder (σ × List Request) := fun events =>
  Lab.noting (.decode events) (decode events)

/-- The services, with every request written down. -/
def Backend.noted (backend : Backend σ) : Backend (σ × List Request) where
  sample := fun c shots => Lab.noting (.sample c shots) (backend.sample c shots)
  errorModel := fun c => Lab.noting (.errorModel c) (backend.errorModel c)
  decoderFor := fun model => do
    let decode ← Lab.noting (.decoder model) (backend.decoderFor model)
    return decode.noted

variable (s : σ) (asked : List Request) (backend : Backend σ)

@[simp] theorem Decoder.from_noted (decode : Decoder σ) (events : List (List Bool)) :
    Lab.from (s, asked) (decode.noted events) =
      ((Lab.from s (decode events)).1, (Lab.from s (decode events)).2, asked ++ [.decode events]) := rfl

@[simp] theorem Backend.from_noted_sample (c : Circuit) (shots : Nat) :
    Lab.from (s, asked) (backend.noted.sample c shots) =
      ((Lab.from s (backend.sample c shots)).1, (Lab.from s (backend.sample c shots)).2, asked ++ [.sample c shots]) := rfl

@[simp] theorem Backend.from_noted_errorModel (c : Circuit) :
    Lab.from (s, asked) (backend.noted.errorModel c) =
      ((Lab.from s (backend.errorModel c)).1, (Lab.from s (backend.errorModel c)).2, asked ++ [.errorModel c]) := rfl

@[simp] theorem Backend.from_noted_decoderFor (model : ErrorModel) :
    Lab.from (s, asked) (backend.noted.decoderFor model) =
      ((Lab.from s (backend.decoderFor model)).1.map Decoder.noted, (Lab.from s (backend.decoderFor model)).2,
        asked ++ [.decoder model]) := by
  rw [noted, Lab.from_bind, Lab.from_noting]
  cases (Lab.from s (backend.decoderFor model)).1 <;> rfl

end Noted

/-! ## Counting -/

section Count

variable {σ : Type}

/-- A batch of the right shape is sampled, and a decoder is made for the errors of the circuit. -/
inductive Prepares (backend : Backend σ) (c : Circuit) (shots : Nat) (s : σ) :
    ShotBatch → ErrorModel → Decoder σ → σ → Prop
  | decoder {batch : ShotBatch} {model : ErrorModel} {decode : Decoder σ} {s₁ s₂ s₃ : σ}
      (hsample : Lab.from s (backend.sample c shots) = (.ok batch, s₁)) (hshape : batch.WellShaped c shots)
      (hmodel : Lab.from s₁ (backend.errorModel c) = (.ok model, s₂))
      (hdecoder : Lab.from s₂ (backend.decoderFor model) = (.ok decode, s₃)) :
      Prepares backend c shots s batch model decode s₃

/-- How a count of some shots ends: the result, the state after it, and the requests. In each
    case the steps before the last one went well. -/
inductive Counting (backend : Backend σ) (c : Circuit) (shots : Nat) (s : σ) :
    Except LabError Nat → σ → List Request → Prop
  | sample {e : LabError} {s₁ : σ} (hsample : Lab.from s (backend.sample c shots) = (.error e, s₁)) :
      Counting backend c shots s (.error e) s₁ [.sample c shots]
  | batch {batch : ShotBatch} {e : LabError} {s₁ : σ}
      (hsample : Lab.from s (backend.sample c shots) = (.ok batch, s₁))
      (hwrong : Extent.FirstWrong (batch.extents c shots) e) :
      Counting backend c shots s (.error e) s₁ [.sample c shots]
  | errorModel {batch : ShotBatch} {e : LabError} {s₁ s₂ : σ}
      (hsample : Lab.from s (backend.sample c shots) = (.ok batch, s₁)) (hshape : batch.WellShaped c shots)
      (hmodel : Lab.from s₁ (backend.errorModel c) = (.error e, s₂)) :
      Counting backend c shots s (.error e) s₂ [.sample c shots, .errorModel c]
  | decoder {batch : ShotBatch} {model : ErrorModel} {e : LabError} {s₁ s₂ s₃ : σ}
      (hsample : Lab.from s (backend.sample c shots) = (.ok batch, s₁)) (hshape : batch.WellShaped c shots)
      (hmodel : Lab.from s₁ (backend.errorModel c) = (.ok model, s₂))
      (hdecoder : Lab.from s₂ (backend.decoderFor model) = (.error e, s₃)) :
      Counting backend c shots s (.error e) s₃ [.sample c shots, .errorModel c, .decoder model]
  | decode {batch : ShotBatch} {model : ErrorModel} {decode : Decoder σ} {e : LabError} {s₃ s₄ : σ}
      (hprepared : Prepares backend c shots s batch model decode s₃)
      (hdecode : Lab.from s₃ (decode batch.events) = (.error e, s₄)) :
      Counting backend c shots s (.error e) s₄
        [.sample c shots, .errorModel c, .decoder model, .decode batch.events]
  | predictions {batch : ShotBatch} {model : ErrorModel} {decode : Decoder σ} {predictions : List (List Bool)}
      {s₃ s₄ : σ} (hprepared : Prepares backend c shots s batch model decode s₃)
      (hdecode : Lab.from s₃ (decode batch.events) = (.ok predictions, s₄)) (hwrong : shots ≠ predictions.length) :
      Counting backend c shots s (.error (.shapeMismatch "decoded shots" shots predictions.length)) s₄
        [.sample c shots, .errorModel c, .decoder model, .decode batch.events]
  | counted {batch : ShotBatch} {model : ErrorModel} {decode : Decoder σ} {predictions : List (List Bool)}
      {s₃ s₄ : σ} (hprepared : Prepares backend c shots s batch model decode s₃)
      (hdecode : Lab.from s₃ (decode batch.events) = (.ok predictions, s₄)) (hshots : shots = predictions.length) :
      Counting backend c shots s (.ok (Nat.count (fun i => predictions[i]? ≠ batch.flips[i]?) shots)) s₄
        [.sample c shots, .errorModel c, .decoder model, .decode batch.events]

/-- Pairs that differ, counted by their places. -/
theorem length_filter_zip {α : Type} [DecidableEq α] {xs ys : List α} (h : xs.length = ys.length) :
    ((xs.zip ys).filter fun (x, y) => x ≠ y).length = Nat.count (fun i => xs[i]? ≠ ys[i]?) xs.length := by
  induction xs generalizing ys with
  | nil => rfl
  | cons x xs ih =>
    obtain ⟨y, ys, rfl⟩ := List.exists_cons_of_length_eq_add_one h.symm
    have hrest := ih (Nat.succ_inj.mp h)
    rw [List.zip_cons_cons, List.length_cons, Nat.count_succ']
    simp only [List.getElem?_cons_succ, List.getElem?_cons_zero, ne_eq, Option.some.injEq] at hrest ⊢
    rw [List.filter_cons, ← hrest]
    by_cases hxy : x = y <;> simp [hxy]

variable {backend : Backend σ} {c : Circuit} {shots : Nat} {s s' : σ} {r : Except LabError Nat} {asked : List Request}

theorem Counting.run (h : Counting backend c shots s r s' asked) (hshots : shots ≠ 0) :
    Lab.from s (countLogicalErrors backend c shots) = (r, s') ∧
      ∀ before, Lab.from (s, before) (countLogicalErrors backend.noted c shots) = (r, s', before ++ asked) := by
  simp only [countLogicalErrors, if_neg hshots, Lab.from_bind, Lab.from_ofExcept, Backend.from_noted_sample]
  cases h with
  | sample hsample => simp [hsample]
  | batch hsample hwrong => simp [hsample, ShotBatch.checkShape_error hwrong]
  | errorModel hsample hshape hmodel => simp [hsample, ShotBatch.checkShape_ok hshape, hmodel]
  | decoder hsample hshape hmodel hdecoder => simp [hsample, ShotBatch.checkShape_ok hshape, hmodel, hdecoder, Except.map]
  | decode hprepared hdecode =>
    obtain ⟨hsample, hshape, hmodel, hdecoder⟩ := hprepared
    simp [hsample, ShotBatch.checkShape_ok hshape, hmodel, hdecoder, hdecode, Except.map]
  | predictions hprepared hdecode hwrong =>
    obtain ⟨hsample, hshape, hmodel, hdecoder⟩ := hprepared
    simp [hsample, ShotBatch.checkShape_ok hshape, hmodel, hdecoder, hdecode, ShotBatch.expect, hwrong, Except.map]
  | counted hprepared hdecode hlength =>
    obtain ⟨hsample, hshape, hmodel, hdecoder⟩ := hprepared
    subst hlength
    have hcount := length_filter_zip hshape.flipShots.symm
    simpa [hsample, ShotBatch.checkShape_ok hshape, hmodel, hdecoder, hdecode, ShotBatch.expect, Except.map] using hcount

/-- Every count ends in one of the ways. -/
theorem exists_counting (backend : Backend σ) (c : Circuit) (shots : Nat) (s : σ) :
    ∃ r s' asked, Counting backend c shots s r s' asked := by
  rcases hsample : Lab.from s (backend.sample c shots) with ⟨e | batch, s₁⟩
  · exact ⟨_, _, _, .sample hsample⟩
  rcases Extent.forall_or_firstWrong (batch.extents c shots) with hextents | ⟨e, hwrong⟩
  case inr => exact ⟨_, _, _, .batch hsample hwrong⟩
  have hshape : batch.WellShaped c shots := ShotBatch.wellShaped_iff.mpr hextents
  rcases hmodel : Lab.from s₁ (backend.errorModel c) with ⟨e | model, s₂⟩
  · exact ⟨_, _, _, .errorModel hsample hshape hmodel⟩
  rcases hdecoder : Lab.from s₂ (backend.decoderFor model) with ⟨e | decode, s₃⟩
  · exact ⟨_, _, _, .decoder hsample hshape hmodel hdecoder⟩
  have hprepared : Prepares backend c shots s batch model decode s₃ := .decoder hsample hshape hmodel hdecoder
  rcases hdecode : Lab.from s₃ (decode batch.events) with ⟨e | predictions, s₄⟩
  · exact ⟨_, _, _, .decode hprepared hdecode⟩
  by_cases hlength : shots = predictions.length
  · exact ⟨_, _, _, .counted hprepared hdecode hlength⟩
  · exact ⟨_, _, _, .predictions hprepared hdecode hlength⟩

theorem Counting.order (h : Counting backend c shots s r s' asked) :
    asked.map Request.service <+: [.sample, .errorModel, .decoder, .decode] := by
  cases h <;> exact ⟨_, rfl⟩

theorem Counting.decoded (h : Counting backend c shots s r s' asked) {events : List (List Bool)}
    (hasked : .decode events ∈ asked) :
    ∃ batch s₁, Lab.from s (backend.sample c shots) = (.ok batch, s₁) ∧ events = batch.events := by
  cases h with
  | sample | batch | errorModel | decoder => simp at hasked
  | decode hprepared | predictions hprepared | counted hprepared =>
    obtain ⟨hsample, -, -, -⟩ := hprepared
    exact ⟨_, _, hsample, by simpa using hasked⟩

/-- What a count of errors comes to. -/
structure Counts (backend : Backend σ) (c : Circuit) (shots : Nat) (s : σ) (r : Except LabError Nat) (s' : σ)
    (asked : List Request) : Prop where
  noShots : shots = 0 → r = .ok 0 ∧ s' = s ∧ asked = []
  ends : shots ≠ 0 → Counting backend c shots s r s' asked
  order : asked.map Request.service <+: [.sample, .errorModel, .decoder, .decode]
  decoded : ∀ events, .decode events ∈ asked →
    ∃ batch s₁, Lab.from s (backend.sample c shots) = (.ok batch, s₁) ∧ events = batch.events
  bound : ∀ errors, r = .ok errors → errors ≤ shots

/-- A count, with whatever services and from whatever state: what it comes to is the same
    whether or not the requests are written down, and these are the requests. -/
theorem countLogicalErrors_counted (backend : Backend σ) (c : Circuit) (shots : Nat) (s : σ) :
    ∃ r s' asked, Lab.from s (countLogicalErrors backend c shots) = (r, s') ∧
      Lab.from (s, []) (countLogicalErrors backend.noted c shots) = (r, s', asked) ∧
      Counts backend c shots s r s' asked := by
  by_cases hshots : shots = 0
  · subst hshots
    refine ⟨.ok 0, s, [], rfl, rfl, fun _ => ⟨rfl, rfl, rfl⟩, fun h => absurd rfl h, ⟨_, rfl⟩, ?_, ?_⟩
    · exact fun _ h => absurd h List.not_mem_nil
    · rintro errors ⟨⟩
      exact Nat.le_refl 0
  · obtain ⟨r, s', asked, h⟩ := exists_counting backend c shots s
    obtain ⟨hrun, hnoted⟩ := h.run hshots
    refine ⟨r, s', asked, hrun, hnoted [], fun hnone => absurd hnone hshots, fun _ => h, h.order, ?_, ?_⟩
    · exact fun events => h.decoded
    · rintro errors rfl
      exact countLogicalErrors_le hrun

/-! ## Width of predictions -/

/-- Against rows of one width, those of another width differ, and they differ whatever they hold. -/
theorem length_filter_zip_widths {w : Nat} {predictions flips : List (List Bool)}
    (hlength : predictions.length = flips.length) (hflips : ∀ row ∈ flips, row.length = w) :
    ((predictions.zip flips).filter fun (predicted, actual) => predicted ≠ actual).length =
      predictions.countP (fun row => row.length ≠ w) +
        (predictions.zip flips).countP fun (predicted, actual) => predicted.length = w ∧ predicted ≠ actual := by
  rw [← List.countP_eq_length_filter]
  induction predictions generalizing flips with
  | nil => rfl
  | cons predicted predictions ih =>
    obtain ⟨actual, flips, rfl⟩ := List.exists_cons_of_length_eq_add_one hlength.symm
    obtain ⟨hactual, hflips⟩ := List.forall_mem_cons.mp hflips
    rw [List.zip_cons_cons, List.countP_cons, List.countP_cons, List.countP_cons, ih (Nat.succ_inj.mp hlength) hflips]
    by_cases hwidth : predicted.length = w
    · simp [hwidth, Nat.add_assoc]
    · have hne : predicted ≠ actual := fun heq => hwidth (heq ▸ hactual)
      simp [hwidth, hne, Nat.add_right_comm]

/-- What becomes of a table of predictions. A wrong number of rows is an error; of the right
    number, those of the wrong width are counted with those that differ from the flips. -/
theorem countLogicalErrors_decoded {batch : ShotBatch} {model : ErrorModel} {decode : Decoder σ}
    {predictions : List (List Bool)} {s₃ s₄ : σ} (hshots : 1 ≤ shots)
    (hprepared : Prepares backend c shots s batch model decode s₃)
    (hdecode : Lab.from s₃ (decode batch.events) = (.ok predictions, s₄)) :
    Lab.from s (countLogicalErrors backend c shots) =
      (if predictions.length = shots then
        .ok (predictions.countP (fun row => row.length ≠ c.numObservables) +
          (predictions.zip batch.flips).countP fun (predicted, actual) =>
            predicted.length = c.numObservables ∧ predicted ≠ actual)
      else .error (.shapeMismatch "decoded shots" shots predictions.length), s₄) := by
  have hsome : shots ≠ 0 := Nat.pos_iff_ne_zero.mp hshots
  by_cases hlength : predictions.length = shots
  · obtain ⟨-, hshape, -, -⟩ := id hprepared
    have hflips : predictions.length = batch.flips.length := hlength.trans hshape.flipShots.symm
    have hcount := length_filter_zip_widths hflips hshape.observables
    rw [((Counting.counted hprepared hdecode hlength.symm).run hsome).1, if_pos hlength, ← hcount,
      length_filter_zip hflips, hlength]
  · rw [((Counting.predictions hprepared hdecode (Ne.symm hlength)).run hsome).1, if_neg hlength]

/-- One qubit that is measured, with the outcome as a detector and as an observable. -/
def Circuit.observed : Circuit := ⟨"c", [.observable 0 [-1], .detector [-1], .measure [0]], 1, 1, 1, 1⟩

example : (do (← (← (Circuit.empty "c").measure [0]).detector [-1]).observable 0 [-1]) = .ok Circuit.observed := by
  decide

/-- Services that answer every time the same. -/
def Backend.fixed (batch : ShotBatch) (predictions : List (List Bool)) : Backend Unit where
  sample := fun _ _ => return batch
  errorModel := fun _ => return ⟨""⟩
  decoderFor := fun _ => return fun _ => return predictions

theorem Prepares.fixed {batch : ShotBatch} (hshape : batch.WellShaped c shots) (predictions : List (List Bool)) :
    Prepares (.fixed batch predictions) c shots () batch ⟨""⟩ (fun _ => return predictions) () :=
  .decoder rfl hshape rfl rfl

end Count

/-- Of two shots without an error the first is predicted with an entry too many, and counts. -/
theorem countLogicalErrors_decoded_wide :
    let batch : ShotBatch := ⟨[[false], [false]], [[false], [false]]⟩
    let predictions := [[false, false], [false]]
    Prepares (.fixed batch predictions) .observed 2 () batch ⟨""⟩ (fun _ => return predictions) () ∧
      Lab.from () (countLogicalErrors (.fixed batch predictions) .observed 2) = (.ok 1, ()) := by
  intro batch predictions
  have hshape : batch.WellShaped .observed 2 := ⟨rfl, rfl, by decide, by decide⟩
  have hprepared := Prepares.fixed hshape predictions
  exact ⟨hprepared, countLogicalErrors_decoded (by decide) hprepared rfl⟩

/-- A table of the wrong shape is not always refused: it may have a row that is too wide. -/
theorem wide_prediction_counted : ¬ ∀ (backend : Backend Unit) (c : Circuit) (shots : Nat) (batch : ShotBatch)
    (model : ErrorModel) (decode : Decoder Unit) (predictions : List (List Bool)), 1 ≤ shots →
      Prepares backend c shots () batch model decode () →
      Lab.from () (decode batch.events) = (.ok predictions, ()) →
      ¬(predictions.length = shots ∧ ∀ row ∈ predictions, row.length = c.numObservables) →
      ∃ what expected got,
        Lab.from () (countLogicalErrors backend c shots) = (.error (.shapeMismatch what expected got), ()) := by
  intro hall
  have hshape : ShotBatch.WellShaped ⟨[[false]], [[false]]⟩ .observed 1 := ⟨rfl, rfl, by decide, by decide⟩
  obtain ⟨what, expected, got, hrun⟩ := hall _ .observed 1 _ _ _ [[false, false]] (by decide)
    (Prepares.fixed hshape [[false, false]]) rfl (by decide)
  have hcounted : Lab.from () (countLogicalErrors (.fixed ⟨[[false]], [[false]]⟩ [[false, false]]) .observed 1) =
    (.ok 1, ()) := rfl
  rw [hcounted] at hrun
  cases hrun

end QuantumMemory

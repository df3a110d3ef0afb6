/-
  QuantumMemory.Proofs.Lab.Document — the trees of experiments, sweeps and their results.

  An experiment has the fields of its parameters among its own. Reading takes them apart again by their names, which
  are none of the experiment's (`ExperimentConfig.known?_fields`). The rates of a sweep are keyed by distance; they
  are kept in order (`ThresholdStats.Stored`), so reading what was written puts each entry behind those already there
  (`ThresholdStats.foldlM_field`).

  - `ofDocument?_toDocument`, for each of the three: what a tree was read as is written as a tree that is read as the
    same.
-/

import QuantumMemory.Lab.Config
import QuantumMemory.Proofs.Circuit.Document
import QuantumMemory.Proofs.Family.Document
import QuantumMemory.Proofs.Lab.Rates

namespace QuantumMemory

open Document (Readable)

/-- Rates that were read, each of which is read back from its literal. -/
theorem Document.all?_numbers {xs : List Binary64} (hfinite : ∀ x ∈ xs, x.isFinite = true)
    (h : ∀ x ∈ xs, x.ReadsBack) : Document.all? Document.number? (.ofList .ofBinary64 xs) = some xs :=
  Document.all?_ofList fun x hx => Document.number?_ofBinary64 (hfinite x hx) (h x hx)

namespace ExperimentConfig

/-- The numbers of the parameters and of the lattice. -/
def numbers (c : ExperimentConfig) : List Binary64 := c.params.numbers ++ c.lattice.toList.flatMap LatticeSpec.numbers

/-- All fields, the parameters among them. -/
def fields (c : ExperimentConfig) : Document.Fields :=
  Document.optionalField "code" CodeKind.toDocument c.code ++ c.params.toFields ++ [("rounds", .ofNat c.rounds)]
    ++ Document.optionalField "bicycle" BicycleSpec.toDocument c.bicycle
    ++ Document.optionalField "lattice" LatticeSpec.toDocument c.lattice

/-- The fields that are the experiment's own. -/
def ownFields (c : ExperimentConfig) : Document.Fields :=
  Document.optionalField "code" CodeKind.toDocument c.code ++ [("rounds", .ofNat c.rounds)]
    ++ Document.optionalField "bicycle" BicycleSpec.toDocument c.bicycle
    ++ Document.optionalField "lattice" LatticeSpec.toDocument c.lattice

theorem fields_nodup (c : ExperimentConfig) : (c.fields.map (·.1)).Nodup := by
  unfold fields CodeParams.toFields
  cases c.code <;> cases c.bicycle <;> cases c.lattice <;> simp

theorem known?_fields (c : ExperimentConfig) :
    Document.known? fieldNames (Document.members c.fields) = some c.ownFields := by
  rw [Document.known?_members _ c.fields_nodup]
  unfold fields ownFields CodeParams.toFields fieldNames
  cases c.code <;> cases c.bicycle <;> cases c.lattice <;> simp

/-- Beside them stand the parameters. -/
theorem filter_fields (c : ExperimentConfig) :
    ((Document.members c.fields).filter fun (name, _) => !(name.any fieldNames.contains)) =
      Document.members c.params.toFields := by
  unfold fields CodeParams.toFields fieldNames
  cases c.code <;> cases c.bicycle <;> cases c.lattice <;> simp [Document.members]

theorem get?_ownFields (c : ExperimentConfig) :
    c.ownFields.get? "code" = c.code.map CodeKind.toDocument ∧ c.ownFields.get? "rounds" = some (.ofNat c.rounds) ∧
      c.ownFields.get? "bicycle" = c.bicycle.map BicycleSpec.toDocument ∧
        c.ownFields.get? "lattice" = c.lattice.map LatticeSpec.toDocument := by
  unfold ownFields
  cases c.code <;> cases c.bicycle <;> cases c.lattice <;> simp

/-- The parameters are settled as they are. -/
theorem settled_params {p : CodeParams} (h : p.Bounded) (hnumbers : ∀ x ∈ p.numbers, x.ReadsBack) (depth : Nat) :
    Document.settledFields? depth (Document.members p.toFields) = some (Document.members p.toFields) := by
  have hdistance := Document.settled?_ofNat (h.distance.trans (by decide)) depth
  have hp1 := Document.settled?_ofBinary64 h.finite1 (hnumbers _ (by simp [CodeParams.numbers])) depth
  have hp2 := Document.settled?_ofBinary64 h.finite2 (hnumbers _ (by simp [CodeParams.numbers])) depth
  exact Document.settledFields?_members (by simp [CodeParams.toFields, hdistance, hp1, hp2])

/-- What the reader of an experiment makes sure of. -/
structure Sound (c : ExperimentConfig) : Prop where
  params : c.params.Bounded
  rounds : c.rounds ≤ Document.word32
  bicycle : ∀ s ∈ c.bicycle, Readable BicycleSpec.ofDocument? s
  lattice : ∀ s ∈ c.lattice, Readable LatticeSpec.ofDocument? s

theorem sound_of_readable {c : ExperimentConfig} (h : Readable ofDocument? c) : c.Sound := by
  obtain ⟨d, hd, h⟩ := h
  unfold ofDocument? at h
  split at h
  · rename_i all
    cases hd with
    | object hall =>
      simp only [Option.bind_eq_bind, Option.bind_eq_some_iff, Option.pure_def, Option.some.injEq] at h
      obtain ⟨fields, hfields, others, hothers, code, -, params, hparams, rounds, hrounds, bicycle, hbicycle, lattice,
        hlattice, rfl⟩ := h
      have hexplicit : Document.Fields.Explicit fields := fun field hfield =>
        hall _ (Document.known?_mem hfields field hfield)
      have hsettled := Document.settledFields?_eq
        (fun field hfield e he => Document.settled?_explicit (hall field (List.mem_of_mem_filter hfield)) he) hothers
      have hrest : (Document.object others).Explicit :=
        .object fun field hfield => hall field (List.mem_of_mem_filter (hsettled ▸ hfield))
      have hbound : rounds ≤ Document.word32 := hexplicit.defaulted_elim hrounds (by decide) fun _ h => h.natural
      exact ⟨CodeParams.bounded_of_readable ⟨_, hrest, hparams⟩, hbound, hexplicit.optional hbicycle,
        hexplicit.optional hlattice⟩
  · cases h

/-- An experiment that was read is read back from its document. -/
theorem ofDocument?_toDocument {c : ExperimentConfig} (h : Readable ofDocument? c)
    (hnumbers : ∀ x ∈ c.numbers, x.ReadsBack) : ofDocument? c.toDocument = some c := by
  obtain ⟨hp, hl⟩ := List.forall_mem_append.mp hnumbers
  have hsound := sound_of_readable h
  have hparams := CodeParams.ofDocument?_toDocument hsound.params hp
  obtain ⟨hcode, hrounds, hbicycle, hlattice⟩ := c.get?_ownFields
  have hcode' : c.ownFields.optional "code" (Document.orNull CodeKind.ofDocument?) = some c.code :=
    Document.Fields.optional_of_get? hcode (fun _ _ => rfl) fun k _ => k.ofDocument?_toDocument
  have hrounds' : c.ownFields.defaulted "rounds" 1 (Document.natural? Document.word32) = some c.rounds := by
    rw [Document.Fields.defaulted, hrounds]
    exact Document.natural?_ofNat hsound.rounds (by decide)
  have hbicycle' : c.ownFields.optional "bicycle" (Document.orNull BicycleSpec.ofDocument?) = some c.bicycle :=
    Document.Fields.optional_of_get? hbicycle (fun _ _ => rfl) fun s hs =>
      BicycleSpec.ofDocument?_toDocument (hsound.bicycle s hs)
  have hlattice' : c.ownFields.optional "lattice" (Document.orNull LatticeSpec.ofDocument?) = some c.lattice :=
    Document.Fields.optional_of_get? hlattice (fun _ _ => rfl) fun s hs =>
      LatticeSpec.ofDocument?_toDocument (hsound.lattice s hs) fun x hx =>
        hl x (List.mem_flatMap.mpr ⟨s, Option.mem_toList.mpr hs, hx⟩)
  show ofDocument? (.object (Document.members c.fields)) = some c
  simp only [ofDocument?, known?_fields, filter_fields, settled_params hsound.params hp, Option.bind_eq_bind,
    Option.bind_some, hcode', hrounds', hbicycle', hlattice', Option.pure_def]
  rw [show CodeParams.ofDocument? (.object (Document.members c.params.toFields)) = some c.params from hparams]
  rfl

@[simp] theorem written_toDocument (c : ExperimentConfig) : c.toDocument.Written := by
  show (Document.record c.fields).Written
  have hparams := c.params.written_toFields
  unfold fields
  cases c.code <;> cases c.bicycle <;> cases c.lattice <;> simpa [or_imp, forall_and] using hparams

end ExperimentConfig

namespace ThresholdConfig

def numbers (c : ThresholdConfig) : List Binary64 := c.errorRates

theorem ofDocument?_toDocument {c : ThresholdConfig} (h : Readable ofDocument? c)
    (hnumbers : ∀ x ∈ c.numbers, x.ReadsBack) : ofDocument? c.toDocument = some c := by
  obtain ⟨d, hd, h⟩ := h
  simp only [ofDocument?, Option.bind_eq_bind, Option.bind_eq_some_iff, Option.pure_def, Option.some.injEq] at h
  obtain ⟨fields, hfields, code, -, distances, hdistances, rates, hrates, shots, hshots, rounds, hrounds, rfl⟩ := h
  have hexplicit := Document.record?_explicit hd hfields
  have hcode := code.ofDocument?_toDocument
  have hdistances' : Document.all? (Document.natural? Document.word32) (.ofList .ofNat distances) = some distances :=
    Document.all?_ofList fun n hn => Document.natural?_ofNat ((hexplicit.required hdistances).all n hn).natural (by decide)
  have hrates' := Document.all?_numbers (fun x hx => ((hexplicit.required hrates).all x hx).number) hnumbers
  have hshots' := Document.natural?_ofNat (hexplicit.required hshots).natural (by decide)
  have hbound : rounds ≤ Document.word32 := hexplicit.defaulted_elim hrounds (by decide) fun _ h => h.natural
  have hrounds' := Document.natural?_ofNat hbound (by decide)
  simp [ofDocument?, toDocument, hcode, hdistances', hrates', hshots', hrounds']

@[simp] theorem written_toDocument (c : ThresholdConfig) : c.toDocument.Written := by simp [toDocument]

end ThresholdConfig

namespace ThresholdStats

/-! ## Rates by distance -/

theorem distanceOfKey?_le {key : String} {d : Nat} (h : distanceOfKey? key = some d) : d ≤ Document.word32 := by
  unfold distanceOfKey? at h
  split at h
  · cases h
  · cases h
  · obtain ⟨n, -, h⟩ := Option.bind_eq_some_iff.mp h
    obtain ⟨hle, hn⟩ := Option.ite_none_right_eq_some.mp h
    exact Option.some.inj hn ▸ hle

theorem distanceOfKey?_toString {d : Nat} (h : d ≤ Document.word32) : distanceOfKey? (toString d) = some d := by
  obtain ⟨c, cs, hdigits, hc⟩ := exists_digit d
  have hread := natOfDigits?_toDigits d
  have hplus : c ≠ '+' := by
    rintro rfl
    cases hc
  have htext : natOfText? Document.word32 (c :: cs) = some d := by
    rw [natOfText?, List.head?_cons, if_neg (by simpa using hplus), ← hdigits, hread]
    exact if_pos h
  unfold distanceOfKey?
  rw [toString_digits, hdigits]
  split
  · rename_i heq
    cases heq
    have hone := toDigits_of_head? (n := d) (by rw [hdigits]; rfl)
    rw [hdigits] at hone
    cases hone
  · rename_i heq
    cases heq
    exact absurd rfl hplus
  · exact htext

/-- Entries as reading leaves them. -/
structure Stored (entries : Entries) : Prop where
  ascend : (entries.map Prod.fst).Pairwise (· < ·)
  distances : ∀ entry ∈ entries, entry.1 ≤ Document.word32
  finite : ∀ entry ∈ entries, ∀ x ∈ entry.2, x.isFinite = true

/-- The reader of one entry. -/
def readEntry (entries : Entries) (field : Option String × Document) : Option Entries := do
  let distance ← distanceOfKey? (← field.1)
  let rates ← field.2.all? Document.number?
  return insertRates distance rates entries

theorem ratesOfFields?_eq (fields : List (Option String × Document)) :
    ratesOfFields? fields = fields.foldlM readEntry [] := rfl

theorem Stored.readEntry {entries entries' : Entries} (h : Stored entries) {field : Option String × Document}
    (hfield : field.2.Explicit) (hread : readEntry entries field = some entries') : Stored entries' := by
  simp only [ThresholdStats.readEntry, Option.bind_eq_bind, Option.bind_eq_some_iff, Option.pure_def,
    Option.some.injEq] at hread
  obtain ⟨key, -, d, hd, rates, hrates, rfl⟩ := hread
  refine ⟨insertRates_ascend h.ascend, fun entry hentry => ?_, fun entry hentry => ?_⟩
  · rcases mem_insertRates hentry with rfl | hold
    · exact distanceOfKey?_le hd
    · exact h.distances entry hold
  · rcases mem_insertRates hentry with rfl | hold
    · exact fun x hx => (Readable.all ⟨_, hfield, hrates⟩ x hx).number
    · exact h.finite entry hold

theorem Stored.foldlM {fields : List (Option String × Document)} (hfields : ∀ field ∈ fields, field.2.Explicit)
    {entries entries' : Entries} (h : Stored entries)
    (hread : fields.foldlM ThresholdStats.readEntry entries = some entries') : Stored entries' := by
  induction fields generalizing entries with
  | nil =>
    cases hread
    exact h
  | cons field rest ih =>
    obtain ⟨hfield, hrest⟩ := List.forall_mem_cons.mp hfields
    rw [List.foldlM_cons] at hread
    obtain ⟨next, hnext, hread⟩ := Option.bind_eq_some_iff.mp hread
    exact ih hrest (h.readEntry hfield hnext) hread

theorem stored_of_readable {entries : Entries} (h : Readable ratesOfDocument? entries) : Stored entries := by
  obtain ⟨d, hd, hread⟩ := h
  cases hd with
  | object hfields => exact Stored.foldlM hfields ⟨List.Pairwise.nil, by simp, by simp⟩ hread
  | null | bool | text | number | list => cases hread

/-- The field of an entry. -/
def field (entry : Nat × List Binary64) : Option String × Document :=
  (some (toString entry.1), .ofList .ofBinary64 entry.2)

/-- Entries in order are read one behind the other. -/
theorem foldlM_field {before entries : Entries} (h : Stored (before ++ entries))
    (hnumbers : ∀ entry ∈ entries, ∀ x ∈ entry.2, x.ReadsBack) :
    (entries.map field).foldlM readEntry before = some (before ++ entries) := by
  induction entries generalizing before with
  | nil => rw [List.append_nil]; rfl
  | cons entry rest ih =>
    obtain ⟨hentry, hrest⟩ := List.forall_mem_cons.mp hnumbers
    have hmem : entry ∈ before ++ entry :: rest := by simp
    have hlast : insertRates entry.1 entry.2 before = before ++ [entry] := by
      refine insertRates_of_lt fun e he => ?_
      have hascend := h.ascend
      rw [List.map_append, List.pairwise_append] at hascend
      exact hascend.2.2 e he entry.1 List.mem_cons_self
    have hread : readEntry before (field entry) = some (before ++ [entry]) := by
      simp only [readEntry, field, distanceOfKey?_toString (h.distances entry hmem),
        Document.all?_numbers (h.finite entry hmem) hentry, Option.bind_eq_bind, Option.bind_some, hlast, Option.pure_def]
    rw [List.map_cons, List.foldlM_cons, hread]
    exact (ih (by simpa using h) hrest).trans (by simp)

/-- The rates as they are written. -/
def ratesDocument (entries : Entries) : Document :=
  .record (entries.map fun entry => (toString entry.1, .ofList .ofBinary64 entry.2))

theorem toDocument_eq (s : ThresholdStats) : s.toDocument = .record [
    ("shots", .ofNat s.shots),
    ("error_rates", .ofList .ofBinary64 s.errorRates),
    ("logical_error_rates", ratesDocument s.logicalErrorRates)] := rfl

/-! ## Results -/

def numbers (s : ThresholdStats) : List Binary64 := s.errorRates ++ s.logicalErrorRates.flatMap Prod.snd

theorem ofDocument?_toDocument {s : ThresholdStats} (h : Readable ofDocument? s)
    (hnumbers : ∀ x ∈ s.numbers, x.ReadsBack) : ofDocument? s.toDocument = some s := by
  obtain ⟨d, hd, h⟩ := h
  simp only [ofDocument?, Option.bind_eq_bind, Option.bind_eq_some_iff, Option.pure_def, Option.some.injEq] at h
  obtain ⟨fields, hfields, shots, hshots, rates, hrates, entries, hentries, rfl⟩ := h
  have hexplicit := Document.record?_explicit hd hfields
  obtain ⟨hfirst, hsecond⟩ := List.forall_mem_append.mp hnumbers
  have hshots' := Document.natural?_ofNat (hexplicit.required hshots).natural (by decide)
  have hrates' := Document.all?_numbers (fun x hx => ((hexplicit.required hrates).all x hx).number) hfirst
  have hentries' : ratesOfDocument? (ratesDocument entries) = some entries := by
    have hback : (entries.map field).foldlM readEntry [] = some ([] ++ entries) :=
      foldlM_field (stored_of_readable (hexplicit.required hentries))
        fun entry hentry x hx => hsecond x (List.mem_flatMap.mpr ⟨entry, hentry, hx⟩)
    show ratesOfFields? (List.map _ (List.map _ entries)) = _
    rw [List.map_map, ratesOfFields?_eq]
    exact hback
  rw [toDocument_eq]
  simp [ofDocument?, hshots', hrates', hentries']

@[simp] theorem written_toDocument (s : ThresholdStats) : s.toDocument.Written := by
  have hentries : (ratesDocument s.logicalErrorRates).Written :=
    Document.written_record.mpr (List.forall_mem_map.mpr fun entry _ => by simp)
  simp [toDocument_eq, hentries]

end ThresholdStats

end QuantumMemory

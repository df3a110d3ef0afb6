/-
  QuantumMemory.Proofs.Family.Document — parameters and descriptions of codes are read back from their documents.

  What was left out has a value of its own after reading and is written like the rest. A check site without
  directions of its own is written without them, and is the only record whose fields vary.

  - `CodeParams.ofDocument?_toDocument`, `BicycleSpec.ofDocument?_toDocument`, `LatticeSpec.ofDocument?_toDocument`
-/

import QuantumMemory.Family.Document
import QuantumMemory.Proofs.Document.Fields
import QuantumMemory.Proofs.Lattice.Document

namespace QuantumMemory

open Document (Readable)

namespace CodeKind

theorem ofDocument?_toDocument (k : CodeKind) : ofDocument? k.toDocument = some k := by cases k <;> rfl

@[simp] theorem written_toDocument (k : CodeKind) : k.toDocument.Written := by simp [toDocument]

end CodeKind

namespace BoundaryPolicy

theorem ofDocument?_toDocument (p : BoundaryPolicy) : ofDocument? p.toDocument = some p := by cases p <;> rfl

@[simp] theorem written_toDocument (p : BoundaryPolicy) : p.toDocument.Written := by simp [toDocument]

end BoundaryPolicy

namespace CodeParams

/-- The rates. -/
def numbers (p : CodeParams) : List Binary64 := [p.depolarize1Rate, p.depolarize2Rate]

/-- What the reader of parameters makes sure of. -/
structure Bounded (p : CodeParams) : Prop where
  distance : p.distance ≤ Document.word32
  finite1 : p.depolarize1Rate.isFinite = true
  finite2 : p.depolarize2Rate.isFinite = true

theorem bounded_of_fields {fields : Document.Fields} (hfields : fields.Explicit) {p : CodeParams}
    (h : ofFields? fields = some p) : p.Bounded := by
  simp only [ofFields?, Option.bind_eq_bind, Option.bind_eq_some_iff, Option.pure_def, Option.some.injEq] at h
  obtain ⟨distance, hdistance, p1, hp1, p2, hp2, rfl⟩ := h
  have hfinite1 : p1.isFinite = true := hfields.defaulted_elim hp1 rfl fun _ h => h.number
  have hfinite2 : p2.isFinite = true := hfields.defaulted_elim hp2 rfl fun _ h => h.number
  exact ⟨(hfields.required hdistance).natural, hfinite1, hfinite2⟩

theorem bounded_of_readable {p : CodeParams} (h : Readable ofDocument? p) : p.Bounded := by
  obtain ⟨d, hd, h⟩ := h
  obtain ⟨fields, hfields, h⟩ := Option.bind_eq_some_iff.mp h
  exact bounded_of_fields (Document.record?_explicit hd hfields) h

theorem ofDocument?_toDocument {p : CodeParams} (h : p.Bounded) (hnumbers : ∀ x ∈ p.numbers, x.ReadsBack) :
    ofDocument? p.toDocument = some p := by
  have hdistance := Document.natural?_ofNat h.distance (by decide)
  have hp1 := Document.number?_ofBinary64 h.finite1 (hnumbers _ (by simp [numbers]))
  have hp2 := Document.number?_ofBinary64 h.finite2 (hnumbers _ (by simp [numbers]))
  simp [ofDocument?, ofFields?, toDocument, toFields, fieldNames, hdistance, hp1, hp2]

@[simp] theorem written_toFields (p : CodeParams) : ∀ field ∈ p.toFields, field.2.Written := by simp [toFields]

@[simp] theorem written_toDocument (p : CodeParams) : p.toDocument.Written := by
  simpa [toDocument] using p.written_toFields

end CodeParams

namespace Monomial

theorem ofDocument?_toDocument {t : Monomial} (h : Readable ofDocument? t) : ofDocument? t.toDocument = some t := by
  obtain ⟨d, hd, h⟩ := h
  simp only [ofDocument?, Option.bind_eq_bind, Option.bind_eq_some_iff, Option.pure_def, Option.some.injEq] at h
  obtain ⟨fields, hfields, x, hx, y, hy, rfl⟩ := h
  have hexplicit := Document.record?_explicit hd hfields
  have hx' := Document.natural?_ofNat (hexplicit.required hx).natural (by decide)
  have hy' := Document.natural?_ofNat (hexplicit.required hy).natural (by decide)
  simp [ofDocument?, toDocument, hx', hy']

@[simp] theorem written_toDocument (t : Monomial) : t.toDocument.Written := by simp [toDocument]

end Monomial

/-- A list of a fixed number of items is read back if the items are. -/
theorem Document.exactly?_ofList {α : Type} {read : Document → Option α} {write : α → Document} {count : Nat}
    {as : List α} (h : Readable (exactly? count read) as) (hback : ∀ a, Readable read a → read (write a) = some a) :
    exactly? count read (ofList write as) = some as := by
  obtain ⟨d, hd, h⟩ := h
  obtain ⟨hall, hcount⟩ := Option.filter_eq_some_iff.mp h
  have hread : all? read (ofList write as) = some as :=
    all?_ofList fun a ha => hback a (Readable.all ⟨d, hd, hall⟩ a ha)
  rw [exactly?, hread]
  exact Option.filter_eq_some_iff.mpr ⟨rfl, hcount⟩

namespace BicycleSpec

theorem ofDocument?_toDocument {s : BicycleSpec} (h : Readable ofDocument? s) : ofDocument? s.toDocument = some s := by
  obtain ⟨d, hd, h⟩ := h
  simp only [ofDocument?, Option.bind_eq_bind, Option.bind_eq_some_iff, Option.pure_def, Option.some.injEq] at h
  obtain ⟨fields, hfields, l, hl, m, hm, a, ha, b, hb, rfl⟩ := h
  have hexplicit := Document.record?_explicit hd hfields
  have hl' := Document.natural?_ofNat (hexplicit.required hl).natural (by decide)
  have hm' := Document.natural?_ofNat (hexplicit.required hm).natural (by decide)
  have ha' := Document.exactly?_ofList (hexplicit.required ha) fun _ => Monomial.ofDocument?_toDocument
  have hb' := Document.exactly?_ofList (hexplicit.required hb) fun _ => Monomial.ofDocument?_toDocument
  simp [ofDocument?, toDocument, hl', hm', ha', hb']

@[simp] theorem written_toDocument (s : BicycleSpec) : s.toDocument.Written := by simp [toDocument]

end BicycleSpec

theorem directionsOfDocument?_toDocument {directions : List Nat} (h : Readable directionsOfDocument? directions) :
    directionsOfDocument? (directionsToDocument directions) = some directions :=
  Document.exactly?_ofList h fun _ hn => Document.natural?_ofNat hn.natural (by decide)

theorem directionsOfDocument?_identity :
    directionsOfDocument? (directionsToDocument [0, 1, 2, 3]) = some [0, 1, 2, 3] := by decide

@[simp] theorem written_directionsToDocument (directions : List Nat) : (directionsToDocument directions).Written := by
  simp [directionsToDocument]

namespace CheckSite

theorem ofDocument?_toDocument {s : CheckSite} (h : Readable ofDocument? s) : ofDocument? s.toDocument = some s := by
  obtain ⟨d, hd, h⟩ := h
  simp only [ofDocument?, Option.bind_eq_bind, Option.bind_eq_some_iff, Option.pure_def, Option.some.injEq] at h
  obtain ⟨fields, hfields, basis, hbasis, coordinate, hcoordinate, directions, hdirections, rfl⟩ := h
  have hexplicit := Document.record?_explicit hd hfields
  have hbasis' := basis.ofDocument?_toDocument
  have hcoordinate' := Coordinate.ofDocument?_toDocument (Coordinate.readable_onGrid (hexplicit.required hcoordinate))
  cases directions with
  | none =>
    simp [ofDocument?, toDocument, Document.Fields.optional, hbasis', hcoordinate']
  | some own =>
    have hown := directionsOfDocument?_toDocument (hexplicit.optional hdirections own rfl)
    simp [ofDocument?, toDocument, Document.Fields.optional, hbasis', hcoordinate', Document.orNull_eq rfl hown]

@[simp] theorem written_toDocument (s : CheckSite) : s.toDocument.Written := by
  cases hdirections : s.directions <;> simp [toDocument, hdirections]

end CheckSite

namespace LatticeSpec

theorem defaultStep_isFinite : defaultStep.isFinite = true := by decide +kernel

/-- The step is the only number that is not on the grid. -/
def numbers (s : LatticeSpec) : List Binary64 := [s.step]

theorem ofDocument?_toDocument {s : LatticeSpec} (h : Readable ofDocument? s)
    (hnumbers : ∀ x ∈ s.numbers, x.ReadsBack) : ofDocument? s.toDocument = some s := by
  obtain ⟨d, hd, h⟩ := h
  simp only [ofDocument?, Option.bind_eq_bind, Option.bind_eq_some_iff, Option.pure_def, Option.some.injEq] at h
  obtain ⟨fields, hfields, name, hname, data, hdata, checks, hchecks, bases, hbases, xs, hxs, zs, hzs, step, hstep,
    boundary, hboundary, logical, hlogical, policy, hpolicy, rfl⟩ := h
  have hexplicit := Document.record?_explicit hd hfields
  have hdata' := Coordinate.all?_toDocument (hexplicit.required hdata)
  have hlogical' := Coordinate.all?_toDocument (hexplicit.required hlogical)
  have hchecks' : Document.all? CheckSite.ofDocument? (.ofList CheckSite.toDocument checks) = some checks :=
    Document.all?_ofList fun site hsite => CheckSite.ofDocument?_toDocument ((hexplicit.required hchecks).all site hsite)
  have hbases' : Document.all? CheckBasis.ofDocument? (.ofList CheckBasis.toDocument bases) = some bases :=
    Document.all?_ofList fun basis _ => basis.ofDocument?_toDocument
  have hxs' : directionsOfDocument? (directionsToDocument xs) = some xs :=
    hexplicit.defaulted_elim hxs directionsOfDocument?_identity fun _ => directionsOfDocument?_toDocument
  have hzs' : directionsOfDocument? (directionsToDocument zs) = some zs :=
    hexplicit.defaulted_elim hzs directionsOfDocument?_identity fun _ => directionsOfDocument?_toDocument
  have hfinite : step.isFinite = true := hexplicit.defaulted_elim hstep defaultStep_isFinite fun _ h => h.number
  have hstep' := Document.number?_ofBinary64 hfinite (hnumbers step List.mem_cons_self)
  have hboundary' : Boundary.ofDocument? boundary.toDocument = some boundary :=
    hexplicit.defaulted_elim hboundary rfl fun _ h => Boundary.ofDocument?_toDocument h
  have hpolicy' := policy.ofDocument?_toDocument
  simp [ofDocument?, toDocument, fieldNames, hdata', hchecks', hbases', hxs', hzs', hstep', hboundary', hlogical', hpolicy']

@[simp] theorem written_toDocument (s : LatticeSpec) : s.toDocument.Written := by simp [toDocument]

end LatticeSpec

end QuantumMemory

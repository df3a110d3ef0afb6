/-
  QuantumMemory.Proofs.Circuit.Document — instructions are read back from their documents.

  - `Instruction.ofDocument?_toDocument`: an instruction that was read, whose probability, if it is noise, is read
    back from its literal, is read back from its document.
-/

import QuantumMemory.Circuit.Document
import QuantumMemory.Proofs.Document.Fields

namespace QuantumMemory

open Document (Readable)

theorem Document.tag?_explicit {d content : Document} {s : String} (hd : d.Explicit) (h : d.tag? = some (s, content)) :
    content.Explicit := by
  cases hd with
  | text value =>
    cases value with
    | none => cases h
    | some _ => cases h; exact .null
  | object hmembers =>
    unfold Document.tag? at h
    split at h
    · cases h; exact .null
    · cases h; exact .null
    · rename_i heq
      cases heq
      cases h
      exact hmembers _ List.mem_cons_self
    · cases h
  | null | bool | number | list => cases h

namespace Gate

theorem ofDocument?_toDocument (g : Gate) : ofDocument? g.toDocument = some g := by cases g <;> rfl

end Gate

namespace Channel

theorem probability?_isFinite {d : Document} (hd : d.Explicit) {p : Binary64} (h : probability? d = some p) :
    p.isFinite = true := by
  obtain ⟨fields, hfields, hp⟩ := Option.bind_eq_some_iff.mp h
  exact ((Document.record?_explicit hd hfields).required hp).number

theorem readable_probability {c : Channel} (h : Readable ofDocument? c) : c.probability.isFinite = true := by
  obtain ⟨d, hd, hread⟩ := h
  unfold ofDocument? at hread
  split at hread
  · rename_i content htag
    obtain ⟨p, hp, rfl⟩ := Option.map_eq_some_iff.mp hread
    exact probability?_isFinite (Document.tag?_explicit hd htag) hp
  · rename_i content htag
    obtain ⟨p, hp, rfl⟩ := Option.map_eq_some_iff.mp hread
    exact probability?_isFinite (Document.tag?_explicit hd htag) hp
  · cases hread

theorem ofDocument?_toDocument {c : Channel} (h : Readable ofDocument? c) (hp : c.probability.ReadsBack) :
    ofDocument? c.toDocument = some c := by
  have hread := Document.number?_ofBinary64 (readable_probability h) hp
  cases c with
  | depolarize1 p => exact congrArg (Option.map depolarize1) hread
  | depolarize2 p => exact congrArg (Option.map depolarize2) hread

end Channel

namespace Instruction

namespace Kind

/-- What is noise was read as a channel. -/
theorem readable_noise {c : Channel} (h : Readable ofDocument? (.noise c)) : Readable Channel.ofDocument? c := by
  obtain ⟨d, hd, hread⟩ := h
  unfold ofDocument? at hread
  split at hread
  case h_3 content htag =>
    obtain ⟨c', hc, heq⟩ := Option.map_eq_some_iff.mp hread
    cases heq
    exact ⟨content, Document.tag?_explicit hd htag, hc⟩
  all_goals simp [Option.bind_eq_some_iff] at hread

theorem readable_observable {index : Nat} (h : Readable ofDocument? (.observable index)) :
    index ≤ Document.word32 := by
  obtain ⟨d, hd, hread⟩ := h
  unfold ofDocument? at hread
  split at hread
  case h_7 content htag =>
    obtain ⟨fields, hfields, hread⟩ := Option.bind_eq_some_iff.mp hread
    obtain ⟨index', hindex, heq⟩ := Option.bind_eq_some_iff.mp hread
    cases heq
    exact ((Document.record?_explicit (Document.tag?_explicit hd htag) hfields).required hindex).natural
  all_goals simp at hread

/-- The probabilities of the instruction. -/
def numbers : Kind → List Binary64
  | noise c => [c.probability]
  | _ => []

theorem ofDocument?_toDocument {k : Kind} (h : Readable ofDocument? k) (hnumbers : ∀ x ∈ k.numbers, x.ReadsBack) :
    ofDocument? k.toDocument = some k := by
  cases k with
  | reset | measure | measureReset | detector | tick => rfl
  | gate g => exact congrArg (Option.map gate) g.ofDocument?_toDocument
  | noise c =>
    have hc := Channel.ofDocument?_toDocument (readable_noise h) (hnumbers _ List.mem_cons_self)
    exact congrArg (Option.map noise) hc
  | observable index =>
    have hindex := Document.natural?_ofNat (readable_observable h) (by decide)
    exact congrArg (Option.bind · fun k => some (observable k)) hindex

theorem written_toDocument (k : Kind) : k.toDocument.Written := by
  cases k with
  | gate g => simp [toDocument, Gate.toDocument]
  | noise c => cases c <;> simp [toDocument, Channel.toDocument]
  | reset | measure | measureReset | detector | tick | observable => simp [toDocument]

end Kind

/-- The probabilities in an instruction. -/
def numbers (i : Instruction) : List Binary64 := i.kind.numbers

/-- An instruction that was read is read back from its document. -/
theorem ofDocument?_toDocument {i : Instruction} (h : Readable ofDocument? i)
    (hnumbers : ∀ x ∈ i.numbers, x.ReadsBack) : ofDocument? i.toDocument = some i := by
  obtain ⟨d, hd, h⟩ := h
  simp only [ofDocument?, Option.bind_eq_bind, Option.bind_eq_some_iff, Option.pure_def, Option.some.injEq] at h
  obtain ⟨fields, hfields, kind, hkind, qubits, hqubits, records, hrecords, rfl⟩ := h
  have hexplicit := Document.record?_explicit hd hfields
  have hkind' := Kind.ofDocument?_toDocument (hexplicit.required hkind) hnumbers
  have hqubits' : Document.all? (Document.natural? Document.word32) (.ofList .ofNat qubits) = some qubits :=
    Document.all?_ofList fun q hq => Document.natural?_ofNat ((hexplicit.required hqubits).all q hq).natural (by decide)
  have hrecords' : Document.all? RecordOffset.ofDocument? (.ofList .ofInt records) = some records :=
    Document.all?_ofList fun r hr => Document.integer?_ofInt ((hexplicit.required hrecords).all r hr).integer
      (by decide) (by decide)
  simp [ofDocument?, toDocument, hkind', hqubits', hrecords']

theorem written_toDocument (i : Instruction) : i.toDocument.Written := by
  simp [toDocument, Kind.written_toDocument]

end Instruction

end QuantumMemory

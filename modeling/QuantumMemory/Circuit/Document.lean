/-
  QuantumMemory.Circuit.Document — instructions, circuits and ledgers as documents.

  A kind of instruction is its word, or an object with the word as its only key and what
  the kind carries as its value. Qubits and indices are 32-bit counts, references to
  outcomes 32-bit integers.
-/

import QuantumMemory.Circuit.Ledger
import QuantumMemory.Document.Read

namespace QuantumMemory

namespace RecordOffset

def ofDocument? (d : Document) : Option RecordOffset := d.integer? (-(reach : Int) - 1) reach

end RecordOffset

namespace Gate

def ofSymbol? (s : String) : Option Gate := [x, z, h, cx, cz].find? fun g => g.symbol = s

def toDocument (g : Gate) : Document := .ofString g.symbol

def ofDocument? (d : Document) : Option Gate := d.word? ofSymbol?

end Gate

namespace Channel

def toDocument : Channel → Document
  | depolarize1 p => .record [("Depolarize1", .record [("p", .ofBinary64 p)])]
  | depolarize2 p => .record [("Depolarize2", .record [("p", .ofBinary64 p)])]

def probability? (d : Document) : Option Binary64 := do
  (← d.record? ["p"]).required "p" Document.number?

def ofDocument? (d : Document) : Option Channel :=
  match d.tag? with
  | some ("Depolarize1", d) => (probability? d).map depolarize1
  | some ("Depolarize2", d) => (probability? d).map depolarize2
  | _ => none

end Channel

namespace Instruction

def Kind.toDocument : Kind → Document
  | .reset => .ofString "Reset"
  | .gate g => .record [("Gate", g.toDocument)]
  | .noise c => .record [("Noise", c.toDocument)]
  | .measure => .ofString "Measure"
  | .measureReset => .ofString "MeasureReset"
  | .detector => .ofString "Detector"
  | .observable index => .record [("ObservableInclude", .record [("index", .ofNat index)])]
  | .tick => .ofString "Tick"

def Kind.ofDocument? (d : Document) : Option Kind :=
  match d.tag? with
  | some ("Reset", .null) => some .reset
  | some ("Gate", d) => (Gate.ofDocument? d).map .gate
  | some ("Noise", d) => (Channel.ofDocument? d).map .noise
  | some ("Measure", .null) => some .measure
  | some ("MeasureReset", .null) => some .measureReset
  | some ("Detector", .null) => some .detector
  | some ("ObservableInclude", d) => do
    let fields ← d.record? ["index"]
    return .observable (← fields.required "index" (Document.natural? Document.word32))
  | some ("Tick", .null) => some .tick
  | _ => none

def toDocument (i : Instruction) : Document :=
  .record [
    ("kind", i.kind.toDocument),
    ("qubits", .ofList .ofNat i.qubits),
    ("records", .ofList .ofInt i.records)]

def ofDocument? (d : Document) : Option Instruction := do
  let fields ← d.record? ["kind", "qubits", "records"]
  let kind ← fields.required "kind" Kind.ofDocument?
  let qubits ← fields.required "qubits" (Document.all? (Document.natural? Document.word32))
  let records ← fields.required "records" (Document.all? RecordOffset.ofDocument?)
  return ⟨kind, qubits, records⟩

end Instruction

def Circuit.toDocument (c : Circuit) : Document :=
  .record [
    ("name", .ofString c.name),
    ("instructions", .ofList Instruction.toDocument c.instructions),
    ("num_qubits", .ofNat c.numQubits),
    ("num_measurements", .ofNat c.numMeasurements),
    ("num_detectors", .ofNat c.numDetectors),
    ("num_observables", .ofNat c.numObservables)]

namespace MeasurementKind

def toDocument (k : MeasurementKind) : Document := .ofString k.name

def ofDocument? (d : Document) : Option MeasurementKind := d.word? ofName?

end MeasurementKind

namespace Measurement

/-- The measurement with the number of its outcome. -/
def toDocument (m : Measurement) (index : Nat) : Document :=
  .record [
    ("qubit", .ofNat m.qubit),
    ("round", .ofNat m.round),
    ("kind", m.kind.toDocument),
    ("index", .ofNat index)]

def ofDocument? (d : Document) : Option (Measurement × Nat) := do
  let fields ← d.record? ["qubit", "round", "kind", "index"]
  let qubit ← fields.required "qubit" (Document.natural? Document.word32)
  let round ← fields.required "round" (Document.natural? Document.word32)
  let kind ← fields.required "kind" MeasurementKind.ofDocument?
  let index ← fields.required "index" (Document.natural? Document.word64)
  return (⟨qubit, round, kind⟩, index)

end Measurement

def Ledger.toDocument (l : Ledger) : Document :=
  .record [("records", .ofList (fun (m, index) => m.toDocument index) l.records)]

end QuantumMemory

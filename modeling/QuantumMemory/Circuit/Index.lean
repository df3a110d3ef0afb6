/-
  QuantumMemory.Circuit.Index — a ledger kept in place, with an index.

  The entries stand in the order of measurement, each with the number of its outcome. The
  index has the number for a qubit and a round, so nothing is searched: a look-up goes by
  the index, and so does the refusal of a second entry. A new entry is written in both, one
  after the other.
-/

import QuantumMemory.Circuit.Edit
import QuantumMemory.Circuit.Ledger

namespace QuantumMemory

structure IndexedLedger where
  records : List (Measurement × Nat)
  index : Qubit → Nat → Option Nat

namespace IndexedLedger

def empty : IndexedLedger := ⟨[], fun _ _ => none⟩

def length (l : IndexedLedger) : Nat := l.records.length

def isEmpty (l : IndexedLedger) : Bool := l.records.isEmpty

/-- The entries alone. -/
def ledger (l : IndexedLedger) : Ledger := ⟨(l.records.map (·.1)).reverse⟩

def push (m : Measurement) (number : Nat) : Edit IndexedLedger Unit :=
  modify fun l => { l with records := l.records ++ [(m, number)] }

/-- Has the index give the number for the qubit in the round. -/
def point (qubit : Qubit) (round number : Nat) : Edit IndexedLedger Unit :=
  modify fun l => { l with index := fun q r => if q = qubit ∧ r = round then some number else l.index q r }

/-- The new entry is the latest, which is how it is referred to. -/
def record (qubit : Qubit) (round : Nat) (kind : MeasurementKind) : Edit IndexedLedger RecordOffset := do
  let l ← get
  if (l.index qubit round).isSome then throw (.duplicateMeasurement qubit round)
  else
    let number := l.records.length
    push ⟨qubit, round, kind⟩ number
    point qubit round number
    return -1

def lookup? (l : IndexedLedger) (qubit : Qubit) (round : Nat) : Option RecordOffset :=
  (l.index qubit round).bind fun number => RecordOffset.ofIndex? number l.records.length

def has (l : IndexedLedger) (qubit : Qubit) (round : Nat) : Bool := (l.index qubit round).isSome

def get? (l : IndexedLedger) (qubit : Qubit) (round : Nat) : Option (Measurement × Nat) :=
  (l.index qubit round).bind fun number => l.records[number]?

def inRound (l : IndexedLedger) (round : Nat) : List (Measurement × Nat) := l.records.filter (·.1.round == round)

end IndexedLedger

end QuantumMemory

/-
  QuantumMemory.Circuit.Ledger — which qubit was measured when.

  A ledger holds one entry an outcome, in the order of measurement. A qubit is measured
  once in a round, so qubit and round name an outcome. The entries are kept latest first:
  the place of an entry is the number of outcomes after it, which is what a reference to
  it counts.
-/

import QuantumMemory.Circuit.Basic

namespace QuantumMemory

/-- What a measurement was for: a check of the code, or the read-out of a data qubit. -/
inductive MeasurementKind
  | check
  | data
  deriving DecidableEq

namespace MeasurementKind

def name : MeasurementKind → String
  | check => "check"
  | data => "data"

def ofName? (s : String) : Option MeasurementKind := [check, data].find? fun k => k.name = s

/-- What is said of a word that names no kind. -/
def unknownMessage (s : String) : String :=
  s!"Unknown measurement kind '{s}' (expected 'check' or 'data')"

end MeasurementKind

structure Measurement where
  qubit : Qubit
  round : Nat
  kind : MeasurementKind
  deriving DecidableEq

namespace Measurement

/-- Of the given qubit in the given round. -/
def isOf (m : Measurement) (qubit : Qubit) (round : Nat) : Bool := m.qubit == qubit && m.round == round

end Measurement

structure Ledger where
  latestFirst : List Measurement
  deriving DecidableEq

namespace Ledger

def empty : Ledger := ⟨[]⟩

def length (l : Ledger) : Nat := l.latestFirst.length

def isEmpty (l : Ledger) : Bool := l.latestFirst.isEmpty

/-- How many outcomes came after the one of the qubit in the round. -/
def later? (l : Ledger) (qubit : Qubit) (round : Nat) : Option Nat :=
  l.latestFirst.findIdx? (·.isOf qubit round)

def has (l : Ledger) (qubit : Qubit) (round : Nat) : Bool := l.latestFirst.any (·.isOf qubit round)

def record (l : Ledger) (qubit : Qubit) (round : Nat) (kind : MeasurementKind) : Except CircuitError Ledger :=
  if l.has qubit round then .error (.duplicateMeasurement qubit round)
  else .ok ⟨⟨qubit, round, kind⟩ :: l.latestFirst⟩

/-- The reference to the outcome of the qubit in the round. -/
def lookup? (l : Ledger) (qubit : Qubit) (round : Nat) : Option RecordOffset :=
  (l.later? qubit round).bind RecordOffset.back?

/-- The entries in the order of measurement, each with the number of its outcome. -/
def records (l : Ledger) : List (Measurement × Nat) := l.latestFirst.reverse.zipIdx

def get? (l : Ledger) (qubit : Qubit) (round : Nat) : Option (Measurement × Nat) :=
  l.records.find? (·.1.isOf qubit round)

def inRound (l : Ledger) (round : Nat) : List (Measurement × Nat) := l.records.filter (·.1.round == round)

end Ledger

end QuantumMemory

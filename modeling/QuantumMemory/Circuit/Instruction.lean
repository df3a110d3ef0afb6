/-
  QuantumMemory.Circuit.Instruction — one step of a stabilizer circuit.

  An instruction has a kind, the qubits it acts on and the outcomes it refers to. A
  two-qubit gate or channel acts on its qubits in twos, in the order they are listed.
-/

import QuantumMemory.Circuit.Record
import QuantumMemory.Number.Decimal

namespace QuantumMemory

inductive Gate
  | x
  | z
  | h
  | cx
  | cz
  deriving DecidableEq

namespace Gate

def name : Gate → String
  | x => "x"
  | z => "z"
  | h => "h"
  | cx => "cx"
  | cz => "cz"

/-- The word for the gate in a circuit's text and in documents. -/
def symbol : Gate → String
  | x => "X"
  | z => "Z"
  | h => "H"
  | cx => "CX"
  | cz => "CZ"

def arity : Gate → Nat
  | x | z | h => 1
  | cx | cz => 2

end Gate

/-- Depolarizing noise on single qubits, or on pairs. -/
inductive Channel
  | depolarize1 (p : Binary64)
  | depolarize2 (p : Binary64)
  deriving DecidableEq

namespace Channel

def name : Channel → String
  | depolarize1 _ => "depolarize1"
  | depolarize2 _ => "depolarize2"

def symbol : Channel → String
  | depolarize1 _ => "DEPOLARIZE1"
  | depolarize2 _ => "DEPOLARIZE2"

def probability : Channel → Binary64
  | depolarize1 p | depolarize2 p => p

def arity : Channel → Nat
  | depolarize1 _ => 1
  | depolarize2 _ => 2

/-- For people: the probability to four places. -/
def text (c : Channel) : String := s!"{c.name}(p={c.probability.fixed 4})"

end Channel

inductive Instruction.Kind
  | reset
  | gate (gate : Gate)
  | noise (channel : Channel)
  | measure
  | measureReset
  | detector
  | observable (index : Nat)
  | tick
  deriving DecidableEq

namespace Instruction.Kind

def name : Kind → String
  | reset => "reset"
  | gate g => g.name
  | noise c => c.name
  | measure => "measure"
  | measureReset => "measure_reset"
  | detector => "detector"
  | observable _ => "observable_include"
  | tick => "tick"

/-- Outcomes are added by these. -/
def measures : Kind → Bool
  | measure | measureReset => true
  | _ => false

def gate? : Kind → Option Gate
  | gate g => some g
  | _ => none

def isNoise : Kind → Bool
  | noise _ => true
  | _ => false

def isObservable : Kind → Bool
  | observable _ => true
  | _ => false

end Instruction.Kind

structure Instruction where
  kind : Instruction.Kind
  qubits : List Qubit
  records : List RecordOffset
  deriving DecidableEq

/-- Pairs one after the other. -/
def flattenPairs : List (Qubit × Qubit) → List Qubit
  | [] => []
  | (a, b) :: rest => a :: b :: flattenPairs rest

/-- The items in twos; an odd last one belongs to no pair. -/
def pairUp : List Qubit → List (Qubit × Qubit)
  | a :: b :: rest => (a, b) :: pairUp rest
  | _ => []

theorem pairUp_flattenPairs (pairs : List (Qubit × Qubit)) : pairUp (flattenPairs pairs) = pairs := by
  induction pairs with
  | nil => rfl
  | cons p rest ih => simp [flattenPairs, pairUp, ih]

namespace Instruction

def reset (qubits : List Qubit) : Instruction := ⟨.reset, qubits, []⟩
def gate (g : Gate) (qubits : List Qubit) : Instruction := ⟨.gate g, qubits, []⟩
def noise (c : Channel) (qubits : List Qubit) : Instruction := ⟨.noise c, qubits, []⟩
def measure (qubits : List Qubit) : Instruction := ⟨.measure, qubits, []⟩
def measureReset (qubits : List Qubit) : Instruction := ⟨.measureReset, qubits, []⟩
def detector (records : List RecordOffset) : Instruction := ⟨.detector, [], records⟩
def observable (index : Nat) (records : List RecordOffset) : Instruction := ⟨.observable index, [], records⟩
def tick : Instruction := ⟨.tick, [], []⟩

def name (i : Instruction) : String := i.kind.name

/-- How many outcomes the instruction adds. -/
def measurements (i : Instruction) : Nat := if i.kind.measures then i.qubits.length else 0

def pairs (i : Instruction) : List (Qubit × Qubit) := pairUp i.qubits

end Instruction

end QuantumMemory

/-
  QuantumMemory.Circuit.Reader — the instructions of a Stim program text.

  Text is read the way it is written. Each line ends with a line break and is one
  instruction; single blanks separate its words. The first word says what is done, with a
  probability or an index in parentheses where there is one. The qubits follow, which
  begin with a digit, and after them the outcomes referred to.
-/

import QuantumMemory.Circuit.Stim
import QuantumMemory.Number.Written

namespace QuantumMemory

namespace Stim

/-- The items before a closing one. -/
def unclose? {α : Type} [DecidableEq α] (closing : α) (xs : List α) : Option (List α) :=
  if xs.getLast? = some closing then some xs.dropLast else none

def integer? (cs : List Char) : Option Int :=
  let (negative, digits) := Binary64.splitSign cs
  (natOfDigits? 10 digits).map fun (n : Nat) => if negative then -(n : Int) else (n : Int)

def outcome? : List Char → Option RecordOffset
  | 'r' :: 'e' :: 'c' :: '[' :: rest => (unclose? ']' rest).bind integer?
  | _ => none

/-- The kinds whose word stands alone. -/
def plainKinds : List Instruction.Kind :=
  [.reset, .gate .x, .gate .z, .gate .h, .gate .cx, .gate .cz, .measure, .measureReset, .detector, .tick]

def kindWith? (word argument : List Char) : Option Instruction.Kind :=
  if word = "DEPOLARIZE1".toList then (Binary64.ofText? argument).map fun p => .noise (.depolarize1 p)
  else if word = "DEPOLARIZE2".toList then (Binary64.ofText? argument).map fun p => .noise (.depolarize2 p)
  else if word = "OBSERVABLE_INCLUDE".toList then (natOfDigits? 10 argument).map .observable
  else none

def kind? (cs : List Char) : Option Instruction.Kind :=
  let (word, rest) := cs.span fun c => c != '('
  match rest with
  | [] => plainKinds.find? fun k => k.head.toList = word
  | _ :: rest => (unclose? ')' rest).bind (kindWith? word)

def instruction? (line : List Char) : Option Instruction :=
  match line.splitOn ' ' with
  | [] => none
  | first :: targets => do
    let (qubits, outcomes) := targets.span fun word => word.head?.any Char.isDigit
    return ⟨← kind? first, ← qubits.mapM (natOfDigits? 10), ← outcomes.mapM outcome?⟩

/-- The lines without their line breaks. -/
def lines? (text : String) : Option (List (List Char)) := unclose? [] (text.toList.splitOn '\n')

def read? (text : String) : Option (List Instruction) := do (← lines? text).mapM instruction?

end Stim

end QuantumMemory

/-
  QuantumMemory.Circuit.Stim — circuits as Stim program text.

  One line an instruction: its word, with a probability or an index in parentheses where
  it has one, then the qubits, then the outcomes referred to.
-/

import QuantumMemory.Circuit.Basic

namespace QuantumMemory

/-- The word that begins the line. -/
def Instruction.Kind.head : Instruction.Kind → String
  | reset => "R"
  | gate g => g.symbol
  | noise c => c.symbol ++ "(" ++ c.probability.plain ++ ")"
  | measure => "M"
  | measureReset => "MR"
  | detector => "DETECTOR"
  | observable index => "OBSERVABLE_INCLUDE(" ++ toString index ++ ")"
  | tick => "TICK"

/-- The line with its line break. -/
def Instruction.line (i : Instruction) : String :=
  i.kind.head
    ++ String.join (i.qubits.map fun q => " " ++ toString q)
    ++ String.join (i.records.map fun r => " " ++ r.text)
    ++ "\n"

def Circuit.toStim (c : Circuit) : String := String.join (c.instructions.map Instruction.line)

end QuantumMemory

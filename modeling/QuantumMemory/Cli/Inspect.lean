/-
  QuantumMemory.Cli.Inspect — the command that shows the layout of a code.

  As text it gives the sizes of the interaction graph, the logical operator and the
  operations of a memory of one round; as a document it gives the whole graph.
-/

import QuantumMemory.Cli.Build
import QuantumMemory.Document.Sorted

namespace QuantumMemory.Cli

/-- The sizes of a graph, a line each. -/
def graphLines (g : Graph) : List String :=
  [s!"  Data:       {g.dataQubits.length}"]
    ++ (g.checkCounts.map fun (basis, n) => s!"  {basis.name} checks:   {n}")
    ++ [s!"  Interactions: {g.numInteractions}",
      s!"  Layers:     {g.maxOrder}",
      s!"  Max weight: {g.maxCheckWeight}"]

def layoutLines (code : Code) (distance : Nat) : List String :=
  let logical := bracketed (code.logical.map fun q => s!"q{q}")
  [s!"Code: {code.name} (d={distance})", s!"  Qubits:     {code.numQubits}"]
    ++ (match code.graph? with
      | some g => graphLines g
      | none => ["  (no interaction graph; fixed index layout)"])
    ++ [s!"  Logical:    {logical} (weight {code.logical.length})"]

/-- How often each operation occurs in a circuit. -/
def operationsLine (c : Circuit) : String :=
  "  One round:  " ++ " ".intercalate (c.countOperations.map fun (name, n) => s!"{name}={n}")

def layoutDocument (code : Code) (distance : Nat) : Document :=
  .record [
    ("code", .ofString code.name),
    ("distance", .ofNat distance),
    ("num_qubits", .ofNat code.numQubits),
    ("logical_observable", .ofList .ofNat code.logical),
    ("graph", match code.graph? with
      | some g => g.summary
      | none => .null)]

variable {m : Type → Type} [Monad m]

def sayLine (line : String) : Session m Unit := Session.say (line ++ "\n")

def inspect (family : String) (distance : Nat) (json : Bool) : Session m Unit := do
  let code ← Session.expect id (codeOfFamily family distance .zero .zero)
  if json then sayLine (Document.Json.pretty (layoutDocument code distance).sorted)
  else do
    (layoutLines code distance).forM sayLine
    let experiment ← Session.expect .oneRound (code.buildMemory 1)
    sayLine (operationsLine experiment.circuit)

end QuantumMemory.Cli

/-
  QuantumMemory.Code.Basic — codes, and the memory circuits they compile to.

  A placed code has an interaction graph, and its memory follows the schedule of the graph.
  Shor's code has a fixed numbering of its own and a memory circuit of its own: every
  block of three is spread from its first qubit, and the data is read out in the X basis.
-/

import QuantumMemory.Code.Layout

namespace QuantumMemory

/-- A code with an interaction graph. -/
structure PlacedCode where
  name : String
  params : CodeParams
  graph : Graph
  layout : Layout
  logical : List Qubit
  deriving DecidableEq

/-- Shor's code on `params.distance` blocks. -/
structure ShorCode where
  params : CodeParams
  deriving DecidableEq

namespace ShorCode

def make (params : CodeParams) : Except CodeError ShorCode := do
  params.validate
  if params.distance % 3 = 0 then return ⟨params⟩ else throw (.invalidDistance params.distance .shor)

/-! ## Numbering -/

def blocks (c : ShorCode) : Nat := c.params.distance

def numQubits (c : ShorCode) : Nat := 6 * c.blocks - 1

def dataQubits (c : ShorCode) : List Qubit := List.range (3 * c.blocks)

def block (b : Nat) : List Qubit := [3 * b, 3 * b + 1, 3 * b + 2]

/-- The ancilla that compares qubits `j` and `j + 1` of a block. -/
def bitFlipAncilla (c : ShorCode) (b j : Nat) : Qubit := 3 * c.blocks + 2 * b + j

/-- The ancilla that compares a block with the next. -/
def phaseAncilla (c : ShorCode) (b : Nat) : Qubit := 5 * c.blocks + b

def bitFlipAncillas (c : ShorCode) : List Qubit :=
  (List.range c.blocks).flatMap fun b => [c.bitFlipAncilla b 0, c.bitFlipAncilla b 1]

def phaseAncillas (c : ShorCode) : List Qubit := (List.range (c.blocks - 1)).map c.phaseAncilla

def ancillas (c : ShorCode) : List Qubit := c.bitFlipAncillas ++ c.phaseAncillas

/-- The first qubit of every block. -/
def leaders (c : ShorCode) : List Qubit := (List.range c.blocks).map (3 * ·)

def logical : List Qubit := [0, 1, 2]

/-! ## Layers -/

/-- From the first qubit of each block to its `k`-th. -/
def fanOutLayer (c : ShorCode) (k : Nat) : List (Qubit × Qubit) :=
  (List.range c.blocks).map fun b => (3 * b, 3 * b + k)

/-- From qubits `k` and `k + 1` of each block to the block's two ancillas. -/
def bitFlipLayer (c : ShorCode) (k : Nat) : List (Qubit × Qubit) :=
  (List.range c.blocks).flatMap fun b =>
    [(3 * b + k, c.bitFlipAncilla b 0), (3 * b + k + 1, c.bitFlipAncilla b 1)]

/-- From each phase ancilla to the `k`-th of the six qubits it compares. -/
def phaseLayer (c : ShorCode) (k : Nat) : List (Qubit × Qubit) :=
  (List.range (c.blocks - 1)).map fun b => (c.phaseAncilla b, 3 * b + k)

/-! ## The circuit -/

/-- A change of basis with its noise. -/
def appendHadamard (qubits : List Qubit) : Build Unit := do
  Build.h qubits
  Build.depolarize1 qubits

def appendEncoding (c : ShorCode) : Build Unit := do
  Build.prepare (List.range c.numQubits)
  appendHadamard c.leaders
  [1, 2].forM fun k => Layout.appendLayer (c.fanOutLayer k)

/-- Every ancilla is compared with the round before, in the first round with nothing. -/
def appendDetectors (c : ShorCode) : Nat → Build Unit
  | 0 => c.ancillas.forM fun a => discard (Build.detector [(a, 0)])
  | round + 1 => c.ancillas.forM fun a => discard (Build.detector [(a, round), (a, round + 1)])

def appendRound (c : ShorCode) (round : Nat) : Build Unit := do
  Build.beginRound round
  if round = 0 then pure () else Build.depolarize1 c.ancillas
  (List.range 2).forM fun k => Layout.appendLayer (c.bitFlipLayer k)
  appendHadamard c.phaseAncillas
  (List.range 6).forM fun k => Layout.appendLayer (c.phaseLayer k)
  appendHadamard c.phaseAncillas
  Build.depolarize1 c.ancillas
  Build.measureReset c.ancillas round .check
  c.appendDetectors round

/-- The outcomes that close the comparison of a block with the next. -/
def closingTerms (c : ShorCode) (rounds b : Nat) : List Term :=
  (block b ++ block (b + 1)).map (·, rounds) ++ [(c.phaseAncilla b, rounds - 1)]

def appendReadout (c : ShorCode) (rounds : Nat) : Build Unit := do
  Build.beginFinalize
  Build.depolarize1 c.dataQubits
  Build.h c.dataQubits
  Build.measure c.dataQubits rounds .data
  (List.range (c.blocks - 1)).forM fun b => discard (Build.detector (c.closingTerms rounds b))
  Build.observable 0 (logical.map (·, rounds))

def memory (c : ShorCode) (rounds : Nat) : Build Experiment := do
  c.appendEncoding
  (List.range rounds).forM c.appendRound
  c.appendReadout rounds
  Build.finish

def buildMemory (c : ShorCode) (rounds : Nat) : Except CodeError Experiment := do
  validateRounds rounds
  ((Memory.start "shor" c.params).perform (c.memory rounds)).1

end ShorCode

inductive Code
  | placed (code : PlacedCode)
  | shor (code : ShorCode)
  deriving DecidableEq

namespace Code

def name : Code → String
  | placed c => c.name
  | shor _ => "shor"

def params : Code → CodeParams
  | placed c => c.params
  | shor c => c.params

def numQubits : Code → Nat
  | placed c => c.graph.size
  | shor c => c.numQubits

/-- The qubits whose joint outcome is the logical one. -/
def logical : Code → List Qubit
  | placed c => c.logical
  | shor _ => ShorCode.logical

def graph? : Code → Option Graph
  | placed c => some c.graph
  | shor _ => none

def layout? : Code → Option Layout
  | placed c => some c.layout
  | shor _ => none

def buildMemory (c : Code) (rounds : Nat) : Except CodeError Experiment :=
  match c with
  | placed c => c.layout.buildMemory c.name c.params rounds c.logical
  | shor c => c.buildMemory rounds

end Code

end QuantumMemory

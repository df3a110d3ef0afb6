/-
  QuantumMemory.Cli.Build — the command that builds a memory circuit.

  The circuit is written to a file, whose directories are made when they are missing, or
  to the output. What is built, and what came of it, is noted.
-/

import QuantumMemory.Cli.Command
import QuantumMemory.Cli.Session
import QuantumMemory.Circuit.Stim
import QuantumMemory.Lab.Config
import QuantumMemory.Text.LowerCase

namespace QuantumMemory.Cli

/-- The code of a family, whose name may be in any letter case. -/
def codeOfFamily (name : String) (distance : Nat) (p1 p2 : Binary64) : Except CommandError Code := do
  let name := lowerCase name
  match CodeKind.ofName? name with
  | none => throw (.unknownFamily name)
  | some kind =>
    let params ← (CodeParams.checked distance p1 p2).mapError .parameters
    (kind.build params).mapError (.code kind)

variable {m : Type → Type} [Monad m]

/-- The code to build and its number of rounds. -/
def Source.resolve (files : FileAccess m) : Source → Session m (Code × Nat)
  | .family name distance rounds p1 p2 => do
    return (← Session.expect id (codeOfFamily name distance p1 p2), rounds)
  | .description path => do
    let contents ← Session.perform (files.read path)
    let config ← Session.expect (.description path) (ExperimentConfig.load path contents)
    let code ← Session.expect .described config.buildCode
    return (code, config.rounds)

def OutputFormat.write (e : Experiment) : OutputFormat → String
  | .stim => e.circuit.toStim
  | .json => Document.Json.pretty e.toDocument ++ "\n"

def writeFile (files : FileAccess m) (path text : String) : Session m Unit := do
  match Path.parentOf? path with
  | some directory =>
    Session.expect (.directory directory) (← Session.perform (files.createDirectories directory))
  | none => pure ()
  Session.expect (.file path) (← Session.perform (files.write path text))

/-- The line that says what is about to be built. -/
def announcement (code : Code) (rounds : Nat) : String :=
  let params := code.params
  s!"→ Building {code.name} memory (d={params.distance}, {rounds} rounds, "
    ++ s!"p1={params.depolarize1Rate}, p2={params.depolarize2Rate})\n"

/-- The lines that say what was built. -/
def sizes (c : Circuit) : String :=
  "✓ Circuit built\n"
    ++ s!"  {c.numQubits} qubits, {c.numMeasurements} measurements, "
    ++ s!"{c.numDetectors} detectors, {c.numObservables} observables\n"

def build (files : FileAccess m) (source : Source) (format : OutputFormat) (output : Option String) :
    Session m Unit := do
  let (code, rounds) ← source.resolve files
  Session.note (announcement code rounds)
  let experiment ← Session.expect (.memory code.name) (code.buildMemory rounds)
  let text := format.write experiment
  match output with
  | some path => writeFile files path text
  | none => Session.say text
  Session.note (sizes experiment.circuit)
  match output with
  | some path => Session.note s!"  Written to: {path}\n"
  | none => pure ()

end QuantumMemory.Cli

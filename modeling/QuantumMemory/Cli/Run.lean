/-
  QuantumMemory.Cli.Run — from the arguments of a program to its outcome.

  Arguments that stand for no command end with code 2, a command that fails with code 1.
-/

import QuantumMemory.Cli.Inspect

namespace QuantumMemory.Cli

def versionNumberText : String := "0.1.0"

def versionLines : List String := [
  s!"qec v{versionNumberText} - QEC memory-circuit compiler",
  "",
  "Components:",
  "  qec-ir     Instruction stream, measurement ledger, Stim emitter",
  "  qec-codes  Code families and stabilizer round compiler",
  "  qec-lab    Sampling, decoding and threshold harness",
  "  qec-cli    Command-line interface",
  "",
  "Codes:      " ++ ", ".intercalate (CodeKind.all.map CodeKind.name),
  "License:    Apache-2.0"]

variable {m : Type → Type} [Monad m]

def Command.session (files : FileAccess m) : Command → Session m Unit
  | .build source format output => Cli.build files source format output
  | .inspect family distance json => Cli.inspect family distance json
  | .version => versionLines.forM sayLine
  | .versionNumber => sayLine s!"qec {versionNumberText}"

/-- What is noted of arguments that are refused. -/
def usage : String :=
  "error: invalid arguments\n\nUsage: qec [-v]... <build|inspect|version> [OPTIONS]\n"

def run (files : FileAccess m) (arguments : List String) : m Outcome :=
  match Command.ofArguments? arguments with
  | some command => (command.session files).conclude
  | none => pure ⟨2, "", usage⟩

end QuantumMemory.Cli

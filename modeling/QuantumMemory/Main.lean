/-
  QuantumMemory.Main — the program.

  It runs its arguments among the files it finds, writes what the command wrote, and ends
  with the command's exit code.
-/

import QuantumMemory.Cli.Run

namespace QuantumMemory

/-- Why the system refused something. -/
def FileFault.ofError : IO.Error → FileFault
  | .noFileOrDirectory .. => .missing
  | .alreadyExists .. => .taken
  | .inappropriateType _ 20 _ => .notADirectory
  | .inappropriateType _ 21 _ => .isADirectory
  | e => .other (toString e)

def attempt {α : Type} (action : IO α) : IO (Except FileFault α) := do
  try
    return .ok (← action)
  catch e =>
    return .error (FileFault.ofError e)

/-- The files of the system. -/
def systemFiles : FileAccess IO where
  read path := do
    return (← attempt (IO.FS.readBinFile path)).bind fun bytes =>
      match String.fromUTF8? bytes with
      | some text => .ok text
      | none => .error .notText
  createDirectories path := do
    match ← attempt (IO.FS.createDir path) with
    | .error .notADirectory => return .error .notADirectory
    | _ => attempt (IO.FS.createDirAll path)
  write path text := attempt (IO.FS.writeFile path text)

end QuantumMemory

def main (arguments : List String) : IO UInt32 := do
  let outcome ← QuantumMemory.Cli.run QuantumMemory.systemFiles arguments
  IO.print outcome.stdout
  IO.eprint outcome.stderr
  return outcome.exit.toUInt32

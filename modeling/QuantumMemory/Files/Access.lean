/-
  QuantumMemory.Files.Access — what a program asks of the files around it.
-/

namespace QuantumMemory

/-- Why something cannot be done with a file or a directory. -/
inductive FileFault
  | missing
  | taken
  | notADirectory
  | isADirectory
  | notText
  | other (message : String)
  deriving DecidableEq

def FileFault.message : FileFault → String
  | missing => "No such file or directory (os error 2)"
  | taken => "File exists (os error 17)"
  | notADirectory => "Not a directory (os error 20)"
  | isADirectory => "Is a directory (os error 21)"
  | notText => "stream did not contain valid UTF-8"
  | other message => message

/-- Files as effects of `m`: reading a text, making a directory with those it lies in,
    and writing a text in place of what was there. -/
structure FileAccess (m : Type → Type) where
  read : String → m (Except FileFault String)
  createDirectories : String → m (Except FileFault Unit)
  write : String → String → m (Except FileFault Unit)

end QuantumMemory

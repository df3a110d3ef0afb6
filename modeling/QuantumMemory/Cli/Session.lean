/-
  QuantumMemory.Cli.Session — what a command writes, and how it ends.

  A command says things on its output and notes things beside it. What was said before a
  failure stays said; the failure is noted last, with what it comes from.
-/

import QuantumMemory.Lab.Error

namespace QuantumMemory.Cli

/-- Why a command fails. -/
inductive CommandError
  | unknownFamily (name : String)
  | parameters (error : CodeError)
  | code (kind : CodeKind) (error : CodeError)
  | description (path : String) (error : LabError)
  | described (error : LabError)
  | memory (name : String) (error : CodeError)
  | oneRound (error : CodeError)
  | directory (path : String) (fault : FileFault)
  | file (path : String) (fault : FileFault)
  deriving DecidableEq

namespace CommandError

/-- What failed, and after it what that comes from, to the first cause. -/
def chain : CommandError → List String
  | unknownFamily name => [CodeKind.unknownMessage name]
  | parameters e => "Invalid code parameters" :: e.chain
  | code kind e => s!"Failed to build {kind.name} code" :: e.chain
  | description path e => s!"Failed to load experiment: {path}" :: e.chain
  | described e => e.chain
  | memory name e => s!"Failed to build {name} memory circuit" :: e.chain
  | oneRound e => e.chain
  | directory path fault => [s!"Failed to create directory: {path}", fault.message]
  | file path fault => [s!"Failed to write file: {path}", fault.message]

def message (e : CommandError) : String := ": ".intercalate e.chain

end CommandError

structure Transcript where
  stdout : String
  stderr : String
  deriving DecidableEq

/-- The end of a command: its exit code and what it wrote. -/
structure Outcome where
  exit : Nat
  stdout : String
  stderr : String
  deriving DecidableEq

/-- A command under way, among effects of `m`. -/
abbrev Session (m : Type → Type) (α : Type) := ExceptT CommandError (StateT Transcript m) α

namespace Session

variable {m : Type → Type} [Monad m]

def say (text : String) : Session m Unit :=
  modify fun t => { t with stdout := t.stdout ++ text }

def note (text : String) : Session m Unit :=
  modify fun t => { t with stderr := t.stderr ++ text }

def perform {α : Type} (effect : m α) : Session m α := ExceptT.lift (StateT.lift effect)

/-- Goes on with a result, or fails for its reason. -/
def expect {ε α : Type} (reason : ε → CommandError) (result : Except ε α) : Session m α :=
  match result with
  | .ok a => pure a
  | .error e => throw (reason e)

/-- Runs to the end. -/
def conclude (session : Session m Unit) : m Outcome := do
  let (result, t) ← (ExceptT.run session).run ⟨"", ""⟩
  match result with
  | .ok () => return ⟨0, t.stdout, t.stderr⟩
  | .error e => return ⟨1, t.stdout, t.stderr ++ s!"Error: {e.message}\n"⟩

end Session

end QuantumMemory.Cli

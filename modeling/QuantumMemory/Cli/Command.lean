/-
  QuantumMemory.Cli.Command — the commands, and the arguments that stand for them.

  A circuit is built from a family and its parameters or from a file that describes an
  experiment, not from both. Every value given has to be readable, even one that a
  description takes the place of. Each option may be given once; only the flag for more
  detail may be repeated, and stand before the command too.
-/

import QuantumMemory.Cli.Options
import QuantumMemory.Document.Read

namespace QuantumMemory.Cli

inductive OutputFormat
  | stim
  | json
  deriving DecidableEq

def OutputFormat.ofName? : String → Option OutputFormat
  | "stim" => some .stim
  | "json" => some .json
  | _ => none

/-- What to build a circuit from. -/
inductive Source
  | family (name : String) (distance rounds : Nat) (p1 p2 : Binary64)
  | description (path : String)
  deriving DecidableEq

inductive Command
  | build (source : Source) (format : OutputFormat) (output : Option String)
  | inspect (family : String) (distance : Nat) (json : Bool)
  | version
  | versionNumber
  deriving DecidableEq

/-! ## Values -/

/-- A count of 32 bits; a minus is allowed before zero. -/
def count? (value : String) : Option Nat :=
  match value.toList with
  | '-' :: digits => (natOfDigits? 10 digits).filter (· = 0)
  | cs => natOfText? Document.word32 cs

def real? (value : String) : Option Binary64 := Binary64.ofText? value.toList

/-! ## Options -/

namespace OptionSpec

def verbose : OptionSpec := ⟨"verbose", some 'v', false⟩
def versionNumber : OptionSpec := ⟨"version", some 'V', false⟩
def code : OptionSpec := ⟨"code", some 'c', true⟩
def distance : OptionSpec := ⟨"distance", some 'd', true⟩
def rounds : OptionSpec := ⟨"rounds", some 'r', true⟩
def p1 : OptionSpec := ⟨"p1", none, true⟩
def p2 : OptionSpec := ⟨"p2", none, true⟩
def config : OptionSpec := ⟨"config", none, true⟩
def format : OptionSpec := ⟨"format", some 'f', true⟩
def output : OptionSpec := ⟨"output", some 'o', true⟩
def json : OptionSpec := ⟨"json", none, false⟩

end OptionSpec

/-- The options of a command, each given once, but for the one that may be repeated. -/
def options? (specs : List OptionSpec) (arguments : List String) : Option Given :=
  (readOptions? (.verbose :: specs) arguments).filter (·.isOnceEach .verbose)

namespace Command

def build? (arguments : List String) : Option Command := do
  let given ← options? [.code, .distance, .rounds, .p1, .p2, .config, .format, .output] arguments
  let family ← given.get .code none (some ∘ some)
  let distance ← given.get .distance none fun value => (count? value).map some
  let rounds ← given.get .rounds 1 count?
  let p1 ← given.get .p1 .zero real?
  let p2 ← given.get .p2 .zero real?
  let path ← given.get .config none (some ∘ some)
  let format ← given.get .format .stim OutputFormat.ofName?
  let output ← given.get .output none (some ∘ some)
  match path, family, distance with
  | some path, none, none => return .build (.description path) format output
  | none, some family, some distance => return .build (.family family distance rounds p1 p2) format output
  | _, _, _ => none

def inspect? (arguments : List String) : Option Command := do
  let given ← options? [.code, .distance, .json] arguments
  let family ← given.get .code none (some ∘ some)
  let distance ← given.get .distance none fun value => (count? value).map some
  return .inspect (← family) (← distance) (given.has .json)

def version? (arguments : List String) : Option Command := do
  discard (options? [] arguments)
  return .version

/-- The command that the arguments stand for. -/
def ofArguments? : List String → Option Command
  | "build" :: rest => build? rest
  | "inspect" :: rest => inspect? rest
  | "version" :: rest => version? rest
  | argument :: rest => do
    let (given, _) ← readArgument? [.verbose, .versionNumber] argument
    if given.has .versionNumber then return .versionNumber else ofArguments? rest
  | [] => none

end Command

end QuantumMemory.Cli

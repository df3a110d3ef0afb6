/-
  QuantumMemory.Cli.Options — options among the arguments of a command.

  An option has a name, written after two dashes, and maybe a letter, written after one.
  A value is attached to its option (`--name=value`, `-nvalue`, `-n=value`) or is the
  argument after it, which may then not look like an option. Letters of flags may share
  a dash, and an option with a value may end such a group. Two dashes alone end the
  options; no argument is anything but an option, so nothing may follow them.
-/

namespace QuantumMemory.Cli

structure OptionSpec where
  name : String
  letter : Option Char
  takesValue : Bool
  deriving DecidableEq

/-- Options by name with their values, in the order given; the value of a flag is empty. -/
abbrev Given := List (String × String)

/-- What one argument gives, and the option whose value the next argument has to be. -/
abbrev Reading := Given × Option String

/-- The option of a whole name, and the value attached to it. -/
def readName? (specs : List OptionSpec) (name : String) (attached : Option String) : Option Reading := do
  let spec ← specs.find? (·.name == name)
  match spec.takesValue, attached with
  | true, some value => return ([(spec.name, value)], none)
  | true, none => return ([], some spec.name)
  | false, none => return ([(spec.name, "")], none)
  | false, some _ => none

/-- The options of a group of letters. -/
def readLetters? (specs : List OptionSpec) : List Char → Option Reading
  | [] => some ([], none)
  | c :: rest => do
    let spec ← specs.find? (·.letter == some c)
    if spec.takesValue then
      match rest with
      | [] => return ([], some spec.name)
      | '=' :: value => return ([(spec.name, String.ofList value)], none)
      | value => return ([(spec.name, String.ofList value)], none)
    else
      let (given, awaiting) ← readLetters? specs rest
      return ((spec.name, "") :: given, awaiting)

def readArgument? (specs : List OptionSpec) (argument : String) : Option Reading :=
  match argument.toList with
  | '-' :: '-' :: rest =>
    let name := String.ofList (rest.takeWhile (· ≠ '='))
    match rest.dropWhile (· ≠ '=') with
    | [] => readName? specs name none
    | _ :: value => readName? specs name (some (String.ofList value))
  | '-' :: c :: rest => readLetters? specs (c :: rest)
  | _ => none

/-- Whether an argument is no value of the option before it. A dash alone is one. -/
def looksLikeOption (argument : String) : Bool :=
  match argument.toList with
  | '-' :: _ :: _ => true
  | _ => false

/-- The options that the arguments give, if that is all they do. -/
def readOptions? (specs : List OptionSpec) : List String → Option Given
  | [] => some []
  | ["--"] => some []
  | argument :: rest => do
    match ← readArgument? specs argument with
    | (given, none) => return given ++ (← readOptions? specs rest)
    | (given, some name) => match rest with
      | [] => none
      | value :: rest =>
        if looksLikeOption value then none
        else return given ++ (name, value) :: (← readOptions? specs rest)

namespace Given

def has (given : Given) (spec : OptionSpec) : Bool := given.any (·.1 == spec.name)

/-- The value of an option, read; `missing` when the option is not given. -/
def get (given : Given) (spec : OptionSpec) {α : Type} (missing : α) (read : String → Option α) : Option α :=
  match given.find? (·.1 == spec.name) with
  | some (_, value) => read value
  | none => some missing

/-- Whether no option is given twice, apart from one that may be. -/
def isOnceEach (given : Given) (repeatable : OptionSpec) : Bool :=
  decide ((given.map (·.1)).filter (· ≠ repeatable.name)).Nodup

end Given

end QuantumMemory.Cli

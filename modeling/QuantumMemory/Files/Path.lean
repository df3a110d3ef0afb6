/-
  QuantumMemory.Files.Path — the parts of a path.

  Slashes divide a path. Where the end of a path is looked at, empty parts and points
  there name nothing, save at the very beginning, where they name the top and the place
  one stands in.
-/

namespace QuantumMemory.Path

def partsOf (path : String) : List String := (path.toList.splitOnP (· = '/')).map String.ofList

/-- Passes over what names nothing at the end of a path, whose parts are given last first. -/
def dropIdle : List String → List String
  | [] => []
  | [first] => [first]
  | part :: rest => if part = "" ∨ part = "." then dropIdle rest else part :: rest

/-- The directory that a path lies in, if the path says. -/
def parentOf? (path : String) : Option String :=
  match dropIdle (partsOf path).reverse with
  | [] | [_] => none
  | _ :: rest => match dropIdle rest with
    | [""] => some "/"
    | parts => some ("/".intercalate parts.reverse)

/-- What follows the last point of a path's last part, in small letters, if something
    precedes it. -/
def extensionOf? (path : String) : Option String :=
  match ((partsOf path).filter fun part => part ≠ "" && part ≠ ".").getLast? with
  | none => none
  | some part =>
    if part = ".." then none
    else
      let back := part.toList.reverse
      match back.dropWhile (· ≠ '.') with
      | _ :: _ :: _ => some (String.ofList ((back.takeWhile (· ≠ '.')).reverse.map Char.toLower))
      | _ => none

end QuantumMemory.Path

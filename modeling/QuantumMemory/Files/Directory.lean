/-
  QuantumMemory.Files.Directory — files held in memory.

  A directory is a list of what lies in it, by the names that lead there from its top.
  A path is walked part by part: a part that names something leads one deeper, `..` leads
  back, and every part but the last has to lead through a directory. Only what is written
  or made changes the list; a step that fails changes nothing.
-/

import QuantumMemory.Files.Access
import QuantumMemory.Files.Path

namespace QuantumMemory

inductive Entry
  | file (bytes : ByteArray)
  | directory

structure Directory where
  entries : List (List String × Entry)

namespace Directory

def empty : Directory := ⟨[]⟩

def entry? (d : Directory) (place : List String) : Option Entry :=
  if place = [] then some .directory else (d.entries.find? (·.1 == place)).map (·.2)

/-- The directory with this entry in place of what was there. -/
def put (d : Directory) (place : List String) (entry : Entry) : Directory :=
  ⟨(place, entry) :: d.entries.filter (·.1 != place)⟩

/-- Where one part of a path leads from a place. -/
def step (d : Directory) (place : List String) (part : String) : Except FileFault (List String) :=
  match d.entry? place with
  | none => .error .missing
  | some (.file _) => .error .notADirectory
  | some .directory =>
    if part = "" ∨ part = "." then .ok place
    else if part = ".." then .ok place.dropLast
    else .ok (place ++ [part])

/-- Where a path leads; nothing has to be there. -/
def locate (d : Directory) (path : String) : Except FileFault (List String) :=
  if path = "" then .error .missing else (Path.partsOf path).foldlM d.step []

def read (d : Directory) (path : String) : Except FileFault String := do
  match d.entry? (← d.locate path) with
  | none => throw .missing
  | some .directory => throw .isADirectory
  | some (.file bytes) => match String.fromUTF8? bytes with
    | some text => return text
    | none => throw .notText

/-- One step that makes a directory where nothing is. -/
def makeStep (state : Directory × List String) (part : String) :
    Except FileFault (Directory × List String) := do
  let (d, place) := state
  let place ← d.step place part
  match d.entry? place with
  | none => return (d.put place .directory, place)
  | some _ => return (d, place)

def createDirectories (d : Directory) (path : String) : Except FileFault Directory := do
  let (made, place) ← (Path.partsOf path).foldlM makeStep (d, [])
  match made.entry? place with
  | some (.file _) => throw .taken
  | _ => return made

/-- A path with nothing after its last slash names a directory. -/
def write (d : Directory) (path : String) (bytes : ByteArray) : Except FileFault Directory := do
  if path = "" then throw .missing
  match (Path.partsOf path).reverse.dropWhile (· = "") with
  | [] => throw .isADirectory
  | last :: before =>
    let place ← d.step (← before.reverse.foldlM d.step []) last
    if path.endsWith "/" ∨ last = "." ∨ last = ".." then throw .isADirectory
    match d.entry? place with
    | some .directory => throw .isADirectory
    | _ => return d.put place (.file bytes)

/-- An action that may fail, as an effect. -/
def act (f : Directory → Except FileFault Directory) : StateM Directory (Except FileFault Unit) :=
  fun d => match f d with
    | .ok d => (.ok (), d)
    | .error e => (.error e, d)

def access : FileAccess (StateM Directory) where
  read path := fun d => (d.read path, d)
  createDirectories path := act (·.createDirectories path)
  write path text := act (·.write path text.toUTF8)

end Directory

end QuantumMemory

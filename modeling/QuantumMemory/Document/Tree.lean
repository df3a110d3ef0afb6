/-
  QuantumMemory.Document.Tree — descriptions and reports as trees.

  One tree serves every text format. Numbers keep their literals and strings their
  readability, because a part of a document that nobody asks for is not held to the
  ranges of what is asked for: a key that is not known may carry a number beyond every
  range and a string whose escapes make no text. `text none` is such a string. `plain` is
  a scalar without quotes, whose meaning depends on what is asked for.

  A record is read with `record?`: its fields by name from an object, where an unknown
  name is passed over and a known one may occur once, or in their order from a list.
-/

import QuantumMemory.Number.Numeral

namespace QuantumMemory

inductive Document
  | null
  | bool (value : Bool)
  | number (literal : Numeral)
  | text (value : Option String)
  | plain (value : String)
  | list (items : List Document)
  | object (fields : List (Option String × Document))

namespace Document

instance : Inhabited Document := ⟨null⟩

/-! ## Building -/

def ofNat (n : Nat) : Document := .number (.ofNat n)

def ofInt (n : Int) : Document := .number (.ofInt n)

def ofString (s : String) : Document := .text (some s)

/-- A number that is not finite is written as null. -/
def ofBinary64 (x : Binary64) : Document :=
  match Numeral.ofBinary64 x with
  | some n => .number n
  | none => .null

def ofList {α : Type} (f : α → Document) (items : List α) : Document := .list (items.map f)

def record (fields : List (String × Document)) : Document :=
  .object (fields.map fun (name, value) => (some name, value))

/-- A field that is left out when there is nothing to say. -/
def optionalField {α : Type} (name : String) (f : α → Document) : Option α → List (String × Document)
  | some a => [(name, f a)]
  | none => []

/-! ## Fields of a record -/

abbrev Fields := List (String × Document)

/-- The known fields of an object; none when one repeats or some key is no text. -/
def known? (names : List String) : List (Option String × Document) → Option Fields
  | [] => some []
  | (none, _) :: _ => none
  | (some name, value) :: rest => do
    let fields ← known? names rest
    if name ∈ names then
      if fields.any (·.1 == name) then none else some ((name, value) :: fields)
    else some fields

/-- The fields of a record with these names. A list may leave out the last ones. -/
def record? (names : List String) : Document → Option Fields
  | .object fields => known? names fields
  | .list items => if items.length ≤ names.length then some (names.zip items) else none
  | _ => none

/-- The same, of a record whose list form leaves out none. -/
def wholeRecord? (names : List String) (d : Document) : Option Fields :=
  match d with
  | .list items => if items.length = names.length then d.record? names else none
  | d => d.record? names

namespace Fields

def get? (fields : Fields) (name : String) : Option Document := (fields.find? (·.1 == name)).map (·.2)

/-- A field that has to be there. -/
def required (fields : Fields) (name : String) {α : Type} (read : Document → Option α) : Option α :=
  (fields.get? name).bind read

/-- A field with a value of its own when it is missing. -/
def defaulted (fields : Fields) (name : String) {α : Type} (missing : α) (read : Document → Option α) :
    Option α :=
  match fields.get? name with
  | some d => read d
  | none => some missing

end Fields

/-- The content of a field that may be missing or null. -/
def Fields.optional (fields : Fields) (name : String) {α : Type} (read : Document → Option (Option α)) :
    Option (Option α) :=
  fields.defaulted name none read

/-- Every item in its order, or nothing when one has no reading. -/
def all? {α : Type} (read : Document → Option α) : Document → Option (List α)
  | .list items => items.mapM read
  | _ => none

end Document

end QuantumMemory

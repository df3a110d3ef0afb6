/-
  QuantumMemory.Document.Sorted — trees whose objects have their fields in order of name.

  Names go by their code points; fields of one name keep their order.
-/

import QuantumMemory.Document.Tree

namespace QuantumMemory.Document

def insertField (field : Option String × Document) :
    List (Option String × Document) → List (Option String × Document)
  | [] => [field]
  | other :: rest =>
    if other.1.getD "" < field.1.getD "" then other :: insertField field rest else field :: other :: rest

mutual

def sorted : Document → Document
  | .list items => .list (sortedItems items)
  | .object fields => .object (sortedFields fields)
  | .null => .null
  | .bool b => .bool b
  | .number n => .number n
  | .text s => .text s
  | .plain s => .plain s

def sortedItems : List Document → List Document
  | [] => []
  | d :: rest => sorted d :: sortedItems rest

def sortedFields : List (Option String × Document) → List (Option String × Document)
  | [] => []
  | (name, d) :: rest => insertField (name, sorted d) (sortedFields rest)

end

end QuantumMemory.Document

/-
  QuantumMemory.Document.Read — the values that fields hold.

  `natural?`, `number?`, `string?` and `word?` read one scalar; a plain scalar stands for
  what is asked of it. `orNull` reads a field in which null says that there is no value.
  `settled?` is for a part of a document that is taken apart before its shape is known:
  plain scalars are resolved on their own, and what a typed field would have passed over,
  a number beyond every range, a string without a text or too deep a nesting, is refused.
-/

import QuantumMemory.Document.Tree
import QuantumMemory.Document.Plain

namespace QuantumMemory.Document

/-- The largest 32-bit and 64-bit counts. -/
def word32 : Nat := 0xFFFFFFFF
def word64 : Nat := 0xFFFFFFFFFFFFFFFF

def natural? (bound : Nat) : Document → Option Nat
  | .number n => n.natural? bound
  | .plain s => Plain.natural? bound s
  | _ => none

/-- A whole number between two bounds. -/
def integer? (low high : Int) : Document → Option Int
  | .number n => n.integer?.filter fun k => low ≤ k && k ≤ high
  | .plain s => (Plain.integer? s).filter fun k => low ≤ k && k ≤ high
  | _ => none

def number? : Document → Option Binary64
  | .number n => n.number?
  | .plain s => Plain.number? s
  | _ => none

def string? : Document → Option String
  | .text s => s
  | .plain s => some s
  | _ => none

def bool? : Document → Option Bool
  | .bool b => some b
  | .plain s => Plain.bool? s
  | _ => none

def isNull : Document → Bool
  | .null => true
  | .plain s => Plain.isNull s
  | _ => false

def orNull {α : Type} (read : Document → Option α) (d : Document) : Option (Option α) :=
  if d.isNull then some none else (read d).map some

/-- A word with its content: the word alone has none, an object of one member names both. -/
def tag? : Document → Option (String × Document)
  | .text (some s) => some (s, .null)
  | .plain s => some (s, .null)
  | .object [(some s, content)] => some (s, content)
  | _ => none

/-- One of a set of words, without content. -/
def word? {α : Type} (ofWord : String → Option α) (d : Document) : Option α :=
  match d.tag? with
  | some (s, .null) => ofWord s
  | _ => none

mutual

/-- The tree with its plain scalars resolved, at most `depth` levels deep. -/
def settled? (depth : Nat) : Document → Option Document
  | .null => some .null
  | .bool b => some (.bool b)
  | .number n => n.number?.map fun _ => .number n
  | .text s => s.map fun s => .text (some s)
  | .plain s => match Plain.resolve s with
    | .null => some .null
    | .bool b => some (.bool b)
    | .integer k => (Numeral.ofInt k).integer?.map fun _ => .number (.ofInt k)
    | .real _ => some (.plain s)
    | .text s => some (.text (some s))
  | .list items => match depth with
    | 0 => none
    | depth + 1 => (settledItems? depth items).map .list
  | .object fields => match depth with
    | 0 => none
    | depth + 1 => (settledFields? depth fields).map .object

def settledItems? (depth : Nat) : List Document → Option (List Document)
  | [] => some []
  | d :: rest => do return (← settled? depth d) :: (← settledItems? depth rest)

def settledFields? (depth : Nat) :
    List (Option String × Document) → Option (List (Option String × Document))
  | [] => some []
  | (none, _) :: _ => none
  | (some name, d) :: rest => do
    return (some name, ← settled? depth d) :: (← settledFields? depth rest)

end

end QuantumMemory.Document

/-
  QuantumMemory.Document.Plain — what a scalar without quotes stands for.

  Asked for a whole number or a real one, a scalar is read as that. Where nothing is asked
  yet, `resolve` decides: the null words, the booleans, whole numbers in base ten, or in
  base sixteen, eight or two behind `0x`, `0o` or `0b`, real numbers, and otherwise text. Digits
  behind a leading zero are text, though a real number when one is asked for.
-/

import QuantumMemory.Number.Written

namespace QuantumMemory.Plain

inductive Scalar
  | null
  | bool (value : Bool)
  | integer (value : Int)
  | real (value : Binary64)
  | text (value : String)

def isNull (s : String) : Bool := s = "" || s = "~" || s = "null" || s = "Null" || s = "NULL"

def bool? (s : String) : Option Bool :=
  if s = "true" ∨ s = "True" ∨ s = "TRUE" then some true
  else if s = "false" ∨ s = "False" ∨ s = "FALSE" then some false
  else none

/-- Without the sign, more than one digit and the first a zero. -/
def hasLeadingZero (cs : List Char) : Bool :=
  let ds := if cs.head? = some '-' ∨ cs.head? = some '+' then cs.tail else cs
  match ds with
  | '0' :: c :: rest => (c :: rest).all Char.isDigit
  | _ => false

/-- A number without its sign, in any of the four bases. -/
def unsigned? (cs : List Char) : Option Nat :=
  match cs with
  | '0' :: 'x' :: ds => natOfDigits? 16 ds
  | '0' :: 'o' :: ds => natOfDigits? 8 ds
  | '0' :: 'b' :: ds => natOfDigits? 2 ds
  | ds => if hasLeadingZero ds then none else natOfDigits? 10 ds

/-- A whole number; its sign, if any, is in front of the base. -/
def integer? (s : String) : Option Int :=
  match s.toList with
  | '-' :: cs => (unsigned? cs).map fun n => -(n : Int)
  | '+' :: cs => (unsigned? cs).map Int.ofNat
  | cs => (unsigned? cs).map Int.ofNat

def natural? (bound : Nat) (s : String) : Option Nat :=
  match integer? s with
  | some (.ofNat n) => if n ≤ bound ∧ s.toList.head? ≠ some '-' then some n else none
  | _ => none

/-- A real number; the words for what is not finite begin with a point, and digits that
    name nothing finite are no number. -/
def number? (s : String) : Option Binary64 :=
  let body := if s.toList.head? = some '+' then s.toList.tail else s.toList
  if [".inf", ".Inf", ".INF"].contains (String.ofList body) then some (.infinite false)
  else if ["-.inf", "-.Inf", "-.INF"].contains s then some (.infinite true)
  else if [".nan", ".NaN", ".NAN"].contains s then some .nan
  else if body.length < s.length ∧ (body.head? = some '+' ∨ body.head? = some '-') then none
  else (Binary64.ofText? body).filter Binary64.isFinite

def realOrText (s : String) : Scalar :=
  if hasLeadingZero s.toList then .text s
  else match number? s with
    | some x => .real x
    | none => .text s

/-- The whole numbers of 128 bits, with a sign or without. -/
def fits128 (n : Int) : Bool := -(1 <<< 127 : Nat) ≤ n && n < (1 <<< 128 : Nat)

/-- A whole number of more than 128 bits is a real one. -/
def resolve (s : String) : Scalar :=
  if isNull s then .null
  else match bool? s with
    | some b => .bool b
    | none => match integer? s with
      | some n => if fits128 n then .integer n else realOrText s
      | none => realOrText s

end QuantumMemory.Plain

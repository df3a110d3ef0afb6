/-
  QuantumMemory.Number.Written — numbers written on a command line or in a plain scalar.

  A whole number is a run of decimal digits, an optional plus before it. A real number
  has an optional sign, digits with at most one point among or around them, at least one
  digit, and an optional exponent; or it is `inf`, `infinity` or `nan` in any letter case.
  It names the nearest double-precision number, rounded once; one too large is infinite.
-/

import QuantumMemory.Number.Binary64

namespace QuantumMemory

/-- The leading decimal digits and what follows them. -/
def spanDigits (cs : List Char) : List Char × List Char := cs.span Char.isDigit

/-- The value of a non-empty run of digits of a base up to sixteen. -/
def natOfDigits? (base : Nat) (cs : List Char) : Option Nat :=
  if cs.isEmpty then none
  else cs.foldl (fun n c => do return (← n) * base + (← digit? c)) (some 0)
where
  digit? (c : Char) : Option Nat :=
    let v :=
      if c.isDigit then c.toNat - '0'.toNat
      else if 'a' ≤ c ∧ c ≤ 'f' then c.toNat - 'a'.toNat + 10
      else if 'A' ≤ c ∧ c ≤ 'F' then c.toNat - 'A'.toNat + 10
      else base
    if v < base then some v else none

/-- A whole number of at most `bound`. -/
def natOfText? (bound : Nat) (cs : List Char) : Option Nat := do
  let n ← natOfDigits? 10 (if cs.head? = some '+' then cs.tail else cs)
  if n ≤ bound then some n else none

namespace Binary64

/-- A sign, plus if there is none. -/
def splitSign : List Char → Bool × List Char
  | '-' :: cs => (true, cs)
  | '+' :: cs => (false, cs)
  | cs => (false, cs)

/-- The exponent after the digits, zero at the end of the text. -/
def exponentOfText? : List Char → Option Int
  | [] => some 0
  | c :: cs =>
    if c = 'e' ∨ c = 'E' then
      let (negative, cs) := splitSign cs
      (natOfDigits? 10 cs).map fun n => if negative then -(n : Int) else n
    else none

def decimalOfText? (negative : Bool) (cs : List Char) : Option Binary64 :=
  let (whole, rest) := spanDigits cs
  let (places, rest) := match rest with
    | '.' :: rest => spanDigits rest
    | rest => ([], rest)
  match whole ++ places with
  | [] => none
  | ds => do
    let exponent ← exponentOfText? rest
    return ofDecimal negative (Nat.ofDigitChars 10 ds 0) (exponent - places.length)

def ofText? (cs : List Char) : Option Binary64 :=
  let (negative, rest) := splitSign cs
  let word := String.ofList (rest.map Char.toLower)
  if word = "inf" ∨ word = "infinity" then some (.infinite negative)
  else if word = "nan" then some .nan
  else decimalOfText? negative rest

end Binary64

end QuantumMemory

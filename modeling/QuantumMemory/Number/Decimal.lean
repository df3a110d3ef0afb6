/-
  QuantumMemory.Number.Decimal — the decimal digits of a double-precision number.

  `Magnitude.shortest` is the decimal with the fewest digits that reads back as the
  number, the nearest of those with equally many; a number half way between two
  candidates goes as `tie` says. It tries one digit, then two, up to seventeen, each
  time the two neighbours of the value on that grid, and keeps the first that rounds to
  the number. So what it returns always reads back.

  Two layouts are drawn from it. `Binary64.plain` is positional throughout, with no
  exponent and no trailing point, and is the one in messages and instruction text.
  `Binary64.fixed` has a given number of places, the exact value rounded to even.
-/

import QuantumMemory.Number.Binary64

namespace QuantumMemory

/-- `coefficient * 10 ^ exponent`. -/
structure Decimal where
  coefficient : Nat
  exponent : Int
  deriving DecidableEq

namespace Decimal

def magnitude? (d : Decimal) : Option Magnitude :=
  Magnitude.nearest? (d.coefficient * powerOfTen d.exponent.toNat) (powerOfTen (-d.exponent).toNat)

def digits (d : Decimal) : List Char := Nat.toDigits 10 d.coefficient

/-- Positional digits, a point only before decimal places. -/
def positional (d : Decimal) : List Char :=
  let ds := d.digits
  if 0 ≤ d.exponent then ds ++ List.replicate d.exponent.toNat '0'
  else
    let places := (-d.exponent).toNat
    if places < ds.length then
      ds.take (ds.length - places) ++ '.' :: ds.drop (ds.length - places)
    else '0' :: '.' :: (List.replicate (places - ds.length) '0' ++ ds)

end Decimal

namespace Magnitude

/-- The power of ten of the leading digit, for a positive number. The binary logarithm
    of the value, scaled by 10^400 to a natural number, gives it up to one. -/
def leadingExponent (m : Magnitude) : Int :=
  let scaled := m.units * powerOfTen 400 / unitsPerOne
  let guess := scaled.log2 * 30102 / 100000
  ((if powerOfTen (guess + 1) ≤ scaled then guess + 1 else guess : Nat) : Int) - 400

/-- The exact decimal expansion. -/
def exactDecimal (m : Magnitude) : Decimal := ⟨m.units * Nat.pow 5 1074, -1074⟩

/-- Of the two decimals around `m` with `n` digits, the nearer that reads back as `m`. -/
def neighbour? (tie : Tie) (m : Magnitude) (n : Nat) : Option Decimal :=
  let exponent := m.leadingExponent + 1 - n
  let num := m.units * powerOfTen (-exponent).toNat
  let den := unitsPerOne * powerOfTen exponent.toNat
  let nearer := roundDiv tie num den
  let other := if nearer = num / den then nearer + 1 else num / den
  [nearer, other].findSome? fun c =>
    let d : Decimal := if c % 10 = 0 then ⟨c / 10, exponent + 1⟩ else ⟨c, exponent⟩
    if d.magnitude? = some m then some d else none

/-- The fewest digits that read back. -/
def shortest (tie : Tie) (m : Magnitude) : Decimal :=
  if m.rank = 0 then ⟨0, 0⟩
  else ((List.range' 1 17).findSome? (m.neighbour? tie)).getD m.exactDecimal

end Magnitude

namespace Binary64

/-- A minus sign before the digits of a negative number. -/
def signed (negative : Bool) (digits : List Char) : String :=
  String.ofList (if negative then '-' :: digits else digits)

/-- Positional text with the fewest digits that read back. -/
def plain : Binary64 → String
  | .nan => "NaN"
  | .infinite negative => if negative then "-inf" else "inf"
  | .finite negative m => signed negative (m.shortest .up).positional

instance : ToString Binary64 := ⟨plain⟩

/-- Positional text with `places` decimal places. -/
def fixed (places : Nat) : Binary64 → String
  | .nan => "NaN"
  | .infinite negative => if negative then "-inf" else "inf"
  | .finite negative m =>
    let ds := Nat.toDigits 10 (roundDiv .even (m.units * powerOfTen places) Magnitude.unitsPerOne)
    let ds := List.replicate (places + 1 - ds.length) '0' ++ ds
    signed negative (ds.take (ds.length - places) ++ '.' :: ds.drop (ds.length - places))

end Binary64

end QuantumMemory

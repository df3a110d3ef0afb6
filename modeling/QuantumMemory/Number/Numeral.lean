/-
  QuantumMemory.Number.Numeral — number literals of a document, and the numbers they name.

  A numeral keeps the digits as they are written. `natural?` reads it as a whole number,
  which only a literal without fraction and exponent is; `number?` reads it as a
  double-precision number. The reading of a literal that is not a 64-bit integer rounds
  more than once: as many leading digits as fit 64 bits make an integer, which is rounded,
  and the result is scaled by powers of ten, rounding again. A literal whose value passes
  the largest finite number has no reading.

  `Numeral.ofBinary64` is the spelling of a finite number: the fewest digits that name it,
  positional from 1e-5 up to 1e16 with at least one decimal place, scientific beyond.
-/

import QuantumMemory.Number.Decimal

namespace QuantumMemory

/-- `whole.fraction e exponent`, digit by digit. No fraction is the empty list. -/
structure Numeral where
  negative : Bool
  whole : List Char
  fraction : List Char
  exponent : Option Int
  deriving DecidableEq

namespace Numeral

/-- The largest integer that a literal is read as without rounding, and the size of the least. -/
def naturalBound : Nat := 0xFFFFFFFFFFFFFFFF
def negativeBound : Nat := 0x8000000000000000

def isInteger (n : Numeral) : Bool := n.fraction.isEmpty && n.exponent.isNone

def magnitude (n : Numeral) : Nat := Nat.ofDigitChars 10 n.whole 0

/-- A whole number that fits 64 bits. `-0` is not one: it names the negative zero. -/
def integer? (n : Numeral) : Option Int :=
  if !n.isInteger then none
  else if n.negative then
    if 0 < n.magnitude ∧ n.magnitude ≤ negativeBound then some (-n.magnitude) else none
  else if n.magnitude ≤ naturalBound then some n.magnitude else none

/-- A whole number that is not negative and at most `bound`. -/
def natural? (bound : Nat) (n : Numeral) : Option Nat :=
  match n.integer? with
  | some (.ofNat k) => if k ≤ bound then some k else none
  | _ => none

/-! ## The scaled reading -/

/-- The digits read so far: an integer within 64 bits, and how many digits of the whole
    part no longer fit. -/
structure Leading where
  significand : Nat
  dropped : Nat

def Leading.whole (l : Leading) (c : Char) : Leading :=
  let next := l.significand * 10 + (c.toNat - '0'.toNat)
  if l.dropped = 0 ∧ next ≤ naturalBound then { l with significand := next }
  else { l with dropped := l.dropped + 1 }

/-- Reads decimal places until one no longer fits; gives the places read. -/
def Leading.places : Nat → List Char → Nat × Nat
  | significand, [] => (significand, 0)
  | significand, c :: cs =>
    let next := significand * 10 + (c.toNat - '0'.toNat)
    if next ≤ naturalBound then
      let (s, k) := places next cs
      (s, k + 1)
    else (significand, 0)

/-- Division by the power `e` of ten, which is itself rounded first. -/
def divide (m : Magnitude) (e : Nat) : Magnitude :=
  ((Magnitude.nearest? (powerOfTen e) 1).bind fun power => Magnitude.nearest? m.units power.units).getD .zero

/-- The same, at most 308 powers at a time. -/
def scaleDown : Nat → Magnitude → Nat → Magnitude
  | 0, _, _ => .zero
  | fuel + 1, m, e => if e ≤ 308 then divide m e else scaleDown fuel (divide m 308) (e - 308)

def scaleUp? (m : Magnitude) (e : Nat) : Option Magnitude :=
  if m.rank = 0 then some m
  else if 308 < e then none
  else do
    let power ← Magnitude.nearest? (powerOfTen e) 1
    Magnitude.nearest? (m.units * power.units) (Magnitude.unitsPerOne * Magnitude.unitsPerOne)

/-- Three divisions by 1e308 take any 64-bit integer to zero. -/
def scaled? (significand : Nat) (exponent : Int) : Option Magnitude := do
  let m ← Magnitude.nearest? significand 1
  if 0 ≤ exponent then scaleUp? m exponent.toNat
  else some (scaleDown 3 m (-exponent).toNat)

/-- The number that the literal names. -/
def number? (n : Numeral) : Option Binary64 :=
  match n.integer? with
  | some k => some (Binary64.ofIntRatio k 1)
  | none => do
    let l := n.whole.foldl Leading.whole ⟨0, 0⟩
    let (significand, places) := Leading.places l.significand n.fraction
    let m ← scaled? significand (n.exponent.getD 0 + l.dropped - places)
    return .finite n.negative m

/-! ## Spelling -/

def ofNat (k : Nat) : Numeral := ⟨false, Nat.toDigits 10 k, [], none⟩

def ofInt (k : Int) : Numeral := ⟨decide (k < 0), Nat.toDigits 10 k.natAbs, [], none⟩

/-- The layout of `± d * 10^x`, by the power of ten of the leading digit. -/
def ofDecimal (negative : Bool) (d : Decimal) : Numeral :=
  let ds := d.digits
  let lead := d.exponent + ds.length - 1
  if lead < -5 ∨ 15 < lead then ⟨negative, ds.take 1, ds.drop 1, some lead⟩
  else if 0 ≤ d.exponent then
    ⟨negative, ds ++ List.replicate d.exponent.toNat '0', ['0'], none⟩
  else if 0 ≤ lead then
    ⟨negative, ds.take (lead.toNat + 1), ds.drop (lead.toNat + 1), none⟩
  else ⟨negative, ['0'], List.replicate (-lead - 1).toNat '0' ++ ds, none⟩

/-- None for a number that is not finite. -/
def ofBinary64 : Binary64 → Option Numeral
  | .finite negative m => some (ofDecimal negative (m.shortest .even))
  | _ => none

def toText (n : Numeral) : List Char :=
  (if n.negative then ['-'] else []) ++ n.whole
    ++ (if n.fraction.isEmpty then [] else '.' :: n.fraction)
    ++ (match n.exponent with
      | none => []
      | some e => 'e' :: (toString e).toList)

end Numeral

end QuantumMemory

/-
  QuantumMemory.Number.Binary64 — rates and coordinates as double-precision numbers, held
  exactly.

  A non-negative finite number is its rank, the number of such numbers below it, so the
  order of magnitudes is the order of ranks and every rank names one number. `units`
  gives the value as a multiple of the least positive number, 2^-1074, and `nearest?`
  is rounding to nearest with ties to even: the rank it returns is
  `shift * binade + q` where `q` is the quotient rounded at the binade of the value, and a
  carry out of the binade is the first rank of the next one.

  Everything is arithmetic on naturals, so a number can be computed with in a proof.
-/

namespace QuantumMemory

/-- Which way a quotient half way between two integers goes. -/
inductive Tie
  | even
  | up
  deriving DecidableEq

/-- The integer nearest to `num / den`. -/
def roundDiv (tie : Tie) (num den : Nat) : Nat :=
  let q := num / den
  let r := num % den
  if 2 * r < den then q
  else if den < 2 * r then q + 1
  else match tie with
    | .even => q + q % 2
    | .up => q + 1

def powerOfTen (e : Nat) : Nat := Nat.pow 10 e

/-! ## Magnitudes -/

/-- From one power of two to the next there are 2^52 numbers. -/
def binade : Nat := 0x10000000000000

/-- A non-negative finite number, by its place in ascending order. -/
structure Magnitude where
  rank : Nat
  rank_lt : rank < 2047 * binade
  deriving DecidableEq

namespace Magnitude

def zero : Magnitude := ⟨0, by decide⟩
def one : Magnitude := ⟨1023 * binade, by decide⟩

/-- One is this many units. -/
def unitsPerOne : Nat := 1 <<< 1074

/-- The exponent of two that the number's binade adds to the unit. -/
def shift (m : Magnitude) : Nat := m.rank / binade - 1

/-- The value, in multiples of 2^-1074. -/
def units (m : Magnitude) : Nat := (m.rank - m.shift * binade) <<< m.shift

/-- The magnitude nearest to `num / den`; none when it rounds beyond the largest. -/
def nearest? (num den : Nat) : Option Magnitude :=
  let scaled := num * unitsPerOne
  let shift := (scaled / den).log2 - 52
  let rank := shift * binade + roundDiv .even scaled (den <<< shift)
  if h : rank < 2047 * binade then some ⟨rank, h⟩ else none

end Magnitude

/-! ## Numbers -/

inductive Binary64
  | nan
  | infinite (negative : Bool)
  | finite (negative : Bool) (magnitude : Magnitude)
  deriving DecidableEq

namespace Binary64

def zero : Binary64 := .finite false .zero
def one : Binary64 := .finite false .one

instance : Inhabited Binary64 := ⟨zero⟩

/-- The number nearest to `± num / den`. -/
def ofRatio (negative : Bool) (num den : Nat) : Binary64 :=
  (Magnitude.nearest? num den).elim (.infinite negative) (.finite negative)

def ofNat (n : Nat) : Binary64 := ofRatio false n 1

/-- The number nearest to `n / den`; zero is positive. -/
def ofIntRatio (n : Int) (den : Nat) : Binary64 := ofRatio (decide (n < 0)) n.natAbs den

/-- Division; zero by zero and infinite by infinite are no number. -/
def div : Binary64 → Binary64 → Binary64
  | .nan, _ | _, .nan | .infinite _, .infinite _ => .nan
  | .infinite a, .finite b _ => .infinite (a ^^ b)
  | .finite a _, .infinite b => .finite (a ^^ b) .zero
  | .finite a m, .finite b n =>
    if n.rank = 0 then (if m.rank = 0 then .nan else .infinite (a ^^ b)) else ofRatio (a ^^ b) m.units n.units

/-- The quotient of two counts, each of which is rounded first. -/
def quotient (a b : Nat) : Binary64 := (ofNat a).div (ofNat b)

def isFinite : Binary64 → Bool
  | .finite .. => true
  | _ => false

/-- Above zero; infinity is, a number that is no number is not. -/
def isPositive : Binary64 → Bool
  | .finite negative m => !negative && decide (0 < m.rank)
  | .infinite negative => !negative
  | .nan => false

/-- Between zero and one, both included; the negative zero counts as zero. -/
def isProbability : Binary64 → Bool
  | .finite negative m => if negative then m.rank == 0 else decide (m.rank ≤ Magnitude.one.rank)
  | _ => false

/-- `± c * 10^e`, rounded once. A coefficient is at least one and below
    two to the power `log2 c + 1`, so beyond the two bounds the result is known without the power. -/
def ofDecimal (negative : Bool) (coefficient : Nat) (exponent : Int) : Binary64 :=
  if coefficient = 0 then .finite negative .zero
  else if 400 < exponent then .infinite negative
  else if exponent + coefficient.log2 + 400 < 0 then .finite negative .zero
  else ofRatio negative (coefficient * powerOfTen exponent.toNat) (powerOfTen (-exponent).toNat)

end Binary64

end QuantumMemory

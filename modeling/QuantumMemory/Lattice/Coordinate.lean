/-
  QuantumMemory.Lattice.Coordinate — the half-integer points that qubits stand on.

  A coordinate is held doubled, as two integers in the range of 32 bits. `nearest` takes
  any two numbers to the nearest point; `exact` takes two that lie on the grid, within a
  million of the origin, and otherwise says which component does not.
-/

import QuantumMemory.Number.Decimal

namespace QuantumMemory

/-- The point `(x2 / 2, y2 / 2)`. -/
structure Coordinate where
  x2 : Int
  y2 : Int
  deriving DecidableEq

namespace Coordinate

/-- The range of a doubled component. -/
def minHalf : Int := -0x80000000
def maxHalf : Int := 0x7FFFFFFF

/-- The largest component of an exact coordinate. -/
def limit : Nat := 1000000

def inRange (k : Int) : Bool := minHalf ≤ k && k ≤ maxHalf

def x (c : Coordinate) : Binary64 := .ofIntRatio c.x2 2
def y (c : Coordinate) : Binary64 := .ofIntRatio c.y2 2

def text (c : Coordinate) : String := s!"({c.x}, {c.y})"

/-- Twice the number, to the nearest integer and from half way away from zero, within the
    range. What is no number counts as zero. -/
def nearestHalf : Binary64 → Int
  | .nan => 0
  | .infinite negative => if negative then minHalf else maxHalf
  | .finite negative m =>
    let k := roundDiv .up (2 * m.units) Magnitude.unitsPerOne
    if negative then max minHalf (-(k : Int)) else min maxHalf k

def nearest (x y : Binary64) : Coordinate := ⟨nearestHalf x, nearestHalf y⟩

/-- Twice the number, when that is an integer and the number at most `limit` in size. -/
def exactHalf? : Binary64 → Option Int
  | .finite negative m =>
    if m.units ≤ limit * Magnitude.unitsPerOne ∧ 2 * m.units % Magnitude.unitsPerOne = 0 then
      let k : Int := (2 * m.units / Magnitude.unitsPerOne : Nat)
      some (if negative then -k else k)
    else none
  | _ => none

/-- The error is the component that is not on the grid. -/
def exact (x y : Binary64) : Except Binary64 Coordinate :=
  match exactHalf? x with
  | none => .error x
  | some x2 => match exactHalf? y with
    | none => .error y
    | some y2 => .ok ⟨x2, y2⟩

/-- The point `dx2` and `dy2` halves away, within the range. -/
def shift? (c : Coordinate) (dx2 dy2 : Int) : Option Coordinate :=
  if inRange (c.x2 + dx2) && inRange (c.y2 + dy2) then some ⟨c.x2 + dx2, c.y2 + dy2⟩ else none

end Coordinate

end QuantumMemory

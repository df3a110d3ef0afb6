/-
  QuantumMemory.Code.PackedMatrix — a matrix of bits as it is stored, and reduced in place.

  A row is a fixed number of 64-bit words, entry `c` the bit `c % 64` of word `c / 64`. Rows are
  added and tested for zero word by word, so they see the bits of the last word beyond the
  columns as well. An index beyond the words is refused.

  Elimination changes one list of rows: the pivot changes places with the first row left and is
  added to every other row that has a one in its column. It asks of rows only what `BitRow`
  lists, and runs on rows of any kind.
-/

import QuantumMemory.Code.BitMatrix

namespace QuantumMemory

/-- What a matrix does with its rows. -/
class BitRow (ρ : Type) where
  /-- The number of bits that are stored. -/
  capacity : Nat
  zero : ρ
  bit : ρ → Nat → Bool
  /-- The bit changed to the other value. -/
  flip : ρ → Nat → ρ
  add : ρ → ρ → ρ
  isZero : ρ → Bool

namespace BitRow

variable {ρ : Type} [BitRow ρ]

def vector? (support : List Nat) : Option ρ :=
  support.foldlM (fun v c => if c < capacity ρ then some (flip v c) else none) zero

/-- Every index can be stored. -/
def fits (ρ : Type) [BitRow ρ] (support : List Nat) : Bool := support.all fun c => c < capacity ρ

def support (cols : Nat) (row : ρ) : List Nat := (List.range cols).filter (bit row)

/-- The entry in column `c` of the row at `i`. -/
def bitAt (rows : List ρ) (i c : Nat) : Bool := (rows[i]?).any (bit · c)

/-! ## Elimination -/

def swapRows (rows : List ρ) (i j : Nat) : List ρ :=
  match rows[i]?, rows[j]? with
  | some a, some b => (rows.set i b).set j a
  | _, _ => rows

def addRow (rows : List ρ) (target source : Nat) : List ρ :=
  match rows[source]? with
  | some row => rows.modify target (add · row)
  | none => rows

/-- Adds the row at `r` to every other with a one in column `c`. -/
def clearColumn (c r : Nat) (rows : List ρ) : List ρ :=
  (List.range rows.length).foldl (fun rows i => if i ≠ r && bitAt rows i c then addRow rows i r else rows) rows

/-- An elimination as far as it has come: as many rows as there are pivots are in place. -/
structure Elimination (ρ : Type) where
  rows : List ρ
  pivots : List Nat

namespace Elimination

/-- The first row left with a one in column `c`. -/
def pivotRow? (e : Elimination ρ) (c : Nat) : Option Nat :=
  (List.range' e.pivots.length (e.rows.length - e.pivots.length)).find? (bitAt e.rows · c)

/-- Puts the row at `i` in place, with its first one in column `c`. -/
def place (e : Elimination ρ) (c i : Nat) : Elimination ρ :=
  ⟨clearColumn c e.pivots.length (swapRows e.rows e.pivots.length i), e.pivots ++ [c]⟩

/-- Takes the columns in turn, as long as rows are left. -/
def run : List Nat → Elimination ρ → Elimination ρ
  | [], e => e
  | c :: columns, e =>
    if e.pivots.length = e.rows.length then e
    else match e.pivotRow? c with
      | none => run columns e
      | some i => run columns (e.place c i)

/-- The rows in place. -/
def reduced (e : Elimination ρ) : List ρ := e.rows.take e.pivots.length

/-- What is left of a vector when its ones in pivot columns are cleared in turn. -/
def residue (e : Elimination ρ) (v : ρ) : ρ :=
  e.pivots.zipIdx.foldl (fun v (p, i) => if bit v p then (e.reduced[i]?).elim v (add v) else v) v

/-- The kernel vector that belongs to a free column. -/
def kernelVector (e : Elimination ρ) (free : Nat) : ρ :=
  e.pivots.zipIdx.foldl (fun v (p, i) => if bitAt e.reduced i free then flip v p else v) (flip zero free)

def kernel (cols : Nat) (e : Elimination ρ) : List ρ :=
  ((List.range cols).filter fun c => !e.pivots.contains c).map e.kernelVector

end Elimination

end BitRow

/-- A matrix by its rows, of the kind that there is for the number of its columns. -/
structure RowMatrix (ρ : Nat → Type) where
  cols : Nat
  rows : List (ρ cols)

namespace RowMatrix

open BitRow

variable {ρ : Nat → Type} [∀ cols, BitRow (ρ cols)]

def zeros (rows cols : Nat) : RowMatrix ρ := ⟨cols, List.replicate rows zero⟩

def ofSupports? (cols : Nat) (supports : List (List Nat)) : Option (RowMatrix ρ) := do
  return ⟨cols, ← supports.mapM vector?⟩

def get? (m : RowMatrix ρ) (r c : Nat) : Option Bool :=
  if c < capacity (ρ m.cols) then (m.rows[r]?).map (bit · c) else none

/-- The entry changed to the other value, where there is one. -/
def flip (m : RowMatrix ρ) (r c : Nat) : RowMatrix ρ := ⟨m.cols, m.rows.modify r (BitRow.flip · c)⟩

def flip? (m : RowMatrix ρ) (r c : Nat) : Option (RowMatrix ρ) :=
  if c < capacity (ρ m.cols) ∧ r < m.rows.length then some (m.flip r c) else none

def supports (m : RowMatrix ρ) : List (List Nat) := m.rows.map (support m.cols)

def elimination (m : RowMatrix ρ) : Elimination (ρ m.cols) := .run (List.range m.cols) ⟨m.rows, []⟩

def rref (m : RowMatrix ρ) : RowMatrix ρ × List Nat := (⟨m.cols, m.elimination.reduced⟩, m.elimination.pivots)

def rank (m : RowMatrix ρ) : Nat := m.rref.2.length

def kernel (m : RowMatrix ρ) : RowMatrix ρ := ⟨m.cols, m.elimination.kernel m.cols⟩

def contains? (m : RowMatrix ρ) (support : List Nat) : Option Bool :=
  (vector? support).map fun v => isZero (m.elimination.residue v)

def mul? (m : RowMatrix ρ) (support : List Nat) : Option (List Bool) :=
  m.rows.mapM fun row =>
    if fits (ρ m.cols) support then some ((support.filter (bit row)).length % 2 == 1) else none

/-- As `BitMatrix.minWeightLogical?`. -/
def minWeightLogical? (x z : RowMatrix ρ) : Option (Option (List Nat)) := do
  let e := z.elimination
  let candidates ← x.kernel.supports.mapM fun s => (vector? s).map fun v => (s, e.residue v)
  return BitMatrix.shortest? ((candidates.filter fun (_, v) => !isZero v).map (·.1))

end RowMatrix

/-! ## Words -/

/-- The number of words that hold a bit for each column. -/
def wordsFor (cols : Nat) : Nat := (cols + 63) / 64

/-- Bit `k` of a word, for `k` below 64. -/
def wordBit (w : UInt64) (k : Nat) : Bool := (w >>> UInt64.ofNat k) &&& 1 == 1

instance (n : Nat) : BitRow (Vector UInt64 n) where
  capacity := n * 64
  zero := .replicate n 0
  bit v c := (v[c / 64]?).any (wordBit · (c % 64))
  flip v c := if h : c / 64 < n then v.set (c / 64) (v[c / 64] ^^^ 1 <<< UInt64.ofNat (c % 64)) else v
  add v w := v.zipWith (· ^^^ ·) w
  isZero v := v.all (· == 0)

abbrev PackedRow (cols : Nat) := Vector UInt64 (wordsFor cols)

abbrev PackedMatrix := RowMatrix PackedRow

namespace PackedMatrix

def words (m : PackedMatrix) : List (List UInt64) := m.rows.map (·.toList)

theorem eq_iff_words {m m' : PackedMatrix} : m = m' ↔ m.cols = m'.cols ∧ words m = words m' := by
  refine ⟨fun h => h ▸ ⟨rfl, rfl⟩, fun ⟨hcols, hwords⟩ => ?_⟩
  obtain ⟨cols, rows⟩ := m
  obtain ⟨cols', rows'⟩ := m'
  obtain rfl : cols = cols' := hcols
  exact congrArg _ ((List.map_inj_right fun _ _ => Vector.toList_inj.mp).mp hwords)

/-- Matrices are compared by columns and words. -/
instance : DecidableEq PackedMatrix := fun m m' =>
  decidable_of_iff (m.cols = m'.cols ∧ words m = words m') eq_iff_words.symm

end PackedMatrix

end QuantumMemory

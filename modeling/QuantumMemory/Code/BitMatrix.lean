/-
  QuantumMemory.Code.BitMatrix — matrices over the field of two elements.

  A row is a natural number, its bit `c` the entry in column `c`; adding rows is
  `xor`. Rows take up whole 64-bit words: an index beyond the columns but within the last word is
  stored, and everything but the listing of a row's ones sees it; an index beyond the
  words is refused.

  `rref` is the reduced row echelon form with its pivot columns. Columns are taken in turn;
  the pivot is the first row left with a one there, which changes places with the first
  row left. From it come the rank, a basis of the kernel, whether a vector is a sum of
  rows, and the lightest vector of a kernel basis that is not.

  Indices below the number of columns are stored always (`isSome_ofSupports?`), and so the
  search for the lightest vector has an answer for matrices with the same columns
  (`isSome_minWeightLogical?`).
-/

namespace QuantumMemory

structure BitMatrix where
  cols : Nat
  rows : List Nat
  deriving DecidableEq

namespace BitMatrix

/-- The number of entries that a row with `cols` columns can store. -/
def capacity (cols : Nat) : Nat := (cols + 63) / 64 * 64

def zeros (rows cols : Nat) : BitMatrix := ⟨cols, List.replicate rows 0⟩

/-- The vector with a one at each index that is listed an odd number of times. -/
def vector (support : List Nat) : Nat := support.foldl (fun v c => v ^^^ 1 <<< c) 0

/-- Every index can be stored. -/
def fits (cols : Nat) (support : List Nat) : Bool := support.all fun c => c < capacity cols

def vector? (cols : Nat) (support : List Nat) : Option Nat :=
  if fits cols support then some (vector support) else none

def ofSupports? (cols : Nat) (supports : List (List Nat)) : Option BitMatrix := do
  return ⟨cols, ← supports.mapM (vector? cols)⟩

theorem fits_of_lt {cols : Nat} {s : List Nat} (h : ∀ c ∈ s, c < cols) : fits cols s = true := by
  rw [fits, List.all_eq_true]
  intro c hc
  have hcols : cols ≤ capacity cols := by
    unfold capacity
    omega
  exact decide_eq_true (Nat.lt_of_lt_of_le (h c hc) hcols)

theorem isSome_vector? {cols : Nat} {s : List Nat} (h : ∀ c ∈ s, c < cols) : (vector? cols s).isSome := by
  rw [vector?, if_pos (fits_of_lt h), Option.isSome_some]

theorem isSome_mapM {α β : Type} {f : α → Option β} {xs : List α} (h : ∀ x ∈ xs, (f x).isSome) :
    (xs.mapM f).isSome := by
  induction xs with
  | nil => rfl
  | cons x rest ih =>
    obtain ⟨hx, hrest⟩ := List.forall_mem_cons.mp h
    obtain ⟨y, hy⟩ := Option.isSome_iff_exists.mp hx
    obtain ⟨ys, hys⟩ := Option.isSome_iff_exists.mp (ih hrest)
    rw [List.mapM_cons, hy, hys]
    rfl

theorem isSome_ofSupports? {cols : Nat} {supports : List (List Nat)} (h : ∀ s ∈ supports, ∀ c ∈ s, c < cols) :
    (ofSupports? cols supports).isSome := by
  obtain ⟨rows, hrows⟩ := Option.isSome_iff_exists.mp (isSome_mapM fun s hs => isSome_vector? (h s hs))
  rw [ofSupports?, hrows]
  rfl

theorem cols_of_ofSupports? {cols : Nat} {supports : List (List Nat)} {m : BitMatrix}
    (h : ofSupports? cols supports = some m) : m.cols = cols := by
  obtain ⟨rows, -, hm⟩ := Option.bind_eq_some_iff.mp h
  cases hm
  rfl

def get? (m : BitMatrix) (r c : Nat) : Option Bool :=
  if c < capacity m.cols then (m.rows[r]?).map (·.testBit c) else none

/-- The entry changed to the other value. -/
def flip? (m : BitMatrix) (r c : Nat) : Option BitMatrix :=
  if c < capacity m.cols ∧ r < m.rows.length then
    some { m with rows := m.rows.modify r (· ^^^ 1 <<< c) }
  else none

/-- The columns in which a row has a one. -/
def support (cols row : Nat) : List Nat := (List.range cols).filter row.testBit

def supports (m : BitMatrix) : List (List Nat) := m.rows.map (support m.cols)

/-! ## Elimination -/

/-- The first row with a one in column `c`, `first` put in its place. -/
def exchange? (c first : Nat) : List Nat → Option (Nat × List Nat)
  | [] => none
  | row :: rest =>
    if row.testBit c then some (row, first :: rest)
    else (exchange? c first rest).map fun (pivot, rest) => (pivot, row :: rest)

/-- The pivot for column `c` and the rows left without it. -/
def pivot? (c : Nat) : List Nat → Option (Nat × List Nat)
  | [] => none
  | first :: rest => if first.testBit c then some (first, rest) else exchange? c first rest

/-- Clears column `c` of a row with the help of a pivot. -/
def clear (c pivot row : Nat) : Nat := if row.testBit c then row ^^^ pivot else row

/-- The reduced rows with their pivot columns, from those reduced so far and those left. -/
def reduce : List Nat → List (Nat × Nat) → List Nat → List (Nat × Nat)
  | [], reduced, _ => reduced
  | c :: columns, reduced, rows =>
    match pivot? c rows with
    | none => reduce columns reduced rows
    | some (pivot, rows) =>
      reduce columns (reduced.map (fun (p, row) => (p, clear c pivot row)) ++ [(c, pivot)])
        (rows.map (clear c pivot))

/-- Pivot columns, each with its row of the echelon form. -/
def echelon (m : BitMatrix) : List (Nat × Nat) := reduce (List.range m.cols) [] m.rows

def rref (m : BitMatrix) : BitMatrix × List Nat := (⟨m.cols, m.echelon.map (·.2)⟩, m.echelon.map (·.1))

def rank (m : BitMatrix) : Nat := m.echelon.length

/-! ## Kernel and row space -/

/-- The kernel vector that belongs to a free column. -/
def kernelVector (echelon : List (Nat × Nat)) (free : Nat) : Nat :=
  echelon.foldl (fun v (p, row) => if row.testBit free then v ^^^ 1 <<< p else v) (1 <<< free)

/-- A basis of the vectors that every row meets in an even number of ones, by free column. -/
def kernel (m : BitMatrix) : BitMatrix :=
  let echelon := m.echelon
  let pivots := echelon.map (·.1)
  ⟨m.cols, ((List.range m.cols).filter fun c => !pivots.contains c).map (kernelVector echelon)⟩

/-- What is left of a vector when its ones in pivot columns are cleared in turn. -/
def residue (echelon : List (Nat × Nat)) (v : Nat) : Nat := echelon.foldl (fun v (p, row) => clear p row v) v

/-- Whether the vector of a support is a sum of rows. -/
def contains? (m : BitMatrix) (support : List Nat) : Option Bool :=
  (vector? m.cols support).map fun v => residue m.echelon v == 0

/-- Whether a row has an odd number of ones at the listed columns. -/
def parity (row : Nat) (support : List Nat) : Bool := support.foldl (fun b c => b ^^ row.testBit c) false

def mul? (m : BitMatrix) (support : List Nat) : Option (List Bool) :=
  m.rows.mapM fun row => if fits m.cols support then some (parity row support) else none

/-- The first of the shortest. -/
def shortest? : List (List Nat) → Option (List Nat)
  | [] => none
  | s :: rest => match shortest? rest with
    | some t => if t.length < s.length then some t else some s
    | none => some s

/-- The support of the lightest vector in a basis of the kernel of `x` that is not a sum of
    rows of `z`; the outer option is for supports that `z` cannot store. -/
def minWeightLogical? (x z : BitMatrix) : Option (Option (List Nat)) := do
  let echelon := z.echelon
  let candidates ← x.kernel.supports.mapM fun s => (vector? z.cols s).map fun v => (s, residue echelon v)
  return shortest? ((candidates.filter fun (_, v) => v ≠ 0).map (·.1))

theorem isSome_minWeightLogical? {x z : BitMatrix} (h : x.cols = z.cols) : (minWeightLogical? x z).isSome := by
  have hstored : ∀ s ∈ x.kernel.supports, ((vector? z.cols s).map fun v => (s, residue z.echelon v)).isSome := by
    intro s hs
    obtain ⟨row, -, rfl⟩ := List.mem_map.mp hs
    rw [Option.isSome_map]
    exact isSome_vector? fun c hc => h ▸ List.mem_range.mp (List.mem_filter.mp hc).1
  obtain ⟨candidates, hcandidates⟩ := Option.isSome_iff_exists.mp (isSome_mapM hstored)
  rw [minWeightLogical?, hcandidates]
  rfl

end BitMatrix

end QuantumMemory

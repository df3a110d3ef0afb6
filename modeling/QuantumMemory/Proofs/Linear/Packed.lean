/-
  QuantumMemory.Proofs.Linear.Packed — packed matrices stand for plain ones.

  A plain matrix has one entry for each row and column and nothing else. A packed matrix
  represents it if it has its entries and no bit beyond the columns (`Represents`). Flips within
  the columns, sums of rows, elimination and the kernel keep that, so whatever a matrix is made by,
  the packed one can be read in the place of the plain one (`MatrixScript.packed_refines`). Equality
  compares whole words: without bits beyond the columns these are the entries.
-/

import QuantumMemory.Proofs.Linear.InPlace
import QuantumMemory.Proofs.Linear.Words
import QuantumMemory.Proofs.Success

namespace QuantumMemory

/-! ## Plain matrices -/

/-- A row by its entries. -/
abbrev PlainRow (cols : Nat) := Fin cols → Bool

instance (cols : Nat) : BitRow (PlainRow cols) where
  capacity := cols
  zero := fun _ => false
  bit v c := if h : c < cols then v ⟨c, h⟩ else false
  flip v c := fun k => if k.val = c then !v k else v k
  add v w := fun k => v k ^^ w k
  isZero v := decide (∀ k, v k = false)

abbrev PlainMatrix := RowMatrix PlainRow

open BitRow

theorem PlainMatrix.get?_eq (b : PlainMatrix) (r c : Nat) :
    b.get? r c = if c < b.cols then (b.rows[r]?).map (bit · c) else none := rfl

variable {cols : Nat}

theorem lt_capacity {c : Nat} (hc : c < cols) : c < capacity (PackedRow cols) := by
  show c < (cols + 63) / 64 * 64
  omega

/-- The word of a bit that is stored. -/
theorem word_lt {c : Nat} (hc : c < capacity (PackedRow cols)) : c / 64 < wordsFor cols :=
  Nat.div_lt_of_lt_mul (Nat.mul_comm _ _ ▸ hc)

namespace PackedRow

/-- The entries of a packed row. -/
def entries (v : PackedRow cols) : PlainRow cols := fun k => bit v k

theorem carries_entries : Carries cols (entries : PackedRow cols → PlainRow cols) where
  zero := funext fun k => bit_zero k
  bit v c hc := dif_pos hc
  flip v c hc := by
    funext k
    show bit (flip v c) k = if k.val = c then !bit v k else bit v k
    rw [bit_flip v (word_lt (lt_capacity hc))]
    by_cases hk : k.val = c
    · rw [decide_eq_true hk, if_pos hk, Bool.xor_true]
    · rw [decide_eq_false hk, if_neg hk, Bool.xor_false]
  add v w := funext fun k => bit_add v w k

/-- No bit is set beyond the columns. -/
def Clean (v : PackedRow cols) : Prop := ∀ c, cols ≤ c → bit v c = false

theorem clean_zero : Clean (zero : PackedRow cols) := fun c _ => bit_zero c

theorem Clean.flip {v : PackedRow cols} (h : Clean v) {c : Nat} (hc : c < cols) : Clean (flip v c) := by
  intro k hk
  rw [bit_flip v (word_lt (lt_capacity hc)), h k hk, decide_eq_false (by omega), Bool.xor_false]

theorem Clean.add {v w : PackedRow cols} (hv : Clean v) (hw : Clean w) : Clean (add v w) := by
  intro k hk
  rw [bit_add, hv k hk, hw k hk, Bool.xor_false]

/-- Clean rows with the same entries are the same words. -/
theorem Clean.ext {v w : PackedRow cols} (hv : Clean v) (hw : Clean w) (h : ∀ c < cols, bit v c = bit w c) : v = w := by
  refine ext_bits fun c => ?_
  rcases Nat.lt_or_ge c cols with hc | hc
  · exact h c hc
  · rw [hv c hc, hw c hc]

end PackedRow

open PackedRow (Clean carries_entries)

/-! ## What represents what -/

namespace PackedMatrix

/-- The packed matrix has the entries of the plain one and no bit beyond its columns. -/
structure Represents (m : PackedMatrix) (b : PlainMatrix) : Prop where
  entries : b = ⟨m.cols, m.rows.map PackedRow.entries⟩
  clean : ∀ row ∈ m.rows, Clean row

namespace Represents

variable {m m' : PackedMatrix} {b b' : PlainMatrix}

theorem zeros (rows cols : Nat) : Represents (.zeros rows cols) (.zeros rows cols) where
  entries := by
    rw [RowMatrix.zeros, RowMatrix.zeros, List.map_replicate, carries_entries.zero]
  clean := fun _ hrow => List.eq_of_mem_replicate hrow ▸ PackedRow.clean_zero

/-- Supports within the columns are stored. -/
theorem ofSupports {supports : List (List Nat)} (h : ∀ s ∈ supports, ∀ c ∈ s, c < cols) :
    ∃ m : PackedMatrix, RowMatrix.ofSupports? cols supports = some m ∧ Represents m ⟨cols, supports.map vector⟩ := by
  have hstored : ∀ s ∈ supports, (vector? s : Option (PackedRow cols)) = some (vector s) := fun s hs => by
    rw [vector?_eq, fits, if_pos (List.all_eq_true.mpr fun c hc => decide_eq_true (lt_capacity (h s hs c hc)))]
  refine ⟨⟨cols, supports.map vector⟩, ?_, ?_, fun row hrow => ?_⟩
  · rw [RowMatrix.ofSupports?, mapM_some hstored]
    rfl
  · rw [List.map_map]
    exact congrArg _ (List.map_congr_left fun s hs => (vector_map carries_entries (h s hs)).symm)
  · obtain ⟨s, hs, rfl⟩ := List.mem_map.mp hrow
    exact forall_vector PackedRow.clean_zero (fun _ _ hc hv => hv.flip hc) (h s hs)

/-- An entry that there is can be changed. -/
theorem flip (h : Represents m b) {r c : Nat} (hr : r < b.rows.length) (hc : c < b.cols) :
    ∃ m', m.flip? r c = some m' ∧ Represents m' (b.flip r c) := by
  obtain ⟨rfl, hclean⟩ := h
  rw [List.length_map] at hr
  refine ⟨m.flip r c, if_pos ⟨lt_capacity hc, hr⟩, ?_, forall_modify (fun v hv => hv.flip hc) hclean r⟩
  exact congrArg (RowMatrix.mk m.cols) (modify_map (fun v => carries_entries.flip v c hc) m.rows r)

theorem elimination (m : PackedMatrix) :
    (⟨m.cols, m.rows.map PackedRow.entries⟩ : PlainMatrix).elimination = m.elimination.map PackedRow.entries :=
  Elimination.run_map carries_entries (fun _ hc => List.mem_range.mp hc) ⟨m.rows, []⟩

theorem pivots_lt (m : PackedMatrix) : ∀ p ∈ m.elimination.pivots, p < m.cols := fun _ hp =>
  (Elimination.mem_pivots_run hp).elim (fun hnone => absurd hnone List.not_mem_nil) List.mem_range.mp

/-- Both are reduced with the same pivots. -/
theorem rref (h : Represents m b) : Represents m.rref.1 b.rref.1 ∧ m.rref.2 = b.rref.2 := by
  obtain ⟨rfl, hclean⟩ := h
  have hsame := elimination m
  refine ⟨⟨?_, Elimination.forall_reduced (Elimination.forall_run (fun _ _ => Clean.add) hclean)⟩, ?_⟩
  · rw [RowMatrix.rref, hsame, Elimination.reduced_map]
    rfl
  · rw [RowMatrix.rref, RowMatrix.rref, hsame]
    rfl

theorem kernel (h : Represents m b) : Represents m.kernel b.kernel := by
  obtain ⟨rfl, -⟩ := h
  refine ⟨?_, Elimination.forall_kernel PackedRow.clean_zero (fun _ _ hc hv => hv.flip hc) (pivots_lt m)⟩
  rw [RowMatrix.kernel, elimination m, Elimination.kernel_map carries_entries (pivots_lt m) (Nat.le_refl _)]
  rfl

/-! ## What is seen of it -/

theorem get? (h : Represents m b) (r : Nat) {c : Nat} (hc : c < m.cols) : m.get? r c = b.get? r c := by
  obtain ⟨rfl, -⟩ := h
  rw [RowMatrix.get?, PlainMatrix.get?_eq, if_pos (lt_capacity hc), if_pos hc, List.getElem?_map, Option.map_map]
  exact Option.map_congr fun v _ => (carries_entries.bit v c hc).symm

theorem supports (h : Represents m b) {r : Nat} (hr : r < m.rows.length) :
    ∃ ones, m.supports[r]? = some ones ∧ ones.Pairwise (· < ·) ∧ ∀ c, c ∈ ones ↔ b.get? r c = some true := by
  refine ⟨support m.cols m.rows[r], ?_, List.pairwise_lt_range.filter _, fun c => ?_⟩
  · rw [RowMatrix.supports, List.getElem?_map, List.getElem?_eq_getElem hr, Option.map_some]
  · rw [support, List.mem_filter, List.mem_range]
    by_cases hc : c < m.cols
    · rw [← h.get? r hc, RowMatrix.get?, if_pos (lt_capacity hc), List.getElem?_eq_getElem hr, Option.map_some,
        Option.some_inj, and_iff_right hc]
    · obtain ⟨rfl, -⟩ := h
      rw [PlainMatrix.get?_eq, if_neg hc]
      exact iff_of_false (fun hboth => hc hboth.1) fun hnone => by cases hnone

/-- Without bits beyond the columns, matrices with the same entries are the same words. -/
theorem beq_iff (h : Represents m b) (h' : Represents m' b') : (m == m') = true ↔ m.cols = m'.cols ∧
    m.rows.length = m'.rows.length ∧ ∀ r c, r < m.rows.length → c < m.cols → m.get? r c = m'.get? r c := by
  rw [beq_iff_eq]
  refine ⟨fun he => he ▸ ⟨rfl, rfl, fun _ _ _ _ => rfl⟩, fun ⟨hcols, hlength, hentries⟩ => ?_⟩
  have hclean := h.clean
  have hclean' := h'.clean
  obtain ⟨cols, rows⟩ := m
  obtain ⟨cols', rows'⟩ := m'
  obtain rfl : cols = cols' := hcols
  refine congrArg (RowMatrix.mk cols) (List.ext_getElem hlength fun r hr hr' => ?_)
  refine (hclean _ (List.getElem_mem hr)).ext (hclean' _ (List.getElem_mem hr')) fun c hc => ?_
  have hentry := hentries r c hr hc
  rw [RowMatrix.get?, RowMatrix.get?, if_pos (lt_capacity hc), if_pos (lt_capacity hc)] at hentry
  rw [List.getElem?_eq_getElem hr, List.getElem?_eq_getElem hr'] at hentry
  exact Option.some.inj hentry

end Represents

/-- What is seen of a packed matrix beside a plain one. -/
structure Refines (m : PackedMatrix) (b : PlainMatrix) : Prop where
  size : m.cols = b.cols ∧ m.rows.length = b.rows.length
  /-- No bit beyond the columns is set. -/
  padding : ∀ row ∈ m.rows, ∀ c, m.cols ≤ c → bit row c = false
  entries : ∀ r c, c < m.cols → m.get? r c = b.get? r c
  /-- The ones of a row are listed in ascending order. -/
  supports : ∀ r < m.rows.length,
    ∃ ones, m.supports[r]? = some ones ∧ ones.Pairwise (· < ·) ∧ ∀ c, c ∈ ones ↔ b.get? r c = some true
  pivots : m.rref.2 = b.rref.2

theorem Represents.refines {m : PackedMatrix} {b : PlainMatrix} (h : Represents m b) : Refines m b where
  size := by
    rw [h.entries, List.length_map]
    exact ⟨rfl, rfl⟩
  padding := h.clean
  entries r _ hc := h.get? r hc
  supports _ hr := h.supports hr
  pivots := h.rref.2

end PackedMatrix

/-! ## Matrices by how they are made -/

/-- How a matrix is made. -/
inductive MatrixScript
  | zeros (rows cols : Nat)
  | ofSupports (cols : Nat) (supports : List (List Nat))
  | flip (s : MatrixScript) (r c : Nat)
  | rref (s : MatrixScript)
  | kernel (s : MatrixScript)

namespace MatrixScript

/-- The packed matrix, unless an index cannot be stored. -/
def packed? : MatrixScript → Option PackedMatrix
  | zeros rows cols => some (.zeros rows cols)
  | ofSupports cols supports => RowMatrix.ofSupports? cols supports
  | flip s r c => s.packed?.bind (·.flip? r c)
  | rref s => s.packed?.map (·.rref.1)
  | kernel s => s.packed?.map (·.kernel)

/-- The plain matrix, where the same entries are changed and the same rows exchanged and added. -/
def plain : MatrixScript → PlainMatrix
  | zeros rows cols => .zeros rows cols
  | ofSupports cols supports => ⟨cols, supports.map vector⟩
  | flip s r c => s.plain.flip r c
  | rref s => s.plain.rref.1
  | kernel s => s.plain.kernel

/-- Every index is that of an entry. -/
def InRange : MatrixScript → Prop
  | zeros _ _ => True
  | ofSupports cols supports => ∀ s ∈ supports, ∀ c ∈ s, c < cols
  | flip s r c => s.InRange ∧ r < s.plain.rows.length ∧ c < s.plain.cols
  | rref s | kernel s => s.InRange

theorem represents {s : MatrixScript} (h : s.InRange) : ∃ m, s.packed? = some m ∧ PackedMatrix.Represents m s.plain := by
  induction s with
  | zeros rows cols => exact ⟨_, rfl, .zeros rows cols⟩
  | ofSupports cols supports => exact PackedMatrix.Represents.ofSupports h
  | flip s r c ih =>
    obtain ⟨hs, hr, hc⟩ := h
    obtain ⟨m, hm, hrepresents⟩ := ih hs
    obtain ⟨m', hm', hrepresents'⟩ := hrepresents.flip hr hc
    exact ⟨m', by rw [packed?, hm, Option.bind_some, hm'], hrepresents'⟩
  | rref s ih =>
    obtain ⟨m, hm, hrepresents⟩ := ih h
    exact ⟨_, by rw [packed?, hm, Option.map_some], hrepresents.rref.1⟩
  | kernel s ih =>
    obtain ⟨m, hm, hrepresents⟩ := ih h
    exact ⟨_, by rw [packed?, hm, Option.map_some], hrepresents.kernel⟩

/-- A matrix that is made without an index out of range is stored and refines the plain one that is made
    so. Any two of them are equal word by word just if they have the same size and the same entries. -/
theorem packed_refines {s : MatrixScript} (h : s.InRange) : ∃ m, s.packed? = some m ∧ PackedMatrix.Refines m s.plain ∧
    ∀ s' : MatrixScript, s'.InRange → ∃ m', s'.packed? = some m' ∧ ((m == m') = true ↔ m.cols = m'.cols ∧
      m.rows.length = m'.rows.length ∧ ∀ r c, r < m.rows.length → c < m.cols → m.get? r c = m'.get? r c) := by
  obtain ⟨m, hm, hrepresents⟩ := represents h
  refine ⟨m, hm, hrepresents.refines, fun s' h' => ?_⟩
  obtain ⟨m', hm', hrepresents'⟩ := represents h'
  exact ⟨m', hm', hrepresents.beq_iff hrepresents'⟩

/-- Rows that reach into a third word are reduced to the words that other rows with the same sums are. -/
theorem packed_refines_wide :
    let s := MatrixScript.rref (.flip (.ofSupports 130 [[0, 129], [64, 129, 128]]) 1 128)
    let s' := MatrixScript.rref (.ofSupports 130 [[0, 64], [129, 64, 5, 5]])
    s.InRange ∧ s'.InRange ∧ s.packed? = s'.packed? ∧ ∃ m, s.packed? = some m ∧ m.supports = [[0, 129], [64, 129]] ∧
      PackedMatrix.Refines m s.plain ∧ ∀ m', s'.packed? = some m' →
        ∀ r c, r < m.rows.length → c < m.cols → m.get? r c = m'.get? r c := by
  intro s s'
  have hin : ∀ support ∈ [[0, 129], [64, 129, 128]], ∀ c ∈ support, c < 130 := by decide
  have hin' : ∀ support ∈ [[0, 64], [129, 64, 5, 5]], ∀ c ∈ support, c < 130 := by decide
  have hs : s.InRange := ⟨hin, by decide, by decide⟩
  have hs' : s'.InRange := hin'
  have hequal : s.packed? = s'.packed? := by decide +kernel
  have hsupports : s.packed?.map (·.supports) = some [[0, 129], [64, 129]] := by decide +kernel
  obtain ⟨m, hm, hrefines, hsame⟩ := packed_refines hs
  obtain ⟨m', hm', hiff⟩ := hsame s' hs'
  refine ⟨hs, hs', hequal, m, hm, ?_, hrefines, fun m'' hm'' => ?_⟩
  · rw [hm] at hsupports
    exact Option.some.inj hsupports
  · obtain rfl := Option.some.inj (hm'.symm.trans hm'')
    obtain rfl := Option.some.inj (hm.symm.trans (hequal.trans hm'))
    exact (hiff.mp (beq_self_eq_true m)).2.2

end MatrixScript

end QuantumMemory

/-
  QuantumMemory.Proofs.Linear.Stored — what is stored in words is the matrix of numbers.

  The words of a row make up one number with the same bits (`PackedRow.number`), so whatever is
  asked of a packed matrix has the answer that `BitMatrix` gives: indices that cannot be stored
  are refused by both, and bits beyond the columns are seen by both. Elimination in place is that
  of `BitMatrix` row by row (`PackedRow.run_append`): the exchange puts the first row left where
  the pivot was, and the sums leave no one in the column but the pivot's.
-/

import QuantumMemory.Proofs.Linear.Packed

namespace QuantumMemory

namespace BitRow

variable {ρ : Type}

/-! ## Elimination row by row -/

theorem swapRows_self (rows : List ρ) (i : Nat) : swapRows rows i i = rows := by
  unfold swapRows
  split
  · rename_i a b ha hb
    obtain rfl := Option.some.inj (ha.symm.trans hb)
    rw [List.set_set]
    obtain ⟨hi, rfl⟩ := List.getElem?_eq_some_iff.mp ha
    exact List.set_getElem_self hi
  · rfl

theorem swapRows_append (placed : List ρ) (first : ρ) (rest : List ρ) {j : Nat} {row : ρ} (hrow : rest[j]? = some row) :
    swapRows (placed ++ first :: rest) placed.length (placed.length + (j + 1)) = placed ++ row :: rest.set j first := by
  have hfirst : (placed ++ first :: rest)[placed.length]? = some first := by simp
  have hother : (placed ++ first :: rest)[placed.length + (j + 1)]? = some row := by
    rw [List.getElem?_append_right (Nat.le_add_right _ _), Nat.add_sub_cancel_left, List.getElem?_cons_succ, hrow]
  rw [swapRows, hfirst, hother]
  simp

variable [BitRow ρ]

def clear (c : Nat) (pivot row : ρ) : ρ := if bit row c then add row pivot else row

/-- One step: the row at `k` is cleared, if it is not the pivot. -/
theorem getElem?_addWhere {rows : List ρ} {r : Nat} {pivot : ρ} (hpivot : rows[r]? = some pivot) (c k j : Nat) :
    (if k ≠ r && bitAt rows k c then addRow rows k r else rows)[j]? =
      (rows[j]?).map fun row => if j = k ∧ k ≠ r then clear c pivot row else row := by
  have hadd : addRow rows k r = rows.modify k (add · pivot) := by rw [addRow, hpivot]
  rw [hadd]
  by_cases hk : k = r
  · simp [hk]
  · by_cases hj : j = k
    · subst hj
      cases hrow : rows[j]? with
      | none =>
        have hbit : bitAt rows j c = false := by rw [bitAt, hrow]; rfl
        simp [hbit, hrow]
      | some row =>
        have hbit : bitAt rows j c = bit row c := by rw [bitAt, hrow]; rfl
        cases hset : bit row c <;> simp [hbit, hset, hk, hrow, clear]
    · cases hset : bitAt rows k c <;> simp [hj, Ne.symm hj, hk]

/-- After the sums with the first `k` rows. -/
theorem foldl_addRow {rows : List ρ} {r : Nat} {pivot : ρ} (hpivot : rows[r]? = some pivot) (c k : Nat) :
    (List.range k).foldl (fun rows i => if i ≠ r && bitAt rows i c then addRow rows i r else rows) rows =
      rows.mapIdx fun i row => if i < k ∧ i ≠ r then clear c pivot row else row := by
  induction k with
  | zero =>
    refine List.ext_getElem? fun j => ?_
    simp
  | succ k ih =>
    rw [List.range_succ, List.foldl_append, ih, List.foldl_cons, List.foldl_nil]
    have hkept : (rows.mapIdx fun i row => if i < k ∧ i ≠ r then clear c pivot row else row)[r]? = some pivot := by
      rw [List.getElem?_mapIdx, hpivot]
      simp
    refine List.ext_getElem? fun j => ?_
    rw [getElem?_addWhere hkept, List.getElem?_mapIdx, List.getElem?_mapIdx, Option.map_map]
    refine Option.map_congr fun row _ => ?_
    by_cases hj : j = k
    · simp [hj]
    · have hlt : j < k + 1 ↔ j < k := by omega
      simp [hj, hlt]

/-- A pivot between the rows in place and the rows left is added to those of both that have a one
    in its column. -/
theorem clearColumn_append (c : Nat) (placed left : List ρ) (pivot : ρ) :
    clearColumn c placed.length (placed ++ pivot :: left) =
      placed.map (clear c pivot) ++ pivot :: left.map (clear c pivot) := by
  rw [clearColumn, foldl_addRow (by simp : (placed ++ pivot :: left)[placed.length]? = some pivot)]
  refine List.ext_getElem? fun j => ?_
  rw [List.getElem?_mapIdx]
  rcases Nat.lt_trichotomy j placed.length with hj | rfl | hj
  · rw [List.getElem?_append_left hj, List.getElem?_append_left (by rwa [List.length_map]), List.getElem?_map]
    exact Option.map_congr fun row _ => if_pos ⟨by simp; omega, hj.ne⟩
  · simp
  · obtain ⟨i, rfl⟩ := Nat.exists_eq_add_of_lt hj
    rw [Nat.add_assoc, List.getElem?_append_right (Nat.le_add_right _ _), List.getElem?_append_right (by simp),
      List.length_map, Nat.add_sub_cancel_left, List.getElem?_cons_succ, List.getElem?_cons_succ, List.getElem?_map]
    refine Option.map_congr fun row hrow => if_pos ⟨?_, by omega⟩
    have hi : i < left.length := (List.getElem?_eq_some_iff.mp hrow).1
    rw [List.length_append, List.length_cons]
    omega

/-- Where the exchange has put the pivot first, it is put in place behind those that are. -/
theorem place_append {placed left rest : List ρ} {pivots : List Nat} {pivot : ρ} {i : Nat}
    (hlength : pivots.length = placed.length)
    (hswap : swapRows (placed ++ left) placed.length i = placed ++ pivot :: rest) (c : Nat) :
    Elimination.place ⟨placed ++ left, pivots⟩ c i =
      ⟨(placed.map (clear c pivot) ++ [pivot]) ++ rest.map (clear c pivot), pivots ++ [c]⟩ := by
  rw [Elimination.place, hlength, hswap, clearColumn_append, List.append_assoc, List.singleton_append]

/-- The pivot is looked for among the rows left. -/
theorem pivotRow?_append {placed left : List ρ} {pivots : List Nat} (hlength : pivots.length = placed.length)
    (c : Nat) : Elimination.pivotRow? ⟨placed ++ left, pivots⟩ c = (left.findIdx? (bit · c)).map (placed.length + ·) := by
  rw [Elimination.pivotRow?, hlength, List.length_append, Nat.add_sub_cancel_left]
  clear hlength
  induction left generalizing placed with
  | nil => rfl
  | cons row rest ih =>
    have hhead : bitAt (placed ++ row :: rest) placed.length c = bit row c := by
      rw [bitAt, List.getElem?_append_right (Nat.le_refl _), Nat.sub_self]
      rfl
    have hrest := @ih (placed ++ [row])
    rw [List.length_append, List.length_singleton, List.append_assoc, List.singleton_append] at hrest
    rw [List.length_cons, List.range'_succ, List.find?_cons, hhead, List.findIdx?_cons]
    cases bit row c with
    | true => rfl
    | false =>
      simp only [Bool.false_eq_true, if_false]
      rw [hrest, Option.map_map]
      exact Option.map_congr fun j _ => by simp only [Function.comp_apply]; omega

end BitRow

/-! ## Rows as numbers -/

namespace PackedRow

open BitRow

variable {cols : Nat}

/-- The number with the bits of the row. -/
def number (v : PackedRow cols) : Nat := Nat.ofBits fun i : Fin (BitMatrix.capacity cols) => bit v i

@[simp] theorem testBit_number (v : PackedRow cols) (c : Nat) : (number v).testBit c = bit v c := by
  rcases Nat.lt_or_ge c (BitMatrix.capacity cols) with hc | hc
  · exact Nat.testBit_ofBits_lt _ c hc
  · rw [number, Nat.testBit_ofBits_ge _ c hc, bit_beyond v]
    unfold BitMatrix.capacity at hc
    unfold wordsFor
    omega

theorem number_zero : number (zero : PackedRow cols) = 0 := Nat.eq_of_testBit_eq fun c => by
  rw [testBit_number, bit_zero, Nat.zero_testBit]

theorem number_flip (v : PackedRow cols) {c : Nat} (hc : c < BitMatrix.capacity cols) :
    number (flip v c) = number v ^^^ 1 <<< c := by
  refine Nat.eq_of_testBit_eq fun k => ?_
  rw [testBit_number, bit_flip v (word_lt hc), Nat.testBit_xor, testBit_number, Nat.one_shiftLeft, Nat.testBit_two_pow]
  exact congrArg _ (decide_eq_decide.mpr eq_comm)

theorem number_add (v w : PackedRow cols) : number (add v w) = number v ^^^ number w := Nat.eq_of_testBit_eq fun k => by
  rw [testBit_number, bit_add, Nat.testBit_xor, testBit_number, testBit_number]

theorem number_clear (c : Nat) (pivot row : PackedRow cols) :
    number (clear c pivot row) = BitMatrix.clear c (number pivot) (number row) := by
  rw [clear, BitMatrix.clear, testBit_number]
  split
  · exact number_add row pivot
  · rfl

theorem map_clear_number (c : Nat) (pivot : PackedRow cols) (rows : List (PackedRow cols)) :
    (rows.map (clear c pivot)).map number = (rows.map number).map (BitMatrix.clear c (number pivot)) := by
  rw [List.map_map, List.map_map]
  exact List.map_congr_left fun row _ => number_clear c pivot row

theorem number_injective : Function.Injective (number : PackedRow cols → Nat) := fun v w h =>
  ext_bits fun c => by rw [← testBit_number, ← testBit_number, h]

theorem isZero_eq (v : PackedRow cols) : isZero v = (number v == 0) := by
  rw [Bool.eq_iff_iff, isZero_iff, beq_iff_eq]
  refine ⟨fun h => Nat.eq_of_testBit_eq fun c => ?_, fun h c => ?_⟩
  · rw [testBit_number, h c, Nat.zero_testBit]
  · rw [← testBit_number, h, Nat.zero_testBit]

theorem fits_eq (support : List Nat) : fits (PackedRow cols) support = BitMatrix.fits cols support := rfl

theorem number_vector {support : List Nat} (h : fits (PackedRow cols) support = true) :
    number (vector support : PackedRow cols) = BitMatrix.vector support := by
  have hfold : ∀ v : PackedRow cols,
      number (support.foldl flip v) = support.foldl (fun v c => v ^^^ 1 <<< c) (number v) := by
    rw [fits, List.all_eq_true] at h
    induction support with
    | nil => exact fun _ => rfl
    | cons c rest ih =>
      obtain ⟨hc, hrest⟩ := List.forall_mem_cons.mp h
      intro v
      rw [List.foldl_cons, List.foldl_cons, ih hrest, number_flip v (of_decide_eq_true hc)]
  rw [vector, hfold, number_zero]
  rfl

theorem vector?_number (support : List Nat) :
    (vector? support : Option (PackedRow cols)).map number = BitMatrix.vector? cols support := by
  rw [vector?_eq, BitMatrix.vector?, ← fits_eq]
  split
  · rename_i hfits
    rw [Option.map_some, number_vector hfits]
  · rfl

theorem support_number (v : PackedRow cols) : BitMatrix.support cols (number v) = support cols v :=
  List.filter_congr fun c _ => testBit_number v c

/-! ## The same elimination -/

/-- The exchange of `BitMatrix` finds the row and puts the first one where it was. -/
theorem exchange?_number (c : Nat) (first : PackedRow cols) (rest : List (PackedRow cols)) :
    BitMatrix.exchange? c (number first) (rest.map number) = (rest.findIdx? (bit · c)).bind fun j =>
      (rest[j]?).map fun row => (number row, (rest.set j first).map number) := by
  induction rest with
  | nil => rfl
  | cons row rest ih =>
    rw [List.map_cons, BitMatrix.exchange?, testBit_number, List.findIdx?_cons, ih]
    cases bit row c with
    | true => rfl
    | false =>
      cases rest.findIdx? (bit · c) with
      | none => rfl
      | some j => cases hj : rest[j]? <;> simp [hj]

/-- Where the search finds a pivot, the exchange of rows leaves what `BitMatrix` leaves. -/
theorem pivot?_number (c : Nat) (placed left : List (PackedRow cols)) :
    (left.findIdx? (bit · c) = none ∧ BitMatrix.pivot? c (left.map number) = none) ∨
      ∃ j pivot rest, left.findIdx? (bit · c) = some j ∧
        BitMatrix.pivot? c (left.map number) = some (number pivot, rest.map number) ∧
        swapRows (placed ++ left) placed.length (placed.length + j) = placed ++ pivot :: rest := by
  cases left with
  | nil => exact .inl ⟨rfl, rfl⟩
  | cons first rest =>
    rw [List.map_cons, BitMatrix.pivot?, testBit_number, List.findIdx?_cons, exchange?_number]
    cases bit first c with
    | true => exact .inr ⟨0, first, rest, rfl, rfl, swapRows_self _ _⟩
    | false =>
      cases hfind : rest.findIdx? (bit · c) with
      | none => exact .inl ⟨rfl, rfl⟩
      | some j =>
        obtain ⟨hj, -⟩ := List.findIdx?_eq_some_iff_getElem.mp hfind
        have hrow := List.getElem?_eq_getElem hj
        exact .inr ⟨j + 1, rest[j], rest.set j first, rfl, by simp [hrow], swapRows_append placed first rest hrow⟩

theorem reduce_nil (columns : List Nat) (reduced : List (Nat × Nat)) :
    BitMatrix.reduce columns reduced [] = reduced := by
  induction columns with
  | nil => rfl
  | cons c rest ih => exact ih

/-- The pivots with the numbers of the rows in place. -/
def numbered (e : Elimination (PackedRow cols)) : List (Nat × Nat) := e.pivots.zip (e.reduced.map number)

/-- The elimination has come to the pivots and numbers that are listed, a row for every pivot. -/
structure Reaches (e : Elimination (PackedRow cols)) (listed : List (Nat × Nat)) : Prop where
  numbered : numbered e = listed
  length : e.pivots.length = e.reduced.length

theorem reaches_placed {placed left : List (PackedRow cols)} {pivots : List Nat}
    (hlength : pivots.length = placed.length) : Reaches ⟨placed ++ left, pivots⟩ (pivots.zip (placed.map number)) where
  numbered := by
    rw [PackedRow.numbered, Elimination.reduced, hlength, List.take_left]
  length := by
    rw [Elimination.reduced, hlength, List.take_left]

/-- Row by row, elimination in place is that of `BitMatrix`. -/
theorem run_append (columns : List Nat) {placed left : List (PackedRow cols)} {pivots : List Nat}
    (hlength : pivots.length = placed.length) : Reaches (.run columns ⟨placed ++ left, pivots⟩)
      (BitMatrix.reduce columns (pivots.zip (placed.map number)) (left.map number)) := by
  induction columns generalizing placed left pivots with
  | nil => exact reaches_placed hlength
  | cons c rest ih =>
    rw [Elimination.run]
    by_cases hdone : pivots.length = (placed ++ left).length
    · obtain rfl : left = [] := List.length_eq_zero_iff.mp (by rw [List.length_append] at hdone; omega)
      rw [if_pos hdone, List.map_nil, reduce_nil]
      exact reaches_placed hlength
    · rw [if_neg hdone, pivotRow?_append hlength, BitMatrix.reduce]
      rcases pivot?_number c placed left with ⟨hnone, hpivot⟩ | ⟨j, pivot, others, hfind, hpivot, hswap⟩
      · rw [hnone, hpivot]
        exact ih hlength
      · have hplaced : (pivots ++ [c]).zip ((placed.map (clear c pivot) ++ [pivot]).map number) =
            (pivots.zip (placed.map number)).map (Prod.map id (BitMatrix.clear c (number pivot))) ++
              [(c, number pivot)] := by
          rw [List.map_append, List.zip_append (by simp [hlength]), map_clear_number, List.zip_map_right]
          rfl
        have hnext := @ih (placed.map (clear c pivot) ++ [pivot]) (others.map (clear c pivot)) (pivots ++ [c])
          (by simp [hlength])
        rw [hplaced, map_clear_number, ← place_append hlength hswap] at hnext
        rw [hfind, hpivot]
        exact hnext

/-! ## The same vectors -/

/-- The pivots with their places are the pivots with their rows. -/
theorem foldl_places {β γ : Type} {pivots : List Nat} {rows : List β} (hlength : pivots.length = rows.length)
    (step : γ → Nat → Option β → γ) (v : γ) : pivots.zipIdx.foldl (fun v p => step v p.1 rows[p.2]?) v =
      (pivots.zip rows).foldl (fun v p => step v p.1 (some p.2)) v := by
  have hsame : pivots.zipIdx.map (fun p => (p.1, rows[p.2]?)) = (pivots.zip rows).map fun p => (p.1, some p.2) := by
    refine List.ext_getElem (by simp [hlength]) fun i hi hi' => ?_
    simp
  calc pivots.zipIdx.foldl (fun v p => step v p.1 rows[p.2]?) v
      = (pivots.zipIdx.map fun p => (p.1, rows[p.2]?)).foldl (fun v p => step v p.1 p.2) v := by rw [List.foldl_map]
    _ = ((pivots.zip rows).map fun p => (p.1, some p.2)).foldl (fun v p => step v p.1 p.2) v := by rw [hsame]
    _ = (pivots.zip rows).foldl (fun v p => step v p.1 (some p.2)) v := by rw [List.foldl_map]

section Vectors

variable {e : Elimination (PackedRow cols)} (hlength : e.pivots.length = e.reduced.length)

include hlength

theorem kernelVector_number (hpivots : ∀ p ∈ e.pivots, p < cols) {free : Nat} (hfree : free < cols) :
    BitMatrix.kernelVector (numbered e) free = number (e.kernelVector free) := by
  have hplaces : e.kernelVector free = (e.pivots.zip e.reduced).foldl
      (fun v p => if bit p.2 free then BitRow.flip v p.1 else v) (BitRow.flip zero free) :=
    foldl_places hlength (fun v p row => if row.any (bit · free) then BitRow.flip v p else v) (BitRow.flip zero free)
  have hfold : ∀ (ps : List (Nat × PackedRow cols)), (∀ p ∈ ps, p.1 < cols) → ∀ v : PackedRow cols,
      ps.foldl (fun v p => if bit p.2 free then v ^^^ 1 <<< p.1 else v) (number v) =
        number (ps.foldl (fun (v : PackedRow cols) p => if bit p.2 free then BitRow.flip v p.1 else v) v) := by
    intro ps hps
    induction ps with
    | nil => exact fun _ => rfl
    | cons p rest ih =>
      obtain ⟨hp, hrest⟩ := List.forall_mem_cons.mp hps
      intro v
      rw [List.foldl_cons, List.foldl_cons, ← ih hrest]
      split
      · rw [number_flip v (lt_capacity hp)]
      · rfl
  have hstart : number (BitRow.flip zero free : PackedRow cols) = 1 <<< free := by
    rw [number_flip _ (lt_capacity hfree), number_zero, Nat.zero_xor]
  rw [hplaces, ← hfold _ (fun p hp => hpivots _ (List.of_mem_zip hp).1), hstart, BitMatrix.kernelVector, numbered,
    List.zip_map_right, List.foldl_map]
  simp only [Prod.map_fst, Prod.map_snd, id, testBit_number]

theorem residue_number (v : PackedRow cols) : BitMatrix.residue (numbered e) (number v) = number (e.residue v) := by
  have hplaces : e.residue v = (e.pivots.zip e.reduced).foldl (fun v p => clear p.1 p.2 v) v :=
    foldl_places hlength (fun v p row => if bit v p then row.elim v (add v) else v) v
  rw [hplaces, BitMatrix.residue, numbered, List.zip_map_right, List.foldl_map]
  exact List.foldl_hom number fun v p => (number_clear p.1 p.2 v).symm

end Vectors

end PackedRow

/-! ## The same answers -/

namespace PackedMatrix

open BitRow PackedRow

/-- The matrix of the rows' numbers. -/
def number (m : PackedMatrix) : BitMatrix := ⟨m.cols, m.rows.map PackedRow.number⟩

variable (m m' : PackedMatrix)

theorem number_inj : number m = number m' ↔ m = m' := by
  refine ⟨fun h => ?_, fun h => h ▸ rfl⟩
  obtain ⟨cols, rows⟩ := m
  obtain ⟨cols', rows'⟩ := m'
  obtain ⟨hcols, hrows⟩ := BitMatrix.mk.inj h
  obtain rfl : cols = cols' := hcols
  exact congrArg _ (number_injective.list_map hrows)

theorem beq_number : (number m == number m') = (m == m') := by
  rw [Bool.eq_iff_iff, beq_iff_eq, beq_iff_eq, number_inj]

theorem number_zeros (rows cols : Nat) : number (.zeros rows cols) = .zeros rows cols := by
  rw [number, RowMatrix.zeros, List.map_replicate, number_zero]
  rfl

theorem ofSupports?_number (cols : Nat) (supports : List (List Nat)) :
    (RowMatrix.ofSupports? cols supports : Option PackedMatrix).map number = BitMatrix.ofSupports? cols supports := by
  have hrows : (supports.mapM vector? : Option (List (PackedRow cols))).map (List.map PackedRow.number) =
      supports.mapM (BitMatrix.vector? cols) := by
    rw [mapM_option_map]
    exact congrArg (supports.mapM ·) (funext vector?_number)
  rw [BitMatrix.ofSupports?, ← hrows, RowMatrix.ofSupports?]
  cases (supports.mapM vector? : Option (List (PackedRow cols))) <;> rfl

theorem get?_number (r c : Nat) : (number m).get? r c = m.get? r c := by
  show (if c < BitMatrix.capacity m.cols then ((m.rows.map PackedRow.number)[r]?).map (·.testBit c) else none) =
    if c < BitMatrix.capacity m.cols then (m.rows[r]?).map (bit · c) else none
  rw [List.getElem?_map, Option.map_map]
  simp only [Function.comp_def, testBit_number]

theorem flip?_number (r c : Nat) : (m.flip? r c).map number = (number m).flip? r c := by
  show (if c < BitMatrix.capacity m.cols ∧ r < m.rows.length then some (m.flip r c) else none).map number =
    if c < BitMatrix.capacity m.cols ∧ r < (m.rows.map PackedRow.number).length then
      some ⟨m.cols, (m.rows.map PackedRow.number).modify r (· ^^^ 1 <<< c)⟩ else none
  rw [List.length_map]
  split
  · rename_i hin
    rw [Option.map_some, modify_map (fun v => number_flip v hin.1)]
    rfl
  · rfl

theorem supports_number : (number m).supports = m.supports := by
  show (m.rows.map PackedRow.number).map (BitMatrix.support m.cols) = m.rows.map (support m.cols)
  rw [List.map_map]
  exact List.map_congr_left fun v _ => support_number v

theorem echelon_number : (number m).echelon = numbered m.elimination ∧
    m.elimination.pivots.length = m.elimination.reduced.length := by
  have hreaches := @run_append m.cols (List.range m.cols) [] m.rows [] rfl
  exact ⟨hreaches.numbered.symm, hreaches.length⟩

/-- The same reduced rows and the same pivots. -/
theorem rref_number : (number m).rref = (number m.rref.1, m.rref.2) := by
  obtain ⟨hechelon, hlength⟩ := echelon_number m
  rw [BitMatrix.rref, hechelon, numbered, List.map_fst_zip (by simp [hlength]), List.map_snd_zip (by simp [hlength])]
  rfl

theorem rank_number : (number m).rank = m.rank := by
  obtain ⟨hechelon, hlength⟩ := echelon_number m
  rw [BitMatrix.rank, hechelon, numbered, List.length_zip, List.length_map, ← hlength, Nat.min_self]
  rfl

theorem kernel_number : (number m).kernel = number m.kernel := by
  obtain ⟨hechelon, hlength⟩ := echelon_number m
  have hpivots : (numbered m.elimination).map (·.1) = m.elimination.pivots := List.map_fst_zip (by simp [hlength])
  unfold number RowMatrix.kernel Elimination.kernel
  rw [List.map_map, BitMatrix.kernel, ← number, hechelon, hpivots]
  refine congrArg (BitMatrix.mk m.cols) (List.map_congr_left fun free hfree => ?_)
  exact kernelVector_number hlength (Represents.pivots_lt m) (List.mem_range.mp (List.mem_filter.mp hfree).1)

theorem contains?_number (support : List Nat) : (number m).contains? support = m.contains? support := by
  obtain ⟨hechelon, hlength⟩ := echelon_number m
  rw [BitMatrix.contains?, RowMatrix.contains?, show (number m).cols = m.cols from rfl, ← vector?_number, hechelon,
    Option.map_map]
  exact Option.map_congr fun v _ => by rw [Function.comp_apply, residue_number hlength, isZero_eq]

theorem parity_number {cols : Nat} (row : PackedRow cols) (indices : List Nat) :
    BitMatrix.parity (PackedRow.number row) indices = ((indices.filter (bit row)).length % 2 == 1) := by
  have hfold : ∀ b, indices.foldl (fun b c => b ^^ (PackedRow.number row).testBit c) b =
      (b ^^ ((indices.filter (bit row)).length % 2 == 1)) := by
    induction indices with
    | nil => simp
    | cons c rest ih =>
      intro b
      rw [List.foldl_cons, ih, testBit_number, List.filter_cons]
      cases bit row c with
      | false => simp
      | true =>
        rcases Nat.mod_two_eq_zero_or_one (rest.filter (bit row)).length with heven | hodd
        · simp [Nat.add_mod, heven]
        · simp [Nat.add_mod, hodd]
  rw [BitMatrix.parity, hfold, Bool.false_xor]

theorem mul?_number (support : List Nat) : (number m).mul? support = m.mul? support := by
  rw [BitMatrix.mul?, RowMatrix.mul?, number, List.mapM_map]
  exact congrArg (m.rows.mapM ·) (funext fun row => by rw [Function.comp_apply, parity_number, fits_eq])

/-- The same vector is found. -/
theorem minWeightLogical?_number (x z : PackedMatrix) :
    BitMatrix.minWeightLogical? (number x) (number z) = RowMatrix.minWeightLogical? x z := by
  obtain ⟨hechelon, hlength⟩ := echelon_number z
  have hcandidates : x.kernel.supports.mapM (fun s => (BitMatrix.vector? z.cols s).map fun v =>
      (s, BitMatrix.residue (numbered z.elimination) v)) = (x.kernel.supports.mapM fun s =>
        (vector? s).map fun v => (s, z.elimination.residue v)).map (List.map (Prod.map id PackedRow.number)) := by
    rw [mapM_option_map]
    refine congrArg (x.kernel.supports.mapM ·) (funext fun s => ?_)
    rw [← vector?_number, Option.map_map, Option.map_map]
    exact Option.map_congr fun v _ => congrArg (Prod.mk s) (residue_number hlength v)
  rw [BitMatrix.minWeightLogical?, kernel_number, supports_number, hechelon]
  show (x.kernel.supports.mapM (fun s => (BitMatrix.vector? z.cols s).map fun v =>
    (s, BitMatrix.residue (numbered z.elimination) v))).bind _ = _
  rw [hcandidates, RowMatrix.minWeightLogical?]
  show _ = (x.kernel.supports.mapM fun s => (vector? s).map fun v => (s, z.elimination.residue v)).bind _
  rw [Option.bind_map]
  refine congrArg (Option.bind _) (funext fun candidates => congrArg (fun found => some (BitMatrix.shortest? found)) ?_)
  rw [List.filter_map, List.map_map]
  refine congrArg₂ List.map rfl (List.filter_congr fun p _ => ?_)
  show decide (PackedRow.number p.2 ≠ 0) = !isZero p.2
  rw [isZero_eq, decide_not, beq_eq_decide]

end PackedMatrix

end QuantumMemory

/-
  QuantumMemory.Proofs.Family.Checkerboard — plaquettes of two colours on a square board.

  A board has `d` lines of `d` cells, both counted from one, with values modulo two, and is
  zero outside. A plaquette is the sum of the four values around a corner. The corners
  between two lines (`BetweenLines`) and the corners inside the board's lines (`AlongLines`) are of
  two colours, as on a checkerboard.

  A weight on the corners of one colour is known from the cells around each of them
  (`independent`). Where all plaquettes between lines vanish, the sum of a line up to a
  corner of the other colour does not change from line to line (`upTo_eq`). So all lines
  are of one parity (`line_eq`), as is the diagonal (`diagonal_eq`), and if that is even, these sums are weights for the
  corners along the lines that give the board back (`plaquette_spanner`). Conversely, such weights
  make all lines even (`line_of_span`).
-/

import Mathlib.Algebra.BigOperators.Intervals
import Mathlib.Algebra.CharP.Two
import Mathlib.Algebra.Field.ZMod
import Mathlib.Data.ZMod.Basic
import Mathlib.Tactic.LinearCombination
import Mathlib.Tactic.Ring

namespace QuantumMemory

namespace Checkerboard

variable {d p : Nat} {G t : Nat → Nat → ZMod 2}

def plaquette (G : Nat → Nat → ZMod 2) (u v : Nat) : ZMod 2 := G u v + G (u + 1) v + G u (v + 1) + G (u + 1) (v + 1)

/-- The four places that a plaquette adds. -/
def square (u v : Nat) : Finset (Nat × Nat) := {u, u + 1} ×ˢ {v, v + 1}

theorem mem_square {u v : Nat} {w : Nat × Nat} : w ∈ square u v ↔ (w.1 = u ∨ w.1 = u + 1) ∧ (w.2 = v ∨ w.2 = v + 1) := by
  simp [square]

theorem plaquette_eq_sum (G : Nat → Nat → ZMod 2) (u v : Nat) : plaquette G u v = ∑ w ∈ square u v, G w.1 w.2 := by
  rw [square, Finset.sum_product, Finset.sum_pair (by omega), Finset.sum_pair (by omega), Finset.sum_pair (by omega),
    plaquette]
  ring

theorem plaquette_turned (G : Nat → Nat → ZMod 2) (u v : Nat) : plaquette (fun u v => G v u) u v = plaquette G v u := by
  unfold plaquette
  ring

/-- Zero outside the board. -/
def Inside (d : Nat) (G : Nat → Nat → ZMod 2) : Prop := ∀ u v, G u v ≠ 0 → 1 ≤ u ∧ u ≤ d ∧ 1 ≤ v ∧ v ≤ d

theorem Inside.turned (h : Inside d G) : Inside d fun u v => G v u := by
  intro u v hne
  obtain ⟨h1, h2, h3, h4⟩ := h v u hne
  exact ⟨h3, h4, h1, h2⟩

/-- The corners of a colour between two lines. -/
def BetweenLines (d p u v : Nat) : Prop := 1 ≤ u ∧ u < d ∧ v ≤ d ∧ (u + v) % 2 = p

/-- The corners of the other colour between two cells of a line. -/
def AlongLines (d p u v : Nat) : Prop := u ≤ d ∧ 1 ≤ v ∧ v < d ∧ (u + v + 1) % 2 = p

instance (d p u v : Nat) : Decidable (AlongLines d p u v) := inferInstanceAs (Decidable (_ ∧ _))

/-- The sum of a line up to a cell. -/
def upTo (G : Nat → Nat → ZMod 2) (u v : Nat) : ZMod 2 := ∑ b ∈ Finset.range (v + 1), G u b

theorem upTo_succ (u v : Nat) : upTo G u (v + 1) = upTo G u v + G u (v + 1) := Finset.sum_range_succ _ _

theorem upTo_zero (hG : Inside d G) (u : Nat) : upTo G u 0 = 0 := by
  by_contra hne
  have h := hG u 0 (by simpa [upTo] using hne)
  omega

theorem plaquette_eq_zero {u v : Nat} (h : plaquette G u v = 0) : G u v + G u (v + 1) = G (u + 1) v + G (u + 1) (v + 1) := by
  refine CharTwo.add_eq_zero.mp ?_
  rw [← h, plaquette]
  ring

/-! ## Weights on corners of one colour -/

/-- A corner of one colour has a cell that no later corner of that colour touches. -/
theorem independent (ht : ∀ u v, t u v ≠ 0 → BetweenLines d p u v)
    (h : ∀ i j, i < d → j < d → plaquette t i j = 0) : ∀ u v, t u v = 0 := by
  have hcolour : ∀ u v, BetweenLines d p u v → t u (v + 1) = 0 ∧ ∀ j, v = j + 1 → t u j = 0 := by
    intro u v hb
    obtain ⟨-, -, -, hv⟩ := hb
    refine ⟨?_, fun j hj => ?_⟩
    · by_contra hne
      have hne' := (ht _ _ hne).2.2.2
      omega
    · by_contra hne
      have hne' := (ht _ _ hne).2.2.2
      omega
  intro u
  induction u with
  | zero =>
    intro v
    by_contra hne
    have hb := (ht 0 v hne).1
    omega
  | succ u ih =>
    intro v
    by_contra hne
    have hb := ht _ _ hne
    have hu := hb.2.1
    have hv := hb.2.2.1
    obtain ⟨hnext, hprev⟩ := hcolour _ _ hb
    by_cases hlast : v < d
    · have hcell := h u v (by omega) hlast
      rw [plaquette, ih, ih, hnext, zero_add, add_zero, add_zero] at hcell
      exact hne hcell
    · obtain ⟨j, rfl⟩ : ∃ j, v = j + 1 := ⟨v - 1, by omega⟩
      have hcell := h u j (by omega) (by omega)
      rw [plaquette, ih, ih, hprev j rfl, zero_add, zero_add, zero_add] at hcell
      exact hne hcell

/-! ## Boards whose plaquettes between lines vanish -/

section Even

variable (hG : Inside d G) (heven : ∀ u v, BetweenLines d p u v → plaquette G u v = 0)

include hG heven

/-- Up to a corner of the other colour neighbouring lines have one sum: two cells at a time
    from the first. -/
theorem upTo_eq {u : Nat} (h1 : 1 ≤ u) (h2 : u < d) :
    ∀ v, v ≤ d + 1 → (u + v + 1) % 2 = p → upTo G u v = upTo G (u + 1) v
  | 0, _, _ => by rw [upTo_zero hG, upTo_zero hG]
  | 1, _, hp => by
    have hfirst := plaquette_eq_zero (heven u 0 ⟨h1, h2, Nat.zero_le d, by omega⟩)
    simpa only [upTo, Finset.sum_range_succ, Finset.sum_range_zero, zero_add] using hfirst
  | v + 2, hv, hp => by
    have hnext := plaquette_eq_zero (heven u (v + 1) ⟨h1, h2, by omega, by omega⟩)
    have hsum := upTo_eq h1 h2 v (by omega) (by omega)
    have htwo : ∀ w, upTo G w (v + 2) = upTo G w v + (G w (v + 1) + G w (v + 2)) := by
      intro w
      rw [upTo_succ, upTo_succ, add_assoc]
    rw [htwo, htwo, hsum, hnext]

theorem line_step (hp : p < 2) {u : Nat} (h1 : 1 ≤ u) (h2 : u < d) : upTo G u d = upTo G (u + 1) d := by
  by_cases hcolour : (u + d + 1) % 2 = p
  · exact upTo_eq hG heven h1 h2 d (Nat.le_succ d) hcolour
  · have houtside : ∀ w, G w (d + 1) = 0 := by
      intro w
      by_contra hne
      have hin := hG _ _ hne
      omega
    have hpast := upTo_eq hG heven h1 h2 (d + 1) (Nat.le_refl _) (by omega)
    rwa [upTo_succ, upTo_succ, houtside, houtside, add_zero, add_zero] at hpast

/-- All lines have one parity. -/
theorem line_eq (hp : p < 2) {u u' : Nat} (h1 : 1 ≤ u) (h2 : u ≤ d) (h1' : 1 ≤ u') (h2' : u' ≤ d) :
    upTo G u d = upTo G u' d := by
  have hfirst : ∀ n, n < d → upTo G (n + 1) d = upTo G 1 d := by
    intro n
    induction n with
    | zero => exact fun _ => rfl
    | succ n ih =>
      intro hn
      rw [← line_step hG heven hp (Nat.succ_pos n) hn]
      exact ih (by omega)
  obtain ⟨n, rfl⟩ : ∃ n, u = n + 1 := ⟨u - 1, by omega⟩
  obtain ⟨n', rfl⟩ : ∃ n, u' = n + 1 := ⟨u' - 1, by omega⟩
  rw [hfirst n (by omega), hfirst n' (by omega)]

/-- The diagonal turns into a line: each further cell comes with the line before it up to there. -/
theorem diagonal_eq (hp : p = 1) : ∀ n ≤ d, ∑ k ∈ Finset.range (n + 1), G k k = upTo G n n := by
  intro n
  induction n with
  | zero =>
    intro _
    rw [upTo, Finset.sum_range_one, Finset.sum_range_one]
  | succ n ih =>
    intro hn
    have hline : upTo G n n = upTo G (n + 1) n := by
      rcases Nat.eq_zero_or_pos n with rfl | hpos
      · rw [upTo_zero hG, upTo_zero hG]
      · exact upTo_eq hG heven hpos hn n (by omega) (by omega)
    rw [Finset.sum_range_succ, ih (by omega), hline, upTo_succ]

end Even

/-! ## Boards as sums of plaquettes along lines -/

/-- At a corner along the lines, the sum of the line before it or, at the edge, behind it. -/
def spanner (d p : Nat) (G : Nat → Nat → ZMod 2) (u v : Nat) : ZMod 2 := if AlongLines d p u v then upTo G (max u 1) v else 0

theorem spanner_off {u v : Nat} (h : (u + v + 1) % 2 ≠ p) : spanner d p G u v = 0 := if_neg fun ha => h ha.2.2.2

section Spanned

variable (hG : Inside d G) (heven : ∀ u v, BetweenLines d p u v → plaquette G u v = 0)
  (hline : ∀ u, 1 ≤ u → u ≤ d → upTo G u d = 0)

include hG heven hline

/-- The weight of a corner is the sum of either line that it stands at. -/
theorem spanner_eq {a u v : Nat} (h1 : 1 ≤ a) (h2 : a ≤ d) (hu : u = a ∨ u + 1 = a) (hv : v ≤ d)
    (hp : (u + v + 1) % 2 = p) : spanner d p G u v = upTo G a v := by
  unfold spanner
  by_cases hfirst : v = 0
  · subst hfirst
    rw [if_neg (fun ha => absurd ha.2.1 (by omega)), upTo_zero hG]
  by_cases hlast : v = d
  · subst hlast
    rw [if_neg (fun ha => absurd ha.2.2.1 (by omega)), hline a h1 h2]
  rw [if_pos ⟨by omega, by omega, by omega, hp⟩]
  rcases hu with rfl | rfl
  · rw [max_eq_left h1]
  · by_cases hedge : u = 0
    · subst hedge
      rfl
    · rw [max_eq_left (by omega)]
      exact upTo_eq hG heven (by omega) (by omega) v (by omega) hp

/-- Every cell is the sum of its plaquette of weights. -/
theorem plaquette_spanner (hp : p < 2) {i j : Nat} (hi : i < d) (hj : j < d) :
    plaquette (spanner d p G) i j = G (i + 1) (j + 1) := by
  have hweight := fun u v => @spanner_eq d p G hG heven hline (i + 1) u v (by omega) hi
  have hcell : upTo G (i + 1) j + upTo G (i + 1) (j + 1) = G (i + 1) (j + 1) := by
    rw [upTo_succ, ← add_assoc, CharTwo.add_self_eq_zero, zero_add]
  unfold plaquette
  by_cases hcolour : (i + j + 1) % 2 = p
  · rw [hweight i j (by omega) (by omega) (by omega), hweight (i + 1) (j + 1) (by omega) (by omega) (by omega),
      spanner_off (by omega), spanner_off (by omega), add_zero, add_zero, hcell]
  · rw [hweight (i + 1) j (by omega) (by omega) (by omega), hweight i (j + 1) (by omega) (by omega) (by omega),
      spanner_off (by omega), spanner_off (by omega), zero_add, add_zero, hcell]

end Spanned

/-- An even board with an empty line is a sum of plaquettes along lines. -/
theorem spanned_of_empty (hp : p < 2) (hG : Inside d G) (heven : ∀ u v, BetweenLines d p u v → plaquette G u v = 0) {u : Nat}
    (h1 : 1 ≤ u) (h2 : u ≤ d) (hempty : ∀ v, G u v = 0) :
    ∃ t : Nat → Nat → ZMod 2, (∀ u v, t u v ≠ 0 → AlongLines d p u v) ∧
      ∀ i j, i < d → j < d → plaquette t i j = G (i + 1) (j + 1) := by
  have hline : ∀ u, 1 ≤ u → u ≤ d → upTo G u d = 0 := by
    intro u' h1' h2'
    rw [line_eq hG heven hp h1' h2' h1 h2]
    exact Finset.sum_eq_zero fun v _ => hempty v
  refine ⟨spanner d p G, fun u v hne => ?_, fun i j hi hj => plaquette_spanner hG heven hline hp hi hj⟩
  by_contra hoff
  exact hne (if_neg hoff)

/-- Weights on corners along the lines make all lines even: each corner touches a line
    twice or not at all. -/
theorem line_of_span (hG : Inside d G) (ht : ∀ u v, t u v ≠ 0 → AlongLines d p u v)
    (hspan : ∀ i j, i < d → j < d → plaquette t i j = G (i + 1) (j + 1)) {i : Nat} (hi : i < d) :
    upTo G (i + 1) d = 0 := by
  have hends : ∀ u v, v = 0 ∨ v = d → t u v = 0 := by
    intro u v hv
    by_contra hne
    obtain ⟨-, h1, h2, -⟩ := ht u v hne
    omega
  have hpart : ∀ n ≤ d, upTo G (i + 1) n = t i n + t (i + 1) n := by
    intro n
    induction n with
    | zero =>
      intro _
      rw [upTo_zero hG, hends _ _ (.inl rfl), hends _ _ (.inl rfl), add_zero]
    | succ n ih =>
      intro hn
      rw [upTo_succ, ih (by omega), ← hspan i n hi (by omega)]
      unfold plaquette
      have hcancel : t i n + t (i + 1) n + (t i n + t (i + 1) n) = 0 := CharTwo.add_self_eq_zero _
      linear_combination hcancel
  rw [hpart d (Nat.le_refl d), hends _ _ (.inr rfl), hends _ _ (.inr rfl), add_zero]

end Checkerboard

end QuantumMemory

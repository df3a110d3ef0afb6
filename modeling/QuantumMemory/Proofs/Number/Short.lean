/-
  QuantumMemory.Proofs.Number.Short — numbers of few digits are read back from their literals.

  An integer below the 53rd power of two is a number of its own, with a power of two behind it too (`exists_units`),
  and the powers of ten up to the 22nd are such. So a literal whose digits make an integer of 53 bits, at most 22
  places behind the point, is rounded only once, at the division (`number?_of_digits`), and that is what the
  nearest number to a decimal is. Whatever number is written with such a literal is read back
  (`readsBack_of_short`).

  - `readsBack_half`: halves up to a million, which the coordinates of a lattice are, are read back.
-/

import QuantumMemory.Proofs.Number.Literal

namespace QuantumMemory

namespace Magnitude

/-- A significand before any power of two in range. -/
theorem exists_units {c s : Nat} (hc : c < 2 ^ 53) (hlow : 52 ≤ s) (hhigh : s ≤ 2045) :
    ∃ m : Magnitude, m.units = c * 2 ^ s := by
  by_cases hzero : c = 0
  · exact ⟨zero, by rw [hzero, Nat.zero_mul]; exact (units_eq_zero_iff _).mpr rfl⟩
  -- Moved up until its first bit is that of a binade.
  obtain ⟨k, hk⟩ : ∃ k, k = 52 - c.log2 := ⟨_, rfl⟩
  have hlog : c.log2 ≤ 52 := Nat.lt_succ_iff.mp ((Nat.log2_lt hzero).mpr hc)
  have hfirst : binade ≤ c * 2 ^ k := by
    calc binade = 2 ^ c.log2 * 2 ^ k := by rw [← pow_add, binade_eq]; congr 1; omega
      _ ≤ c * 2 ^ k := Nat.mul_le_mul_right _ (Nat.log2_self_le hzero)
  have hlast : c * 2 ^ k < 2 * binade := by
    calc c * 2 ^ k < 2 ^ (c.log2 + 1) * 2 ^ k := Nat.mul_lt_mul_of_pos_right Nat.lt_log2_self (Nat.two_pow_pos _)
      _ = 2 * binade := by rw [← pow_add, binade_eq, ← pow_succ']; congr 1; omega
  have hsplit : (s - k) * binade + c * 2 ^ k = (s - k + 1) * binade + (c * 2 ^ k - binade) := by
    rw [Nat.succ_mul]
    omega
  have hquot : ((s - k) * binade + c * 2 ^ k) / binade = s - k + 1 := by
    rw [hsplit, Nat.mul_comm, Nat.mul_add_div (by decide), Nat.div_eq_of_lt (by omega), Nat.add_zero]
  have hrank : (s - k) * binade + c * 2 ^ k < 2047 * binade := by
    have hbound := Nat.mul_le_mul_right binade (show s - k ≤ 2045 by omega)
    omega
  refine ⟨⟨_, hrank⟩, ?_⟩
  rw [units_eq, shift, hquot, Nat.add_sub_cancel, Nat.add_sub_cancel_left, Nat.mul_assoc, ← pow_add]
  congr 2
  omega

theorem unitsPerOne_eq_two_pow {n : Nat} (hn : n = 1074) : unitsPerOne = 2 ^ n := by
  rw [unitsPerOne, ← hn, Nat.shiftLeft_eq, Nat.one_mul]

theorem unitsPerOne_pos : 0 < unitsPerOne := by
  obtain ⟨n, hn⟩ : ∃ n, n = 1074 := ⟨_, rfl⟩
  rw [unitsPerOne_eq_two_pow hn]
  exact Nat.two_pow_pos n

/-- An integer of 53 bits, and half of it, are numbers. -/
theorem exists_whole {c : Nat} (hc : c < 2 ^ 53) : ∃ m : Magnitude, m.units = c * unitsPerOne := by
  obtain ⟨n, hn⟩ : ∃ n, n = 1074 := ⟨_, rfl⟩
  obtain ⟨m, hm⟩ := exists_units (s := n) hc (by omega) (by omega)
  exact ⟨m, by rw [hm, unitsPerOne_eq_two_pow hn]⟩

theorem exists_half {c : Nat} (hc : c < 2 ^ 53) : ∃ m : Magnitude, 2 * m.units = c * unitsPerOne := by
  obtain ⟨n, hn⟩ : ∃ n, n = 1073 := ⟨_, rfl⟩
  obtain ⟨m, hm⟩ := exists_units (s := n) hc (by omega) (by omega)
  refine ⟨m, ?_⟩
  rw [hm, unitsPerOne_eq_two_pow (n := n + 1) (by omega), pow_succ]
  ring

/-- The powers of ten up to the 22nd are numbers: their powers of five have 53 bits. -/
theorem exists_powerOfTen {e : Nat} (he : e ≤ 22) : ∃ m : Magnitude, m.units = powerOfTen e * unitsPerOne := by
  obtain ⟨n, hn⟩ : ∃ n, n = 1074 := ⟨_, rfl⟩
  have hfive : 5 ^ e < 2 ^ 53 := (Nat.pow_le_pow_right (by decide) he).trans_lt (by decide)
  obtain ⟨m, hm⟩ := exists_units (s := n + e) hfive (by omega) (by omega)
  refine ⟨m, ?_⟩
  have hten : powerOfTen e = 5 ^ e * 2 ^ e := by rw [← Nat.mul_pow]; rfl
  rw [hm, hten, unitsPerOne_eq_two_pow hn, pow_add]
  ring

/-- Equal ratios are rounded alike. -/
theorem nearest?_congr {a b c d : Nat} (hb : 0 < b) (hd : 0 < d) (h : a * d = c * b) : nearest? a b = nearest? c d := by
  have hrank : roundedRank (a * unitsPerOne) b = roundedRank (c * unitsPerOne) d := by
    have hunits : a * unitsPerOne * d = c * unitsPerOne * b := by
      rw [Nat.mul_right_comm, h, Nat.mul_right_comm]
    exact le_antisymm (roundedRank_mono hb hd hunits.le) (roundedRank_mono hd hb hunits.ge)
  refine Option.ext fun m => ?_
  rw [nearest?_eq_some_iff, nearest?_eq_some_iff, hrank]

end Magnitude

/-- Digits that make an integer of 53 bits are no more than 16. -/
theorem Decimal.lead_lt {d : Decimal} (hpos : 0 < d.coefficient)
    (hdigits : d.coefficient * 10 ^ (d.exponent.toNat + 1) < 2 ^ 53) : d.exponent + d.digits.length < 16 := by
  have hlength : 0 < d.digits.length := List.length_pos_iff.mpr d.digits_ne_nil
  have hfirst : 10 ^ (d.digits.length - 1) ≤ d.coefficient := by
    rcases Nat.eq_zero_or_pos (d.digits.length - 1) with hone | hmore
    · rw [hone]
      exact hpos
    · have hmany : ¬d.digits.length ≤ d.digits.length - 1 := by omega
      exact Nat.not_lt.mp fun hless => hmany ((Nat.length_toDigits_le_iff (by decide) hmore).mpr hless)
  have hpower : 10 ^ (d.digits.length + d.exponent.toNat) < 10 ^ 16 := by
    calc 10 ^ (d.digits.length + d.exponent.toNat) = 10 ^ (d.digits.length - 1) * 10 ^ (d.exponent.toNat + 1) := by
          rw [← pow_add]
          congr 1
          omega
      _ ≤ d.coefficient * 10 ^ (d.exponent.toNat + 1) := Nat.mul_le_mul_right _ hfirst
      _ < 10 ^ 16 := hdigits.trans (by decide)
  have hplaces := (Nat.pow_lt_pow_iff_right (by decide)).mp hpower
  omega

namespace Numeral

open Magnitude

/-- Few digits are scaled down with one rounding. -/
theorem scaled?_eq_nearest? {c e : Nat} (hc : c < 2 ^ 53) (hpos : 0 < e) (he : e ≤ 22) {m : Magnitude}
    (hm : nearest? c (powerOfTen e) = some m) : scaled? c (-(e : Int)) = some m := by
  have hdown : (- -(e : Int)).toNat = e := by omega
  have hneg : ¬0 ≤ -(e : Int) := by omega
  have hbound : e ≤ 308 := by omega
  obtain ⟨whole, hwhole⟩ := exists_whole hc
  obtain ⟨power, hpower⟩ := exists_powerOfTen he
  have hc' : nearest? c 1 = some whole := nearest?_exact Nat.one_pos (by rw [hwhole, Nat.mul_one])
  have hten : nearest? (powerOfTen e) 1 = some power := nearest?_exact Nat.one_pos (by rw [hpower, Nat.mul_one])
  have hratio : nearest? whole.units power.units = some m := by
    rw [← hm]
    refine nearest?_congr ?_ (powerOfTen_pos e) ?_
    · rw [hpower]
      exact Nat.mul_pos (powerOfTen_pos e) unitsPerOne_pos
    · rw [hwhole, hpower]
      ring
  have hdivide : divide whole e = m := by rw [divide, hten, Option.bind_some, hratio, Option.getD_some]
  simp only [scaled?, hc', Option.bind_eq_bind, Option.bind_some, hneg, if_false, hdown, scaleDown, hbound, if_true,
    hdivide]

/-- Further digits make no number smaller. -/
theorem le_ofDigitChars (cs : List Char) (k : Nat) : k ≤ Nat.ofDigitChars 10 cs k := by
  rw [Nat.ofDigitChars_eq_ofDigitChars_zero]
  exact (Nat.le_mul_of_pos_left k (Nat.pow_pos (by decide))).trans (Nat.le_add_right _ _)

/-- Digits whose value fits 64 bits are all read. -/
theorem foldl_whole (cs : List Char) (k : Nat) (h : Nat.ofDigitChars 10 cs k ≤ naturalBound) :
    cs.foldl Leading.whole ⟨k, 0⟩ = ⟨Nat.ofDigitChars 10 cs k, 0⟩ := by
  induction cs generalizing k with
  | nil => rfl
  | cons c rest ih =>
    rw [Nat.ofDigitChars_cons, Nat.mul_comm] at h ⊢
    have hnext := (le_ofDigitChars rest _).trans h
    rw [List.foldl_cons, ← ih _ h]
    simp only [Leading.whole, hnext, and_self, if_true]

theorem places_eq (cs : List Char) (k : Nat) (h : Nat.ofDigitChars 10 cs k ≤ naturalBound) :
    Leading.places k cs = (Nat.ofDigitChars 10 cs k, cs.length) := by
  induction cs generalizing k with
  | nil => rfl
  | cons c rest ih =>
    rw [Nat.ofDigitChars_cons, Nat.mul_comm] at h ⊢
    have hnext := (le_ofDigitChars rest _).trans h
    simp only [Leading.places, hnext, if_true, ih _ h, List.length_cons]

/-- Digits of 53 bits, some behind the point, are read as the nearest number. -/
theorem number?_of_digits {n : Numeral} (hpoint : n.isInteger = false) {c e : Nat}
    (hvalue : Nat.ofDigitChars 10 (n.whole ++ n.fraction) 0 = c) (hc : c < 2 ^ 53)
    (hplaces : n.exponent.getD 0 - n.fraction.length = -(e : Int)) (hpos : 0 < e) (he : e ≤ 22) {m : Magnitude}
    (hm : nearest? c (powerOfTen e) = some m) : n.number? = some (.finite n.negative m) := by
  have hbound : c ≤ naturalBound := hc.le.trans (by decide)
  have hinteger : n.integer? = none := by rw [integer?, hpoint]; rfl
  have hsplit : Nat.ofDigitChars 10 n.fraction (Nat.ofDigitChars 10 n.whole 0) = c := by
    rw [← Nat.ofDigitChars_append, hvalue]
  have hwhole := foldl_whole n.whole 0 ((le_ofDigitChars n.fraction _).trans (hsplit ▸ hbound))
  have hfraction := places_eq n.fraction (Nat.ofDigitChars 10 n.whole 0) (hsplit ▸ hbound)
  have hscaled := scaled?_eq_nearest? hc hpos he hm
  simp only [number?, hinteger, hwhole, hfraction, hsplit, Nat.cast_zero, add_zero, hplaces, hscaled,
    Option.bind_eq_bind, Option.bind_some, Option.pure_def]

/-- The decimal places of a literal, less its exponent, are those of the decimal. -/
theorem number?_ofDecimal (negative : Bool) {d : Decimal} (hpos : 0 < d.coefficient)
    (hdigits : d.coefficient * 10 ^ (d.exponent.toNat + 1) < 2 ^ 53) (hplaces : -22 ≤ d.exponent) {m : Magnitude}
    (hm : d.magnitude? = some m) : (ofDecimal negative d).number? = some (.finite negative m) := by
  have hlead := d.lead_lt hpos hdigits
  have hlength := List.length_pos_iff.mpr d.digits_ne_nil
  have hvalue := d.ofDigitChars_digits
  have hcoefficient : d.coefficient < 2 ^ 53 :=
    (Nat.le_mul_of_pos_right _ (Nat.pow_pos (by decide))).trans_lt hdigits
  simp only [ofDecimal]
  rcases lt_or_ge d.exponent 0 with hneg | hnonneg
  · obtain ⟨e, he⟩ : ∃ e : Nat, d.exponent = -(e : Int) := ⟨(-d.exponent).toNat, by omega⟩
    have hratio : nearest? d.coefficient (powerOfTen e) = some m := by
      have hnone : d.exponent.toNat = 0 := by omega
      have hall : (-d.exponent).toNat = e := by omega
      rw [← hm, Decimal.magnitude?, hnone, hall, show powerOfTen 0 = 1 from rfl, Nat.mul_one]
    split
    · refine number?_of_digits (c := d.coefficient) (e := e) ?_ ?_ hcoefficient ?_ (by omega) (by omega) hratio
      · simp [isInteger]
      · rw [List.take_append_drop, hvalue]
      · simp only [Option.getD_some, List.length_drop]
        omega
    · rw [if_neg (by omega)]
      split
      · refine number?_of_digits (c := d.coefficient) (e := e) ?_ ?_ hcoefficient ?_ (by omega) (by omega) hratio
        · simp [isInteger]
          omega
        · rw [List.take_append_drop, hvalue]
        · simp only [Option.getD_none, List.length_drop]
          omega
      · refine number?_of_digits (c := d.coefficient) (e := e) ?_ ?_ hcoefficient ?_ (by omega) (by omega) hratio
        · simp [isInteger, d.digits_ne_nil]
        · rw [Nat.ofDigitChars_append, Nat.ofDigitChars_append, Nat.ofDigitChars_replicate_zero]
          exact hvalue
        · simp only [Option.getD_none, List.length_append, List.length_replicate]
          omega
  · rw [if_neg (by omega), if_pos hnonneg]
    refine number?_of_digits (c := d.coefficient * 10 ^ (d.exponent.toNat + 1)) (e := 1) rfl ?_ hdigits rfl (by decide)
      (by decide) ?_
    · rw [Nat.ofDigitChars_append, Nat.ofDigitChars_append, hvalue, Nat.ofDigitChars_replicate_zero]
      simp only [Nat.ofDigitChars_cons, Nat.ofDigitChars_nil]
      show 10 * (10 ^ d.exponent.toNat * d.coefficient) + 0 = d.coefficient * 10 ^ (d.exponent.toNat + 1)
      ring
    · rw [← hm, Decimal.magnitude?]
      refine nearest?_congr (powerOfTen_pos _) (powerOfTen_pos _) ?_
      rw [show (-d.exponent).toNat = 0 by omega]
      show d.coefficient * 10 ^ (d.exponent.toNat + 1) * 1 = d.coefficient * 10 ^ d.exponent.toNat * 10
      ring

end Numeral

/-! ## The decimals that are written -/

namespace Magnitude

/-- Larger numbers have no smaller leading exponents. -/
theorem leadingExponent_mono {m n : Magnitude} (h : m.units ≤ n.units) : m.leadingExponent ≤ n.leadingExponent := by
  have hscaled : m.units * powerOfTen 400 / unitsPerOne ≤ n.units * powerOfTen 400 / unitsPerOne :=
    Nat.div_le_div_right (Nat.mul_le_mul_right _ h)
  unfold leadingExponent
  generalize m.units * powerOfTen 400 / unitsPerOne = a at hscaled ⊢
  generalize n.units * powerOfTen 400 / unitsPerOne = b at hscaled ⊢
  have hguess : a.log2 * 30102 / 100000 ≤ b.log2 * 30102 / 100000 := by
    rw [Nat.log2_eq_log_two, Nat.log2_eq_log_two]
    exact Nat.div_le_div_right (Nat.mul_le_mul_right _ (Nat.log_mono_right hscaled))
  dsimp only
  split_ifs with ha hb
  · omega
  · -- The same guess cannot be raised for the smaller of the two only.
    rcases hguess.lt_or_eq with hlt | heq
    · omega
    · rw [heq] at ha
      exact absurd (ha.trans hscaled) hb
  · omega
  · omega

/-- A value that has `k + 1` places and no more is found among the decimals with that many. -/
theorem neighbour?_exact (tie : Tie) {m : Magnitude} {n k c : Nat} (hplaces : m.leadingExponent + 1 - n = -(k + 1 : Nat))
    (hvalue : m.units * powerOfTen (k + 1) = c * unitsPerOne) : ∃ d, m.neighbour? tie n = some d := by
  have hdown : (-(m.leadingExponent + 1 - n)).toNat = k + 1 := by rw [hplaces, neg_neg, Int.toNat_natCast]
  have hup : (m.leadingExponent + 1 - n).toNat = 0 := by rw [hplaces, Int.toNat_neg_natCast]
  have hnearer : roundDiv tie (m.units * powerOfTen (k + 1)) (unitsPerOne * powerOfTen 0) = c := by
    rw [hvalue, show powerOfTen 0 = 1 from rfl, Nat.mul_one, roundDiv_mul tie c unitsPerOne_pos]
  have hback : (if c % 10 = 0 then (⟨c / 10, m.leadingExponent + 1 - n + 1⟩ : Decimal)
      else ⟨c, m.leadingExponent + 1 - n⟩).magnitude? = some m := by
    split
    · rename_i hten
      have hnext : m.leadingExponent + 1 - n + 1 = -(k : Int) := by rw [hplaces]; push_cast; ring
      have hdown' : (-(m.leadingExponent + 1 - n + 1)).toNat = k := by
        rw [hnext, neg_neg, Int.toNat_natCast]
      have hup' : (m.leadingExponent + 1 - n + 1).toNat = 0 := by
        rw [hnext, Int.toNat_neg_natCast]
      rw [Decimal.magnitude?, hdown', hup', show powerOfTen 0 = 1 from rfl, Nat.mul_one]
      refine nearest?_exact (powerOfTen_pos k) (Nat.eq_of_mul_eq_mul_right (show 0 < 10 by decide) ?_)
      calc c / 10 * unitsPerOne * 10 = c / 10 * 10 * unitsPerOne := Nat.mul_right_comm _ _ _
        _ = c * unitsPerOne := by rw [Nat.div_mul_cancel (Nat.dvd_of_mod_eq_zero hten)]
        _ = m.units * powerOfTen (k + 1) := hvalue.symm
        _ = m.units * powerOfTen k * 10 := by rw [Nat.mul_assoc]; rfl
    · rw [Decimal.magnitude?, hdown, hup, show powerOfTen 0 = 1 from rfl, Nat.mul_one]
      exact nearest?_exact (powerOfTen_pos (k + 1)) hvalue.symm
  refine Option.isSome_iff_exists.mp (List.findSome?_isSome_iff.mpr ⟨c, List.mem_cons.mpr (.inl ?_), ?_⟩)
  · rw [hdown, hup, hnearer]
  · dsimp only
    rw [if_pos hback, Option.isSome_some]

/-- What is written with `n` digits is one of the two quotients around the value. -/
theorem neighbour?_cases {tie : Tie} {m : Magnitude} {n : Nat} {d : Decimal} (h : m.neighbour? tie n = some d) :
    ∃ c, c ≤ m.units * powerOfTen (-(m.leadingExponent + 1 - n)).toNat /
        (unitsPerOne * powerOfTen (m.leadingExponent + 1 - n).toNat) + 1 ∧
      (d = ⟨c / 10, m.leadingExponent + 1 - n + 1⟩ ∨ d = ⟨c, m.leadingExponent + 1 - n⟩) := by
  obtain ⟨c, hc, hd⟩ := List.exists_of_findSome?_eq_some h
  obtain ⟨-, hd⟩ := Option.ite_none_right_eq_some.mp hd
  refine ⟨c, ?_, ?_⟩
  · have hnearer := (roundDiv_bounds tie (m.units * powerOfTen (-(m.leadingExponent + 1 - n)).toNat)
      (unitsPerOne * powerOfTen (m.leadingExponent + 1 - n).toNat)).2
    rcases List.mem_cons.mp hc with rfl | hc
    · exact hnearer
    · cases List.mem_singleton.mp hc
      split
      · rename_i heq
        rw [heq]
      · exact Nat.le_succ _
  · rw [← Option.some.inj hd]
    split
    · exact .inl rfl
    · exact .inr rfl

/-- With a decimal of `n` digits at hand no longer one is written. -/
theorem shortest_of_neighbour? {tie : Tie} {m : Magnitude} {n : Nat} (hm : m.rank ≠ 0) (hpos : 1 ≤ n) (hn : n ≤ 17)
    {d : Decimal} (h : m.neighbour? tie n = some d) :
    ∃ k, 1 ≤ k ∧ k ≤ n ∧ m.neighbour? tie k = some (m.shortest tie) := by
  have hsplit : List.range' 1 17 = List.range' 1 n ++ List.range' (1 + n) (17 - n) := by
    rw [List.range'_append_1]
    congr 1
    omega
  have hfound : ((List.range' 1 n).findSome? (m.neighbour? tie)).isSome :=
    List.findSome?_isSome_iff.mpr ⟨n, List.mem_range'_1.mpr ⟨hpos, by omega⟩, by rw [h]; rfl⟩
  obtain ⟨e, he⟩ := Option.isSome_iff_exists.mp hfound
  obtain ⟨k, hk, hek⟩ := List.exists_of_findSome?_eq_some he
  obtain ⟨hone, hlast⟩ := List.mem_range'_1.mp hk
  refine ⟨k, hone, by omega, ?_⟩
  rw [shortest, if_neg hm, hsplit, List.findSome?_append, he, hek]
  rfl

/-- Up to a million with at most eight places, the coefficient written is far below 53 bits. -/
theorem neighbour?_short {tie : Tie} {m : Magnitude} {n : Nat} {d : Decimal} (h : m.neighbour? tie n = some d)
    (hm : m.units ≤ 10 ^ 6 * unitsPerOne) (hlow : -8 ≤ m.leadingExponent + 1 - n) (hhigh : m.leadingExponent + 1 - n ≤ 6) :
    d.coefficient * 10 ^ (d.exponent.toNat + 1) < 2 ^ 53 ∧ -22 ≤ d.exponent := by
  obtain ⟨c, hc, hd⟩ := neighbour?_cases h
  obtain ⟨e, he⟩ : ∃ e, e = m.leadingExponent + 1 - n := ⟨_, rfl⟩
  rw [← he] at hc hd hlow hhigh
  have hup : e.toNat ≤ 6 := by omega
  have hdown : (-e).toNat ≤ 8 := by omega
  obtain ⟨q, hq⟩ : ∃ q, q = m.units * powerOfTen (-e).toNat / (unitsPerOne * powerOfTen e.toNat) := ⟨_, rfl⟩
  have hquot : q * 10 ^ e.toNat ≤ 10 ^ 6 * 10 ^ 8 := by
    refine Nat.le_of_mul_le_mul_right ?_ unitsPerOne_pos
    calc q * 10 ^ e.toNat * unitsPerOne = q * (unitsPerOne * powerOfTen e.toNat) := by
          rw [Nat.mul_comm unitsPerOne, ← Nat.mul_assoc]; rfl
      _ ≤ m.units * powerOfTen (-e).toNat := hq ▸ Nat.div_mul_le_self _ _
      _ ≤ 10 ^ 6 * unitsPerOne * 10 ^ 8 := Nat.mul_le_mul hm (Nat.pow_le_pow_right (by decide) hdown)
      _ = 10 ^ 6 * 10 ^ 8 * unitsPerOne := Nat.mul_right_comm _ _ _
  have hcoefficient : c * 10 ^ (e.toNat + 1) < 2 ^ 53 := by
    calc c * 10 ^ (e.toNat + 1) ≤ (q + 1) * 10 ^ (e.toNat + 1) := Nat.mul_le_mul_right _ (hq ▸ hc)
      _ = (q * 10 ^ e.toNat + 10 ^ e.toNat) * 10 := by ring
      _ ≤ (10 ^ 6 * 10 ^ 8 + 10 ^ 6) * 10 :=
        Nat.mul_le_mul_right _ (Nat.add_le_add hquot (Nat.pow_le_pow_right (by decide) hup))
      _ < 2 ^ 53 := by decide
  rcases hd with rfl | rfl
  · refine ⟨lt_of_le_of_lt ?_ hcoefficient, by dsimp only; omega⟩
    calc c / 10 * 10 ^ ((e + 1).toNat + 1) ≤ c / 10 * 10 ^ (e.toNat + 1 + 1) :=
          Nat.mul_le_mul_left _ (Nat.pow_le_pow_right (by decide) (by omega))
      _ = c / 10 * 10 * 10 ^ (e.toNat + 1) := by ring
      _ ≤ c * 10 ^ (e.toNat + 1) := Nat.mul_le_mul_right _ (Nat.div_mul_le_self c 10)
  · exact ⟨hcoefficient, by dsimp only; omega⟩

/-- One half and one million. -/
def half : Magnitude := ⟨1022 * binade, by decide⟩
def million : Magnitude := ⟨1041 * binade + 10 ^ 6 * 2 ^ 33, by decide⟩

theorem half_units : 2 * half.units = unitsPerOne := by decide +kernel

theorem million_units : million.units = 10 ^ 6 * unitsPerOne := by decide +kernel

theorem half_leadingExponent : half.leadingExponent = -1 := by decide +kernel

theorem million_leadingExponent : million.leadingExponent = 6 := by decide +kernel

/-- Halves up to a million are written with eight digits at most. -/
theorem shortest_half {c : Nat} (hpos : 0 < c) (hc : c ≤ 2 * 10 ^ 6) {m : Magnitude} (hm : 2 * m.units = c * unitsPerOne)
    (tie : Tie) : (m.shortest tie).coefficient * 10 ^ ((m.shortest tie).exponent.toNat + 1) < 2 ^ 53 ∧
      -22 ≤ (m.shortest tie).exponent := by
  have hupper : m.units ≤ 10 ^ 6 * unitsPerOne := by
    refine Nat.le_of_mul_le_mul_left ?_ (show 0 < 2 by decide)
    rw [hm, ← Nat.mul_assoc]
    exact Nat.mul_le_mul_right _ hc
  have hlower : half.units ≤ m.units := by
    refine Nat.le_of_mul_le_mul_left ?_ (show 0 < 2 by decide)
    rw [hm, half_units]
    exact Nat.le_mul_of_pos_left _ hpos
  have hlow := leadingExponent_mono hlower
  have hhigh := leadingExponent_mono (hupper.trans million_units.ge)
  rw [half_leadingExponent] at hlow
  rw [million_leadingExponent] at hhigh
  have hrank : m.rank ≠ 0 := by
    intro hzero
    rw [(units_eq_zero_iff m).mpr hzero] at hm
    exact (Nat.mul_pos hpos unitsPerOne_pos).ne hm
  obtain ⟨k, hk⟩ : ∃ k : Nat, m.leadingExponent + 1 - (8 : Nat) = -(k + 1 : Nat) :=
    ⟨(6 - m.leadingExponent).toNat, by clear hm hupper; omega⟩
  have hvalue : m.units * powerOfTen (k + 1) = c * 5 * 10 ^ k * unitsPerOne := by
    calc m.units * powerOfTen (k + 1) = 2 * m.units * (5 * 10 ^ k) := by
          rw [show powerOfTen (k + 1) = 10 ^ k * 10 from rfl]
          ring
      _ = c * 5 * 10 ^ k * unitsPerOne := by rw [hm]; ring
  obtain ⟨d, hd⟩ := neighbour?_exact tie hk hvalue
  obtain ⟨n, hone, height, hn⟩ := shortest_of_neighbour? hrank (by decide) (by decide) hd
  exact neighbour?_short hn hupper (by clear hm hupper; omega) (by clear hm hupper; omega)

end Magnitude

/-- A number is read back if the decimal it is written with has few digits. -/
theorem Binary64.readsBack_of_short (negative : Bool) {m : Magnitude}
    (hdigits : (m.shortest .even).coefficient * 10 ^ ((m.shortest .even).exponent.toNat + 1) < 2 ^ 53)
    (hplaces : -22 ≤ (m.shortest .even).exponent) : (Binary64.finite negative m).ReadsBack := by
  rintro n hn
  cases hn
  rcases Nat.eq_zero_or_pos (m.shortest .even).coefficient with hzero | hpos
  · have hrank := Magnitude.rank_eq_zero hzero
    obtain ⟨rank, hlt⟩ := m
    cases hrank
    show (Numeral.ofDecimal negative ⟨0, 0⟩).number? = some (.finite negative .zero)
    cases negative <;> decide +kernel
  · exact Numeral.number?_ofDecimal negative hpos hdigits hplaces (m.shortest_magnitude? .even)

/-- Halves up to a million are read back from their literals. -/
theorem Binary64.readsBack_half {k : Int} (hk : k.natAbs ≤ 2 * 10 ^ 6) : (Binary64.ofIntRatio k 2).ReadsBack := by
  obtain ⟨m, hm⟩ := Magnitude.exists_half (c := k.natAbs) (hk.trans_lt (by decide))
  rw [ofIntRatio, ofRatio_of_nearest? _ (Magnitude.nearest?_exact (by decide) (by rw [← hm, Nat.mul_comm]))]
  rcases Nat.eq_zero_or_pos k.natAbs with hzero | hpos
  · have hunits : m.units = 0 := by
      rw [hzero, Nat.zero_mul] at hm
      exact (Nat.mul_eq_zero.mp hm).resolve_left (by decide)
    have hshortest : m.shortest .even = ⟨0, 0⟩ := by
      rw [Magnitude.shortest, if_pos ((Magnitude.units_eq_zero_iff m).mp hunits)]
    exact readsBack_of_short _ (by rw [hshortest]; decide) (by rw [hshortest]; decide)
  · obtain ⟨hdigits, hplaces⟩ := Magnitude.shortest_half hpos hk hm .even
    exact readsBack_of_short _ hdigits hplaces

end QuantumMemory

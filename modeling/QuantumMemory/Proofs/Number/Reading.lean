/-
  QuantumMemory.Proofs.Number.Reading — numbers are read back from their text.

  Rounding to the nearest number gives back a number whose exact value it is asked to
  round (`nearest?_exact`), so the decimal written for a number always names it
  (`shortest_magnitude?`): a short one is only written if it does, and otherwise the exact
  expansion is. Its digits, laid out around a point, are read as the same ratio
  (`decimalOfText?_positional`).

  Main result: `ofText?_plain`, reading the positional text of any number gives the number,
  the sign of a zero included. So no two numbers are written alike.
-/

import Mathlib.Algebra.Order.Ring.Nat
import Mathlib.Data.List.TakeDrop
import Mathlib.Tactic.Common
import Mathlib.Tactic.Ring
import QuantumMemory.Number.Decimal
import QuantumMemory.Number.Written
import QuantumMemory.Proofs.Number.Value

namespace QuantumMemory

/-! ## Digits -/

theorem digit_bounds {c : Char} (h : c.isDigit = true) : 48 ≤ c.toNat ∧ c.toNat ≤ 57 := by
  simp only [Char.isDigit, Bool.and_eq_true, decide_eq_true_eq, ge_iff_le, UInt32.le_iff_toNat_le] at h
  exact h

theorem toString_digits (n : Nat) : (toString n).toList = Nat.toDigits 10 n := Nat.toList_repr

theorem toDigits_isDigit (n : Nat) : ∀ c ∈ Nat.toDigits 10 n, c.isDigit = true :=
  fun _ hc => Nat.isDigit_of_mem_toDigits (by decide) (by decide) hc

theorem exists_digit (n : Nat) : ∃ c cs, Nat.toDigits 10 n = c :: cs ∧ c.isDigit = true := by
  obtain ⟨c, cs, hcons⟩ := List.exists_cons_of_ne_nil (Nat.toDigits_ne_nil (n := n) (b := 10))
  exact ⟨c, cs, hcons, toDigits_isDigit n c (by simp [hcons])⟩

theorem toString_negSucc (n : Nat) : (toString (Int.negSucc n)).toList = '-' :: Nat.toDigits 10 (n + 1) := by
  show ("-" ++ Nat.repr (n + 1)).toList = _
  rw [String.toList_append, Nat.toList_repr]
  rfl

theorem digit?_of_isDigit {c : Char} (h : c.isDigit = true) :
    natOfDigits?.digit? 10 c = some (c.toNat - '0'.toNat) := by
  have hlt : c.toNat - '0'.toNat < 10 := by
    have := (digit_bounds h).2
    have hzero : '0'.toNat = 48 := rfl
    omega
  simp only [natOfDigits?.digit?, h, if_true, hlt]

theorem foldl_digits {cs : List Char} (h : ∀ c ∈ cs, c.isDigit = true) (n : Nat) :
    cs.foldl (fun n c => do return (← n) * 10 + (← natOfDigits?.digit? 10 c)) (some n) =
      some (Nat.ofDigitChars 10 cs n) := by
  induction cs generalizing n with
  | nil => rfl
  | cons c rest ih =>
    obtain ⟨hc, hrest⟩ := List.forall_mem_cons.mp h
    rw [List.foldl_cons, Nat.ofDigitChars_cons, digit?_of_isDigit hc, ← ih hrest, Nat.mul_comm 10 n]
    rfl

/-- A whole number is read from its decimal digits. -/
theorem natOfDigits?_toDigits (n : Nat) : natOfDigits? 10 (Nat.toDigits 10 n) = some n := by
  have hsome : (Nat.toDigits 10 n).isEmpty = false := List.isEmpty_eq_false_iff.mpr Nat.toDigits_ne_nil
  rw [natOfDigits?, hsome, if_neg Bool.false_ne_true, foldl_digits (toDigits_isDigit n),
    Nat.ofDigitChars_ten_toDigits]

/-- The leading items with a property, where something else follows them or nothing. -/
theorem span_append {α : Type} {p : α → Bool} {xs rest : List α} (hx : ∀ x ∈ xs, p x = true)
    (hr : ∀ y ∈ rest.head?, p y = false) : (xs ++ rest).span p = (xs, rest) := by
  rw [List.span_eq_takeWhile_dropWhile, List.takeWhile_append_of_pos hx, List.dropWhile_append_of_pos hx]
  cases rest with
  | nil => simp
  | cons y ys => simp [hr y rfl]

theorem spanDigits_append {ds rest : List Char} (hd : ∀ c ∈ ds, c.isDigit = true)
    (hr : ∀ c ∈ rest.head?, c.isDigit = false) : spanDigits (ds ++ rest) = (ds, rest) := span_append hd hr

theorem spanDigits_all {ds : List Char} (hd : ∀ c ∈ ds, c.isDigit = true) : spanDigits ds = (ds, []) := by
  have hspan := spanDigits_append hd (show ∀ c ∈ ([] : List Char).head?, c.isDigit = false by simp)
  rwa [List.append_nil] at hspan

/-! ## Rounding what is exact -/

theorem roundDiv_mul (tie : Tie) (q : Nat) {den : Nat} (hden : 0 < den) : roundDiv tie (q * den) den = q := by
  simp [roundDiv, Nat.mul_div_cancel q hden, hden]

namespace Magnitude

/-- Rounding finds the binade by the length of the number in units. -/
theorem log2_units (m : Magnitude) : m.units.log2 - 52 = m.shift := by
  have hbinade : binade = 2 ^ 52 := by decide
  rcases Nat.lt_or_ge m.rank binade with hsmall | hlarge
  · have hshift : m.shift = 0 := by rw [shift, Nat.div_eq_of_lt hsmall, Nat.zero_sub]
    rw [units_eq, hshift, Nat.zero_mul, Nat.sub_zero, pow_zero, Nat.mul_one]
    by_cases hzero : m.rank = 0
    · simp [hzero]
    · have hlog := (Nat.log2_lt hzero).mpr (hbinade ▸ hsmall)
      omega
  · have hmod := Nat.mod_lt m.rank (show 0 < binade by decide)
    have hunits : m.units = (binade + m.rank % binade) * 2 ^ m.shift := by rw [units_eq, significand_eq hlarge]
    have hlow : 2 ^ (52 + m.shift) ≤ m.units := by
      rw [hunits, pow_add, ← hbinade]
      exact Nat.mul_le_mul_right _ (Nat.le_add_right _ _)
    have hhigh : m.units < 2 ^ (52 + m.shift + 1) := by
      rw [hunits, show 52 + m.shift + 1 = 53 + m.shift by omega, pow_add, show 2 ^ 53 = 2 * binade by decide]
      exact Nat.mul_lt_mul_of_pos_right (by omega) (Nat.two_pow_pos _)
    have hpos : m.units ≠ 0 := by
      have := Nat.two_pow_pos (52 + m.shift)
      omega
    rw [(Nat.log2_eq_iff hpos).mpr ⟨hlow, hhigh⟩, Nat.add_sub_cancel_left]

/-- A ratio that is the value of a magnitude is rounded to that magnitude. -/
theorem nearest?_exact {m : Magnitude} {num den : Nat} (hden : 0 < den) (h : num * unitsPerOne = m.units * den) :
    nearest? num den = some m := by
  have hrank : m.shift * binade ≤ m.rank := by
    have hle : m.shift ≤ m.rank / binade := Nat.sub_le _ _
    exact (Nat.mul_le_mul_right _ hle).trans (Nat.div_mul_le_self _ _)
  have hquot : num * unitsPerOne / den = m.units := by rw [h, Nat.mul_div_cancel _ hden]
  have hround : roundDiv .even (num * unitsPerOne) (den <<< m.shift) = m.rank - m.shift * binade := by
    have hsplit : m.units * den = (m.rank - m.shift * binade) * (den <<< m.shift) := by
      rw [units_eq, Nat.shiftLeft_eq]
      ring
    have hpos : 0 < den <<< m.shift := by
      rw [Nat.shiftLeft_eq]
      exact Nat.mul_pos hden (Nat.two_pow_pos _)
    rw [h, hsplit, roundDiv_mul _ _ hpos]
  have hback : m.shift * binade + (m.rank - m.shift * binade) = m.rank := Nat.add_sub_of_le hrank
  simp only [nearest?, hquot, log2_units, hround, hback, m.rank_lt, dite_true]

theorem powerOfTen_pos (e : Nat) : 0 < powerOfTen e := Nat.pow_pos (by decide)

/-- A decimal next to a number is only taken if it names the number. -/
theorem neighbour?_magnitude? {tie : Tie} {m : Magnitude} {n : Nat} {d : Decimal} (h : m.neighbour? tie n = some d) :
    d.magnitude? = some m := by
  obtain ⟨c, -, hc⟩ := List.exists_of_findSome?_eq_some h
  obtain ⟨hback, hd⟩ := Option.ite_none_right_eq_some.mp hc
  exact Option.some.inj hd ▸ hback

/-- The exact expansion of a number names it. -/
theorem exactDecimal_magnitude? (m : Magnitude) : m.exactDecimal.magnitude? = some m := by
  -- Nothing depends on how many places there are.
  obtain ⟨n, hn⟩ : ∃ n, n = 1074 := ⟨_, rfl⟩
  have hunit : unitsPerOne = 2 ^ n := by rw [unitsPerOne, ← hn, Nat.shiftLeft_eq, Nat.one_mul]
  have hplaces : (-1074 : Int) = -(n : Int) := by omega
  have hexact : m.exactDecimal = ⟨m.units * Nat.pow 5 n, -n⟩ := by rw [exactDecimal, ← hn, hplaces]
  rw [hexact, Decimal.magnitude?]
  refine nearest?_exact (powerOfTen_pos _) ?_
  have hnone : (-(n : Int)).toNat = 0 := by omega
  have hall : (- -(n : Int)).toNat = n := by omega
  have hten : powerOfTen n = 5 ^ n * 2 ^ n := by rw [← Nat.mul_pow]; rfl
  rw [hnone, hall, hten, hunit]
  show m.units * 5 ^ n * 1 * 2 ^ n = m.units * (5 ^ n * 2 ^ n)
  ring

/-- The decimal written for a number names it, however many digits it takes. -/
theorem shortest_magnitude? (tie : Tie) (m : Magnitude) : (m.shortest tie).magnitude? = some m := by
  rw [shortest]
  split
  · rename_i hzero
    refine nearest?_exact (powerOfTen_pos _) ?_
    rw [(units_eq_zero_iff m).mpr hzero]
    simp
  · cases hfound : (List.range' 1 17).findSome? (m.neighbour? tie) with
    | none => exact m.exactDecimal_magnitude?
    | some d =>
      obtain ⟨n, -, hn⟩ := List.exists_of_findSome?_eq_some hfound
      exact neighbour?_magnitude? hn

/-- Less than half of the least number is rounded to zero. -/
theorem nearest?_small {num den : Nat} (h : 2 * (num * unitsPerOne) < den) : nearest? num den = some zero := by
  have hlt : num * unitsPerOne < den := by omega
  have hround : roundDiv .even (num * unitsPerOne) den = 0 := by
    rw [roundDiv, Nat.div_eq_of_lt hlt, Nat.mod_eq_of_lt hlt, if_pos h]
  have hzero : 0 < 2047 * binade := by decide
  simp only [nearest?, Nat.div_eq_of_lt hlt, Nat.log2_zero, Nat.zero_sub, Nat.zero_mul, Nat.shiftLeft_zero, hround,
    Nat.zero_add, hzero, dite_true]
  rfl

end Magnitude

/-! ## Decimal text -/

theorem isDigit_zeros (k : Nat) : ∀ c ∈ List.replicate k '0', c.isDigit = true := by
  intro c hc
  rw [List.eq_of_mem_replicate hc]
  rfl

namespace Decimal

theorem digits_isDigit (d : Decimal) : ∀ c ∈ d.digits, c.isDigit = true := toDigits_isDigit d.coefficient

theorem digits_ne_nil (d : Decimal) : d.digits ≠ [] := Nat.toDigits_ne_nil

theorem ofDigitChars_digits (d : Decimal) : Nat.ofDigitChars 10 d.digits 0 = d.coefficient :=
  Nat.ofDigitChars_ten_toDigits

/-- With decimal places, the digits on both sides of the point together are the coefficient. -/
theorem exists_positional {d : Decimal} (h : d.exponent < 0) : ∃ whole places : List Char,
    d.positional = whole ++ '.' :: places ∧ whole ≠ [] ∧ (∀ c ∈ whole ++ places, c.isDigit = true) ∧
      Nat.ofDigitChars 10 (whole ++ places) 0 = d.coefficient ∧ -(places.length : Int) = d.exponent := by
  have hdigits := d.digits_isDigit
  have hvalue := d.ofDigitChars_digits
  obtain ⟨k, hk⟩ : ∃ k, k = (-d.exponent).toNat := ⟨_, rfl⟩
  simp only [positional, if_neg (Int.not_le.mpr h), ← hk]
  split
  · rename_i hlt
    refine ⟨d.digits.take (d.digits.length - k), d.digits.drop (d.digits.length - k), rfl, ?_, ?_, ?_, ?_⟩
    · rw [← List.length_pos_iff, List.length_take]
      omega
    · rwa [List.take_append_drop]
    · rwa [List.take_append_drop]
    · rw [List.length_drop]
      omega
  · rename_i hge
    refine ⟨['0'], List.replicate (k - d.digits.length) '0' ++ d.digits, rfl, by simp, ?_, ?_, ?_⟩
    · rw [List.singleton_append]
      exact List.forall_mem_cons.mpr ⟨rfl, List.forall_mem_append.mpr ⟨isDigit_zeros _, hdigits⟩⟩
    · rw [Nat.ofDigitChars_append, Nat.ofDigitChars_append, Nat.ofDigitChars_replicate_zero]
      exact hvalue
    · rw [List.length_append, List.length_replicate]
      omega

theorem positional_eq_cons (d : Decimal) : ∃ c cs, d.positional = c :: cs ∧ c.isDigit = true := by
  rcases lt_or_ge d.exponent 0 with hneg | hpos
  · obtain ⟨whole, places, htext, hne, hdigits, -, -⟩ := exists_positional hneg
    obtain ⟨c, cs, rfl⟩ := List.exists_cons_of_ne_nil hne
    exact ⟨c, cs ++ '.' :: places, htext, hdigits c (by simp)⟩
  · obtain ⟨c, cs, hcons⟩ := List.exists_cons_of_ne_nil d.digits_ne_nil
    refine ⟨c, cs ++ List.replicate d.exponent.toNat '0', ?_, d.digits_isDigit c (by simp [hcons])⟩
    rw [positional, if_pos hpos, hcons, List.cons_append]

/-- Positional text is digits and a point. -/
theorem mem_positional {d : Decimal} {c : Char} (h : c ∈ d.positional) : c.isDigit = true ∨ c = '.' := by
  rcases lt_or_ge d.exponent 0 with hneg | hpos
  · obtain ⟨whole, places, htext, -, hdigits, -, -⟩ := exists_positional hneg
    rw [htext, List.mem_append, List.mem_cons] at h
    rcases h with h | rfl | h
    · exact .inl (hdigits c (List.mem_append_left _ h))
    · exact .inr rfl
    · exact .inl (hdigits c (List.mem_append_right _ h))
  · rw [positional, if_pos hpos, List.mem_append] at h
    rcases h with h | h
    · exact .inl (d.digits_isDigit c h)
    · exact .inl (isDigit_zeros _ c h)

end Decimal

namespace Binary64

open Magnitude (nearest?_exact nearest?_small powerOfTen_pos units_eq_zero_iff)

theorem ofRatio_of_nearest? (negative : Bool) {num den : Nat} {m : Magnitude}
    (h : Magnitude.nearest? num den = some m) : ofRatio negative num den = .finite negative m := by
  rw [ofRatio, h]
  rfl

/-- Below the exponents where everything is infinite, a decimal is rounded as the ratio it is: what
    is known to be zero without the power is zero. -/
theorem ofDecimal_eq (negative : Bool) (c : Nat) {e : Int} (he : e ≤ 400) :
    ofDecimal negative c e = ofRatio negative (c * powerOfTen e.toNat) (powerOfTen (-e).toNat) := by
  by_cases hc : c = 0
  · have hvalue : c * powerOfTen e.toNat * Magnitude.unitsPerOne =
        Magnitude.zero.units * powerOfTen (-e).toNat := by
      rw [hc, (units_eq_zero_iff _).mpr rfl, Nat.zero_mul, Nat.zero_mul, Nat.zero_mul]
    rw [ofDecimal, if_pos hc, ofRatio_of_nearest? negative (nearest?_exact (powerOfTen_pos _) hvalue)]
  rw [ofDecimal, if_neg hc, if_neg (Int.not_lt.mpr he)]
  split
  · rename_i hsmall
    -- Nothing depends on how many units there are, but for their logarithm.
    obtain ⟨n, hn⟩ : ∃ n, n = 1074 := ⟨_, rfl⟩
    have hunit : Magnitude.unitsPerOne = 2 ^ n := by
      rw [Magnitude.unitsPerOne, ← hn, Nat.shiftLeft_eq, Nat.one_mul]
    have hnone : e.toNat = 0 := by omega
    have hless : 2 * (c * powerOfTen e.toNat * Magnitude.unitsPerOne) < powerOfTen (-e).toNat := by
      calc 2 * (c * powerOfTen e.toNat * Magnitude.unitsPerOne) = c * 2 ^ (n + 1) := by
            rw [hunit, hnone, show powerOfTen 0 = 1 from rfl]
            ring
        _ < 2 ^ (c.log2 + 1) * 2 ^ (n + 1) :=
            Nat.mul_lt_mul_of_pos_right Nat.lt_log2_self (Nat.two_pow_pos _)
        _ = 2 ^ (c.log2 + 1 + (n + 1)) := (pow_add _ _ _).symm
        _ ≤ 2 ^ (3 * (c.log2 + 401)) := Nat.pow_le_pow_right (by decide) (by omega)
        _ = 8 ^ (c.log2 + 401) := pow_mul 2 3 _
        _ ≤ 10 ^ (c.log2 + 401) := Nat.pow_le_pow_left (by decide) _
        _ ≤ 10 ^ (-e).toNat := Nat.pow_le_pow_right (by decide) (by omega)
    rw [ofRatio_of_nearest? negative (nearest?_small hless)]
  · rfl

/-- Digits without a point. -/
theorem decimalOfText?_whole (negative : Bool) {ds : List Char} (hd : ∀ c ∈ ds, c.isDigit = true) (hne : ds ≠ []) :
    decimalOfText? negative ds = some (ofDecimal negative (Nat.ofDigitChars 10 ds 0) 0) := by
  have hspan := spanDigits_all hd
  obtain ⟨c, cs, rfl⟩ := List.exists_cons_of_ne_nil hne
  simp [decimalOfText?, hspan, exponentOfText?]

/-- Digits on both sides of a point. -/
theorem decimalOfText?_point (negative : Bool) {whole places : List Char}
    (hd : ∀ c ∈ whole ++ places, c.isDigit = true) (hne : whole ≠ []) :
    decimalOfText? negative (whole ++ '.' :: places) =
      some (ofDecimal negative (Nat.ofDigitChars 10 (whole ++ places) 0) (-places.length)) := by
  obtain ⟨hw, hp⟩ := List.forall_mem_append.mp hd
  have hwhole : spanDigits (whole ++ '.' :: places) = (whole, '.' :: places) :=
    spanDigits_append hw (by simp)
  have hplaces := spanDigits_all hp
  obtain ⟨c, cs, rfl⟩ := List.exists_cons_of_ne_nil hne
  rw [List.cons_append] at hwhole
  simp [decimalOfText?, hwhole, hplaces, exponentOfText?]

/-- The positional digits of a decimal are read as the ratio that the decimal is. -/
theorem decimalOfText?_positional (negative : Bool) (d : Decimal) :
    decimalOfText? negative d.positional =
      some (ofRatio negative (d.coefficient * powerOfTen d.exponent.toNat) (powerOfTen (-d.exponent).toNat)) := by
  rcases lt_or_ge d.exponent 0 with hneg | hpos
  · obtain ⟨whole, places, htext, hne, hdigits, hvalue, hlength⟩ := Decimal.exists_positional hneg
    rw [htext, decimalOfText?_point negative hdigits hne, hvalue, hlength, ofDecimal_eq _ _ (by omega)]
  · have hall : ∀ c ∈ d.digits ++ List.replicate d.exponent.toNat '0', c.isDigit = true :=
      List.forall_mem_append.mpr ⟨d.digits_isDigit, isDigit_zeros _⟩
    have hvalue : Nat.ofDigitChars 10 (d.digits ++ List.replicate d.exponent.toNat '0') 0 =
        d.coefficient * powerOfTen d.exponent.toNat := by
      rw [Nat.ofDigitChars_append, d.ofDigitChars_digits, Nat.ofDigitChars_replicate_zero, Nat.mul_comm]
      rfl
    have hnone : (-d.exponent).toNat = 0 := by omega
    rw [Decimal.positional, if_pos hpos, decimalOfText?_whole negative hall (by simp [d.digits_ne_nil]), hvalue,
      ofDecimal_eq _ _ (by decide), hnone]
    simp [powerOfTen]

theorem splitSign_digit {c : Char} (hc : c.isDigit = true) (cs : List Char) : splitSign (c :: cs) = (false, c :: cs) := by
  unfold splitSign
  split
  · rename_i heq
    cases heq
    exact absurd hc (by decide)
  · rename_i heq
    cases heq
    exact absurd hc (by decide)
  · rfl

/-- No word for a number begins with a digit. -/
theorem word_ne {c : Char} (hc : c.isDigit = true) (cs : List Char) (word : String)
    (hw : ∃ first ∈ word.toList.head?, first.isDigit = false) : String.ofList ((c :: cs).map Char.toLower) ≠ word := by
  rintro rfl
  obtain ⟨first, hfirst, hdigit⟩ := hw
  have hlower : c.toLower = c := by
    have hnot : ¬(c.val ≥ 'A'.val ∧ c.val ≤ 'Z'.val) := by
      have := digit_bounds hc
      rintro ⟨hle, -⟩
      have : 65 ≤ c.toNat := UInt32.le_iff_toNat_le.mp hle
      omega
    exact dif_neg hnot
  rw [String.toList_ofList, List.map_cons, List.head?_cons, Option.mem_some_iff, hlower] at hfirst
  rw [← hfirst, hc] at hdigit
  cases hdigit

/-- Text that begins with a digit, but for its sign, is read as a decimal. -/
theorem ofText?_signed (negative : Bool) {c : Char} (hc : c.isDigit = true) (cs : List Char) :
    ofText? (if negative then '-' :: c :: cs else c :: cs) = decimalOfText? negative (c :: cs) := by
  have hinf := word_ne hc cs "inf" ⟨'i', rfl, rfl⟩
  have hinfinity := word_ne hc cs "infinity" ⟨'i', rfl, rfl⟩
  have hnan := word_ne hc cs "nan" ⟨'n', rfl, rfl⟩
  cases negative with
  | false =>
    rw [if_neg Bool.false_ne_true, ofText?, splitSign_digit hc]
    simp only [hinf, hinfinity, hnan, or_self, if_false]
  | true =>
    rw [if_pos rfl, ofText?, show splitSign ('-' :: c :: cs) = (true, c :: cs) from rfl]
    simp only [hinf, hinfinity, hnan, or_self, if_false]

/-- The text of a number is read as that number. -/
theorem ofText?_plain (p : Binary64) : ofText? p.plain.toList = some p := by
  cases p with
  | nan => decide
  | infinite negative => cases negative <;> decide
  | finite negative m =>
    obtain ⟨c, cs, htext, hc⟩ := (m.shortest .up).positional_eq_cons
    have hread := decimalOfText?_positional negative (m.shortest .up)
    rw [ofRatio_of_nearest? negative (m.shortest_magnitude? .up)] at hread
    rw [plain, signed, String.toList_ofList, htext, ofText?_signed negative hc, ← htext, hread]

end Binary64

end QuantumMemory

/-
  QuantumMemory.Proofs.Document.Token — strings and numbers are read back from their texts.

  An escape names the character that it was written for, and no character of a text is half of a
  surrogate pair, so the code points of a string body make up the string again. A number ends where
  something else begins (`Breaks`): its digits, its decimal places and its exponent are each read up to
  the first character that is none of theirs.

  - `string?_escaped`: a string, after its opening quote.
  - `scalar?_number`: a number, with its sign.
-/

import QuantumMemory.Document.Json
import QuantumMemory.Proofs.Number.Literal

namespace QuantumMemory.Document.Json

/-! ## Strings -/

theorem hexDigit?_hexChar : ∀ k < 16, hexDigit? (hexChar k) = some k := by decide

/-- An escape of two characters. -/
theorem stringBody?_letter {e c : Char} (hu : e ≠ 'u') (he : escaped? e = some c) (rest : List Char) :
    stringBody? ('\\' :: e :: rest) = (stringBody? rest).map fun (units, rest) => (c.toNat :: units, rest) := by
  rw [stringBody?, he]
  · cases stringBody? rest <;> rfl
  · rintro a b x d others h -
    exact hu h

/-- A character that stands for itself. -/
theorem stringBody?_plain {c : Char} (hquote : c ≠ '"') (hslash : c ≠ '\\') (hcontrol : ¬c.toNat < 0x20)
    (rest : List Char) :
    stringBody? (c :: rest) = (stringBody? rest).map fun (units, rest) => (c.toNat :: units, rest) := by
  rw [stringBody?, if_neg (by simp [hcontrol, hslash])]
  · cases stringBody? rest <;> rfl
  · exact hquote
  · exact fun _ _ _ _ _ h _ => hslash h
  · exact fun _ _ h _ => hslash h

/-- The reader undoes one escape. -/
theorem stringBody?_escape (c : Char) (rest : List Char) :
    stringBody? (escape c ++ rest) = (stringBody? rest).map fun (units, rest) => (c.toNat :: units, rest) := by
  unfold escape
  split_ifs with hquote hslash hback hfeed hline hreturn htab hcontrol
  · exact stringBody?_letter (by decide) (by rw [hquote]; rfl) rest
  · exact stringBody?_letter (by decide) (by rw [hslash]; rfl) rest
  · exact stringBody?_letter (by decide) (by rw [hback]; rfl) rest
  · exact stringBody?_letter (by decide) (by rw [hfeed]; rfl) rest
  · exact stringBody?_letter (by decide) (by rw [hline]; rfl) rest
  · exact stringBody?_letter (by decide) (by rw [hreturn]; rfl) rest
  · exact stringBody?_letter (by decide) (by rw [htab]; rfl) rest
  · have hhigh := hexDigit?_hexChar (c.toNat / 16) (by omega)
    have hlow := hexDigit?_hexChar (c.toNat % 16) (by omega)
    have hzero : hexDigit? '0' = some 0 := by decide
    have hunit : hexQuad? '0' '0' (hexChar (c.toNat / 16)) (hexChar (c.toNat % 16)) = some c.toNat := by
      simp only [hexQuad?, hhigh, hlow, hzero, Option.bind_eq_bind, Option.bind_some, Option.pure_def, Option.some.injEq]
      omega
    simp only [List.cons_append, List.nil_append, stringBody?, hunit]
    cases stringBody? rest <;> rfl
  · exact stringBody?_plain hquote hslash hcontrol rest

theorem stringBody?_escaped (cs rest : List Char) :
    stringBody? (cs.flatMap escape ++ '"' :: rest) = some (cs.map Char.toNat, rest) := by
  induction cs with
  | nil => rfl
  | cons c others ih =>
    rw [List.flatMap_cons, List.append_assoc, stringBody?_escape, ih]
    rfl

theorem not_surrogate (c : Char) : isHighSurrogate c.toNat = false ∧ isLowSurrogate c.toNat = false := by
  have hvalid : c.toNat < 0xD800 ∨ 0xDFFF < c.toNat ∧ c.toNat < 0x110000 := c.valid
  simp only [isHighSurrogate, isLowSurrogate, decide_eq_false_iff_not]
  omega

theorem textOfUnits?_toNat (cs : List Char) : textOfUnits? (cs.map Char.toNat) = some cs := by
  induction cs with
  | nil => rfl
  | cons c rest ih =>
    obtain ⟨hhigh, hlow⟩ := not_surrogate c
    cases rest with
    | nil => simp [textOfUnits?, hhigh, hlow]
    | cons d others =>
      rw [List.map_cons] at ih
      simp [textOfUnits?, hhigh, hlow, ih]

/-- A string is read back from its text. -/
theorem string?_escaped (s : String) (rest : List Char) :
    string? (s.toList.flatMap escape ++ '"' :: rest) = some (some s, rest) := by
  simp [string?, stringBody?_escaped, textOfUnits?_toNat]

/-! ## Numbers -/

/-- No continuation of a number. -/
def Breaks (rest : List Char) : Prop := ∀ c ∈ rest.head?, c.isDigit = false ∧ c ≠ '.' ∧ c ≠ 'e' ∧ c ≠ 'E'

theorem Breaks.noDigit {rest : List Char} (h : Breaks rest) : ∀ c ∈ rest.head?, c.isDigit = false :=
  fun c hc => (h c hc).1

theorem breaks_nil : Breaks [] := fun _ hc => absurd hc (by simp)

theorem breaks_cons {c : Char} (h : c.isDigit = false ∧ c ≠ '.' ∧ c ≠ 'e' ∧ c ≠ 'E') (rest : List Char) :
    Breaks (c :: rest) := by
  intro c' hc
  cases hc
  exact h

/-- What comes after the digits before the point, when there is a number. -/
def tailText (n : Numeral) : List Char :=
  (if n.fraction.isEmpty then [] else '.' :: n.fraction) ++
    match n.exponent with
    | none => []
    | some e => 'e' :: (toString e).toList

theorem exponentDigits?_toDigits (negative : Bool) (k : Nat) {rest : List Char} (h : Breaks rest) :
    exponentDigits? negative (Nat.toDigits 10 k ++ rest) = some (some (if negative then -(k : Int) else k), rest) := by
  obtain ⟨c, cs, hcons, -⟩ := exists_digit k
  have hspan := span_append (toDigits_isDigit k) h.noDigit
  have hvalue : Nat.ofDigitChars 10 (c :: cs) 0 = k := hcons ▸ Nat.ofDigitChars_ten_toDigits
  rw [exponentDigits?, hspan, hcons]
  simp only [hvalue]

theorem exponent?_text (e : Option Int) {rest : List Char} (h : Breaks rest) :
    exponent? ((match e with | none => [] | some e => 'e' :: (toString e).toList) ++ rest) = some (e, rest) := by
  cases e with
  | none =>
    cases rest with
    | nil => rfl
    | cons c others =>
      obtain ⟨-, -, he, hE⟩ := h c rfl
      simp [exponent?, he, hE]
  | some e =>
    cases e with
    | ofNat k =>
      have hread := exponentDigits?_toDigits false k h
      obtain ⟨c, cs, hcons, hc⟩ := exists_digit k
      have htext : (toString (Int.ofNat k)).toList = Nat.toDigits 10 k := toString_digits k
      simp only [htext, hcons, List.cons_append] at hread ⊢
      rw [exponent?, if_pos (.inl rfl)]
      · exact hread
      · rintro others h
        cases h
        cases hc
      · rintro others h
        cases h
        cases hc
    | negSucc k =>
      simp only [toString_negSucc, List.cons_append]
      rw [exponent?, if_pos (.inl rfl)]
      exact exponentDigits?_toDigits true (k + 1) h

theorem fraction?_text (n : Numeral) (hdigits : ∀ c ∈ n.fraction, c.isDigit = true) {rest : List Char}
    (hdigit : ∀ c ∈ rest.head?, c.isDigit = false) (hpoint : rest.head? ≠ some '.') :
    fraction? ((if n.fraction.isEmpty then [] else '.' :: n.fraction) ++ rest) = some (n.fraction, rest) := by
  cases hfraction : n.fraction with
  | nil =>
    simp only [List.isEmpty_nil, if_true, List.nil_append]
    unfold fraction?
    split
    · exact absurd rfl hpoint
    · rfl
  | cons c cs =>
    have hspan := span_append (hfraction ▸ hdigits) hdigit
    simp only [List.isEmpty_cons, Bool.false_eq_true, if_false, List.cons_append, fraction?]
    rw [← List.cons_append, hspan]

theorem whole?_digits {ds rest : List Char} (hdigits : ∀ c ∈ ds, c.isDigit = true) (hne : ds ≠ [])
    (hzero : ds.head? = some '0' → ds = ['0']) (hrest : ∀ c ∈ rest.head?, c.isDigit = false) :
    whole? (ds ++ rest) = some (ds, rest) := by
  rw [whole?, span_append hdigits hrest]
  split
  · rename_i heq
    cases heq
    exact absurd rfl hne
  · rename_i heq
    cases heq
    cases hzero rfl
  · rename_i heq
    cases heq
    rfl

theorem tailText_head (n : Numeral) {rest : List Char} (h : Breaks rest) :
    ∀ c ∈ (tailText n ++ rest).head?, c.isDigit = false := by
  unfold tailText
  cases n.fraction with
  | nil =>
    cases n.exponent with
    | none => simpa using h.noDigit
    | some e =>
      intro c hc
      cases hc
      rfl
  | cons c cs =>
    intro c hc
    cases hc
    rfl

theorem numeral?_text {n : Numeral} (h : n.Spellable) {rest : List Char} (hrest : Breaks rest) :
    numeral? n.negative (n.whole ++ (tailText n ++ rest)) = some (n, rest) := by
  obtain ⟨hwhole, hfraction⟩ := List.forall_mem_append.mp h.digits
  have hexponent := exponent?_text n.exponent hrest
  rw [numeral?, whole?_digits hwhole h.nonempty h.noLeadingZero (tailText_head n hrest)]
  simp only [Option.bind_eq_bind, Option.bind_some, tailText, List.append_assoc]
  rw [fraction?_text n hfraction]
  · simp only [Option.bind_some, hexponent]
    rfl
  · cases hcase : n.exponent with
    | none => simpa using hrest.noDigit
    | some e =>
      intro c hc
      cases hc
      rfl
  · cases hcase : n.exponent with
    | none =>
      intro hpoint
      exact (hrest '.' hpoint).2.1 rfl
    | some e => simp

theorem toText_eq (n : Numeral) : n.toText = (if n.negative then ['-'] else []) ++ (n.whole ++ tailText n) :=
  (List.append_assoc _ _ _).trans (List.append_assoc _ _ _)

/-- A number begins with a digit or with its sign. -/
theorem toText_head {n : Numeral} (h : n.Spellable) :
    ∃ c cs, n.toText = c :: cs ∧ (c.isDigit = true ∨ c = '-') := by
  obtain ⟨c, cs, hwhole⟩ := List.exists_cons_of_ne_nil h.nonempty
  have hc : c.isDigit = true := h.digits c (by simp [hwhole])
  rw [toText_eq, hwhole]
  cases n.negative with
  | false => exact ⟨c, cs ++ tailText n, rfl, .inl hc⟩
  | true => exact ⟨'-', c :: cs ++ tailText n, rfl, .inr rfl⟩

theorem scalar?_number {n : Numeral} (h : n.Spellable) {rest : List Char} (hrest : Breaks rest) :
    scalar? (n.toText ++ rest) = some (.number n, rest) := by
  obtain ⟨c, cs, hwhole⟩ := List.exists_cons_of_ne_nil h.nonempty
  have hc : c.isDigit = true := h.digits c (by simp [hwhole])
  have hread := numeral?_text h hrest
  rw [toText_eq, List.append_assoc, List.append_assoc]
  cases hsign : n.negative with
  | true =>
    rw [hsign] at hread
    simp only [if_true, List.singleton_append, scalar?, hread, Option.map_some]
  | false =>
    rw [hsign, hwhole, List.cons_append] at hread
    rw [if_neg Bool.false_ne_true, List.nil_append, hwhole, List.cons_append, scalar?, if_pos hc, hread]
    · rfl
    · rintro rfl
      cases hc
    · rintro rfl
      cases hc

end QuantumMemory.Document.Json

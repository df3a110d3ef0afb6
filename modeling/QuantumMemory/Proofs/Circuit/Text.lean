/-
  QuantumMemory.Proofs.Circuit.Text — the text of a circuit determines its instructions.

  A line is its words with blanks between them, a text is its lines with line breaks after
  them, and no word holds a blank or a line break. So the words can be told apart, and each
  is read back: the first as the kind with what stands in its parentheses, the others as
  qubits and outcomes. The reading of probabilities is that of all numbers.

  Main result: `toStim_determines`, every line of a circuit's text reads as the instruction
  in its place, so the text is read as the circuit's instructions, and two circuits have
  the same text only if they have the same instructions.
-/

import QuantumMemory.Circuit.Reader
import QuantumMemory.Proofs.Number.Reading
import QuantumMemory.Proofs.Success

namespace QuantumMemory

/-! ## Words -/

/-- It can stand between blanks in a line. -/
def IsWord (cs : List Char) : Prop := ' ' ∉ cs ∧ '\n' ∉ cs

instance (cs : List Char) : Decidable (IsWord cs) := inferInstanceAs (Decidable (_ ∧ _))

theorem isWord_append {cs ds : List Char} : IsWord (cs ++ ds) ↔ IsWord cs ∧ IsWord ds := by
  simp only [IsWord, List.mem_append, not_or]
  tauto

theorem isWord_digits {ds : List Char} (h : ∀ c ∈ ds, c.isDigit = true) : IsWord ds :=
  ⟨fun hmem => absurd (h _ hmem) (by decide), fun hmem => absurd (h _ hmem) (by decide)⟩

theorem isWord_plain (p : Binary64) : IsWord p.plain.toList := by
  cases p with
  | nan => decide
  | infinite negative => cases negative <;> decide
  | finite negative m =>
    have hpositional : IsWord (m.shortest .up).positional := by
      constructor
      · intro hmem
        rcases Decimal.mem_positional hmem with h | h <;> cases h
      · intro hmem
        rcases Decimal.mem_positional hmem with h | h <;> cases h
    rw [Binary64.plain, Binary64.signed, String.toList_ofList]
    split
    · exact isWord_append.mpr ⟨show IsWord ['-'] by decide, hpositional⟩
    · exact hpositional

theorem isWord_integer (k : Int) : IsWord (toString k).toList := by
  cases k with
  | ofNat n =>
    rw [show (toString (Int.ofNat n)).toList = Nat.toDigits 10 n from toString_digits n]
    exact isWord_digits (toDigits_isDigit n)
  | negSucc n =>
    have hminus : IsWord ['-'] := by decide
    rw [toString_negSucc]
    exact isWord_append.mpr ⟨hminus, isWord_digits (toDigits_isDigit (n + 1))⟩

theorem isWord_parenthesized {word argument : List Char} (hword : IsWord word) (hargument : IsWord argument) :
    IsWord (word ++ '(' :: (argument ++ [')'])) := by
  have hopen : IsWord ['('] := by decide
  have hclose : IsWord [')'] := by decide
  exact isWord_append.mpr ⟨hword, isWord_append.mpr ⟨hopen, isWord_append.mpr ⟨hargument, hclose⟩⟩⟩

/-! ## Separators -/

theorem intercalate_cons {α : Type} (separator : α) (x : List α) (xs : List (List α)) :
    [separator].intercalate (x :: xs) = x ++ xs.flatMap (separator :: ·) := by
  induction xs generalizing x with
  | nil => simp
  | cons y rest ih =>
    rw [List.intercalate_cons_cons, ih, List.flatMap_cons, List.append_assoc]
    rfl

/-- A separator after each item is one between the items and an empty last one. -/
theorem intercalate_concat_nil {α : Type} (separator : α) (xs : List (List α)) :
    [separator].intercalate (xs ++ [[]]) = xs.flatMap (· ++ [separator]) := by
  induction xs with
  | nil => simp
  | cons x rest ih =>
    rw [List.cons_append, List.intercalate_cons_of_ne_nil (by simp), ih, List.flatMap_cons]

namespace Stim

theorem unclose?_concat {α : Type} [DecidableEq α] (closing : α) (xs : List α) :
    unclose? closing (xs ++ [closing]) = some xs := by
  simp [unclose?]

/-! ## Reading a word back -/

theorem integer?_toString (k : Int) : integer? (toString k).toList = some k := by
  cases k with
  | ofNat n =>
    obtain ⟨c, cs, hcons, hc⟩ := exists_digit n
    have htext : (toString (Int.ofNat n)).toList = Nat.toDigits 10 n := toString_digits n
    have hsign : Binary64.splitSign (Nat.toDigits 10 n) = (false, Nat.toDigits 10 n) := by
      rw [hcons, Binary64.splitSign_digit hc]
    simp only [htext, integer?, hsign, natOfDigits?_toDigits]
    rfl
  | negSucc n =>
    have hsign : Binary64.splitSign ('-' :: Nat.toDigits 10 (n + 1)) = (true, Nat.toDigits 10 (n + 1)) := rfl
    simp only [toString_negSucc, integer?, hsign, natOfDigits?_toDigits]
    rfl

theorem outcome_text (r : RecordOffset) :
    r.text.toList = 'r' :: 'e' :: 'c' :: '[' :: ((toString (show Int from r)).toList ++ [']']) := by
  rw [RecordOffset.text, String.toList_append, String.toList_append]
  rfl

theorem outcome?_text (r : RecordOffset) : outcome? r.text.toList = some r := by
  rw [outcome_text, outcome?, unclose?_concat]
  exact integer?_toString r

/-- The word before the parenthesis. -/
theorem span_word {word rest : List Char} (hw : '(' ∉ word) :
    (word ++ '(' :: rest).span (fun c => c != '(') = (word, '(' :: rest) := by
  refine span_append (fun c hc => ?_) (fun c hc => ?_)
  · exact bne_iff_ne.mpr fun heq => hw (heq ▸ hc)
  · cases hc
    rfl

/-- A word with parentheses behind it. -/
theorem kind?_argument {word : List Char} (hw : '(' ∉ word) (argument : List Char) :
    kind? (word ++ '(' :: (argument ++ [')'])) = kindWith? word argument := by
  simp only [kind?, span_word hw, unclose?_concat]
  rfl

theorem toList_parenthesized (word argument : String) :
    (word ++ "(" ++ argument ++ ")").toList = word.toList ++ '(' :: (argument.toList ++ [')']) := by
  simp

theorem kind?_head (k : Instruction.Kind) : kind? k.head.toList = some k := by
  cases k with
  | reset | measure | measureReset | detector | tick => decide
  | gate g => cases g <;> decide
  | noise channel =>
    cases channel with
    | depolarize1 p =>
      have htext : (Instruction.Kind.noise (.depolarize1 p)).head.toList =
          "DEPOLARIZE1".toList ++ '(' :: (p.plain.toList ++ [')']) := toList_parenthesized "DEPOLARIZE1" p.plain
      rw [htext, kind?_argument (by decide), kindWith?, if_pos rfl, Binary64.ofText?_plain, Option.map_some]
    | depolarize2 p =>
      have htext : (Instruction.Kind.noise (.depolarize2 p)).head.toList =
          "DEPOLARIZE2".toList ++ '(' :: (p.plain.toList ++ [')']) := toList_parenthesized "DEPOLARIZE2" p.plain
      rw [htext, kind?_argument (by decide), kindWith?, if_neg (by decide), if_pos rfl, Binary64.ofText?_plain,
        Option.map_some]
  | observable index =>
    have htext : (Instruction.Kind.observable index).head.toList =
        "OBSERVABLE_INCLUDE".toList ++ '(' :: (Nat.toDigits 10 index ++ [')']) := by
      rw [← toString_digits]
      exact toList_parenthesized "OBSERVABLE_INCLUDE" (toString index)
    rw [htext, kind?_argument (by decide), kindWith?, if_neg (by decide), if_neg (by decide), if_pos rfl,
      natOfDigits?_toDigits, Option.map_some]

end Stim

/-! ## Lines -/

namespace Instruction

/-- The words of the line. -/
def words (i : Instruction) : List (List Char) :=
  i.kind.head.toList :: (i.qubits.map (fun q => (toString q).toList) ++ i.records.map (fun r => r.text.toList))

/-- The line without its line break. -/
def row (i : Instruction) : List Char := [' '].intercalate i.words

theorem isWord_outcome (r : RecordOffset) : IsWord r.text.toList := by
  have hbracket : IsWord ['r', 'e', 'c', '['] := by decide
  have hclose : IsWord [']'] := by decide
  rw [Stim.outcome_text]
  exact isWord_append.mpr ⟨hbracket, isWord_append.mpr ⟨isWord_integer r, hclose⟩⟩

theorem isWord_head (k : Kind) : IsWord k.head.toList := by
  cases k with
  | reset | measure | measureReset | detector | tick => decide
  | gate g => cases g <;> decide
  | noise channel =>
    have htext : (Kind.noise channel).head.toList =
        channel.symbol.toList ++ '(' :: (channel.probability.plain.toList ++ [')']) :=
      Stim.toList_parenthesized channel.symbol channel.probability.plain
    rw [htext]
    apply isWord_parenthesized _ (isWord_plain _)
    cases channel with
    | depolarize1 p => exact (by decide : IsWord "DEPOLARIZE1".toList)
    | depolarize2 p => exact (by decide : IsWord "DEPOLARIZE2".toList)
  | observable index =>
    have htext : (Kind.observable index).head.toList =
        "OBSERVABLE_INCLUDE".toList ++ '(' :: ((toString index).toList ++ [')']) :=
      Stim.toList_parenthesized "OBSERVABLE_INCLUDE" (toString index)
    rw [htext]
    apply isWord_parenthesized (by decide)
    rw [toString_digits]
    exact isWord_digits (toDigits_isDigit index)

theorem isWord_words (i : Instruction) : ∀ word ∈ i.words, IsWord word := by
  intro word hmem
  rcases List.mem_cons.mp hmem with rfl | hmem
  · exact isWord_head i.kind
  rcases List.mem_append.mp hmem with hmem | hmem
  · obtain ⟨q, -, rfl⟩ := List.mem_map.mp hmem
    rw [toString_digits]
    exact isWord_digits (toDigits_isDigit q)
  · obtain ⟨r, -, rfl⟩ := List.mem_map.mp hmem
    exact isWord_outcome r

theorem row_eq (i : Instruction) :
    i.row = i.kind.head.toList ++ (i.qubits.flatMap (fun q => ' ' :: (toString q).toList) ++
      i.records.flatMap (fun r => ' ' :: r.text.toList)) := by
  rw [row, words, intercalate_cons, List.flatMap_append, List.flatMap_map, List.flatMap_map]

theorem line_eq (i : Instruction) : i.line.toList = i.row ++ ['\n'] := by
  have hbreak : "\n".toList = ['\n'] := rfl
  have hblank : " ".toList = [' '] := rfl
  simp only [line, row_eq, String.toList_append, String.toList_join, List.flatMap_map, hbreak, hblank,
    List.singleton_append, List.append_assoc]

/-- A line is one line, however long. -/
theorem break_not_mem_row (i : Instruction) : '\n' ∉ i.row := by
  intro hmem
  rw [row, words, intercalate_cons] at hmem
  rcases List.mem_append.mp hmem with hmem | hmem
  · exact (isWord_head i.kind).2 hmem
  · obtain ⟨word, hword, hin⟩ := List.mem_flatMap.mp hmem
    rcases List.mem_cons.mp hin with hblank | hin
    · cases hblank
    · exact (isWord_words i word (List.mem_cons_of_mem _ hword)).2 hin

end Instruction

namespace Stim

theorem instruction?_row (i : Instruction) : instruction? i.row = some i := by
  have hsplit : i.row.splitOn ' ' = i.words :=
    List.splitOn_intercalate ' ' (fun word hmem => (i.isWord_words word hmem).1) (by simp [Instruction.words])
  have hspan : (i.qubits.map (fun q => (toString q).toList) ++ i.records.map (fun r => r.text.toList)).span
      (fun word => word.head?.any Char.isDigit) =
      (i.qubits.map (fun q => (toString q).toList), i.records.map (fun r => r.text.toList)) := by
    apply span_append
    · intro word hmem
      obtain ⟨q, -, rfl⟩ := List.mem_map.mp hmem
      obtain ⟨c, cs, hcons, hc⟩ := exists_digit q
      rw [toString_digits, hcons]
      exact hc
    · intro word hmem
      obtain ⟨r, -, rfl⟩ := List.mem_map.mp (List.mem_of_mem_head? hmem)
      rw [outcome_text]
      rfl
  have hqubits : (i.qubits.map fun q => (toString q).toList).mapM (natOfDigits? 10) = some i.qubits := by
    refine mapM_map fun q _ => ?_
    rw [toString_digits]
    exact natOfDigits?_toDigits q
  have houtcomes : (i.records.map fun r => r.text.toList).mapM outcome? = some i.records :=
    mapM_map fun r _ => outcome?_text r
  simp only [instruction?, hsplit, Instruction.words, hspan, kind?_head, hqubits, houtcomes]
  rfl

theorem lines?_toStim (c : Circuit) : lines? c.toStim = some (c.instructions.map Instruction.row) := by
  have htext : c.toStim.toList = ['\n'].intercalate (c.instructions.map Instruction.row ++ [[]]) := by
    rw [Circuit.toStim, String.toList_join, List.flatMap_map, intercalate_concat_nil, List.flatMap_map]
    exact congrArg c.instructions.flatMap (funext Instruction.line_eq)
  have hrows : ∀ row ∈ c.instructions.map Instruction.row ++ [[]], '\n' ∉ row := by
    intro row hmem
    rcases List.mem_append.mp hmem with hmem | hmem
    · obtain ⟨i, -, rfl⟩ := List.mem_map.mp hmem
      exact i.break_not_mem_row
    · rw [List.mem_singleton.mp hmem]
      exact List.not_mem_nil
  rw [lines?, htext, List.splitOn_intercalate '\n' hrows (by simp), unclose?_concat]

theorem read?_toStim (c : Circuit) : read? c.toStim = some c.instructions := by
  rw [read?, lines?_toStim]
  exact mapM_map fun i _ => instruction?_row i

example : read? "MR 3 4\nTICK\nDETECTOR rec[-1] rec[-2]\nOBSERVABLE_INCLUDE(2) rec[-1]\n" =
    some [.measureReset [3, 4], .tick, .detector [-1, -2], .observable 2 [-1]] := by
  decide

end Stim

/-- Every line of a circuit's text reads as the instruction in its place, so the text is
    read as the circuit's instructions, and only circuits with the same instructions have
    the same text. -/
theorem Circuit.toStim_determines (c : Circuit) :
    (∃ lines, Stim.lines? c.toStim = some lines ∧
      List.Forall₂ (fun line i => Stim.instruction? line = some i) lines c.instructions) ∧
    Stim.read? c.toStim = some c.instructions ∧
    ∀ c' : Circuit, c'.toStim = c.toStim ↔ c'.instructions = c.instructions := by
  refine ⟨⟨_, Stim.lines?_toStim c, ?_⟩, Stim.read?_toStim c, fun c' => ⟨fun htext => ?_, fun hsame => ?_⟩⟩
  · rw [List.forall₂_map_left_iff, List.forall₂_same]
    exact fun i _ => Stim.instruction?_row i
  · have hread := Stim.read?_toStim c'
    rw [htext, Stim.read?_toStim c] at hread
    exact (Option.some.inj hread).symm
  · rw [Circuit.toStim, hsame, Circuit.toStim]

end QuantumMemory

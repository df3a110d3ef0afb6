/-
  QuantumMemory.Proofs.Document.Spelling — the texts of a tree, and that they are read as it.

  A tree has many texts, with blanks between the tokens (`Spells`); the compact text and the pretty one are
  two of them (`spells_compact`, `spells_prettyAt`), and the reader takes any of them back to the tree. Each level
  of nesting has a character of text to itself, so the recursion never runs out (`value?_spelled`).

  - `read_write`, `read_pretty`: a tree that can be written is read back from either text.
  - `read_explicit`: a tree that was read has no scalar without quotes in it.
-/

import QuantumMemory.Document.Json
import QuantumMemory.Proofs.Document.Token

namespace QuantumMemory.Document

/-- Every string in the tree has a text and every number a spelling. -/
inductive Written : Document → Prop
  | null : Written .null
  | bool (b : Bool) : Written (.bool b)
  | number {n : Numeral} : n.Spellable → Written (.number n)
  | text (s : String) : Written (.text (some s))
  | list {items : List Document} : (∀ d ∈ items, Written d) → Written (.list items)
  | object {fields : List (Option String × Document)} :
    (∀ field ∈ fields, field.1.isSome) → (∀ field ∈ fields, Written field.2) → Written (.object fields)

/-- No scalar in the tree is left to be resolved. -/
inductive Explicit : Document → Prop
  | null : Explicit .null
  | bool (b : Bool) : Explicit (.bool b)
  | number (n : Numeral) : Explicit (.number n)
  | text (s : Option String) : Explicit (.text s)
  | list {items : List Document} : (∀ d ∈ items, Explicit d) → Explicit (.list items)
  | object {fields : List (Option String × Document)} :
    (∀ field ∈ fields, Explicit field.2) → Explicit (.object fields)

namespace Json

/-! ## Blanks -/

def Blank (gap : List Char) : Prop := ∀ c ∈ gap, isBlank c = true

theorem blank_nil : Blank [] := fun _ h => absurd h List.not_mem_nil

theorem blank_space : Blank [' '] := fun c hc => by
  cases List.mem_singleton.mp hc
  rfl

theorem blank_newline (depth : Nat) : Blank (newline depth) := by
  refine List.forall_mem_cons.mpr ⟨rfl, fun c hc => ?_⟩
  cases List.eq_of_mem_replicate hc
  rfl

theorem skipBlank_gap {gap : List Char} (h : Blank gap) {c : Char} (hc : isBlank c = false) (rest : List Char) :
    skipBlank (gap ++ c :: rest) = c :: rest := by
  rw [skipBlank, List.dropWhile_append_of_pos h, List.dropWhile_cons_of_neg (by simp [hc])]

theorem skipBlank_cons {c : Char} (hc : isBlank c = false) (rest : List Char) : skipBlank (c :: rest) = c :: rest :=
  skipBlank_gap blank_nil hc rest

theorem breaks_gap {gap : List Char} (h : Blank gap) {c : Char}
    (hc : c.isDigit = false ∧ c ≠ '.' ∧ c ≠ 'e' ∧ c ≠ 'E') (rest : List Char) : Breaks (gap ++ c :: rest) := by
  cases gap with
  | nil => exact breaks_cons hc rest
  | cons b others =>
    have hblank := h b List.mem_cons_self
    refine breaks_cons ?_ _
    simp only [isBlank, Bool.or_eq_true, decide_eq_true_eq] at hblank
    rcases hblank with ((rfl | rfl) | rfl) | rfl <;> decide

/-! ## The texts of a tree -/

mutual

/-- A text of the tree. -/
inductive Spells : Document → List Char → Prop
  | null : Spells .null "null".toList
  | bool (b : Bool) : Spells (.bool b) (if b then "true".toList else "false".toList)
  | number {n : Numeral} : n.Spellable → Spells (.number n) n.toText
  | text (s : String) : Spells (.text (some s)) (quoted s)
  | emptyList : Spells (.list []) ['[', ']']
  | list (gap : List Char) {items : List Document} {text : List Char} :
    Blank gap → SpellsItems items text → Spells (.list items) ('[' :: (gap ++ text))
  | emptyObject : Spells (.object []) ['{', '}']
  | object (gap : List Char) {fields : List (Option String × Document)} {text : List Char} :
    Blank gap → SpellsMembers fields text → Spells (.object fields) ('{' :: (gap ++ text))

/-- A text of the items of a list, its closing bracket included. -/
inductive SpellsItems : List Document → List Char → Prop
  | last (gap : List Char) {d : Document} {text : List Char} :
    Blank gap → Spells d text → SpellsItems [d] (text ++ (gap ++ [']']))
  | more (gap : List Char) {d : Document} {items : List Document} {text others : List Char} :
    Blank gap → Spells d text → SpellsItems items others → SpellsItems (d :: items) (text ++ ',' :: (gap ++ others))

/-- A text of the members of an object, its closing brace included. -/
inductive SpellsMembers : List (Option String × Document) → List Char → Prop
  | last (between gap : List Char) {name : String} {d : Document} {text : List Char} :
    Blank between → Blank gap → Spells d text →
      SpellsMembers [(some name, d)] (quoted name ++ ':' :: (between ++ (text ++ (gap ++ ['}']))))
  | more (between gap : List Char) {name : String} {d : Document} {fields : List (Option String × Document)}
    {text others : List Char} :
    Blank between → Blank gap → Spells d text → SpellsMembers fields others →
      SpellsMembers ((some name, d) :: fields) (quoted name ++ ':' :: (between ++ (text ++ ',' :: (gap ++ others))))

end

/-- A text begins with its first token. -/
theorem Spells.head {d : Document} {text : List Char} (h : Spells d text) :
    ∃ c cs, text = c :: cs ∧ isBlank c = false ∧ c ≠ ']' := by
  cases h with
  | null => exact ⟨'n', _, rfl, by decide⟩
  | bool b => cases b <;> exact ⟨_, _, rfl, by decide⟩
  | number hn =>
    obtain ⟨c, cs, htext, hc⟩ := toText_head hn
    refine ⟨c, cs, htext, ?_⟩
    rcases hc with hdigit | rfl
    · refine ⟨?_, by rintro rfl; cases hdigit⟩
      refine Bool.eq_false_iff.mpr fun hblank => ?_
      simp only [isBlank, Bool.or_eq_true, decide_eq_true_eq] at hblank
      rcases hblank with ((rfl | rfl) | rfl) | rfl <;> cases hdigit
    · decide
  | text s => exact ⟨'"', _, rfl, by decide⟩
  | emptyList | list => exact ⟨'[', _, rfl, by decide⟩
  | emptyObject | object => exact ⟨'{', _, rfl, by decide⟩

theorem SpellsItems.head {items : List Document} {text : List Char} (h : SpellsItems items text) :
    ∃ c cs, text = c :: cs ∧ isBlank c = false ∧ c ≠ ']' := by
  cases h with
  | last _ _ hd | more _ _ hd =>
    obtain ⟨c, cs, rfl, hc⟩ := hd.head
    exact ⟨c, _, rfl, hc⟩

theorem SpellsMembers.head {fields : List (Option String × Document)} {text : List Char}
    (h : SpellsMembers fields text) : ∃ cs, text = '"' :: cs := by
  cases h <;> exact ⟨_, rfl⟩

/-! ## Reading a text -/

theorem value?_scalar {c : Char} (hc : isBlank c = false) (hlist : c ≠ '[') (hobject : c ≠ '{') (fuel : Nat)
    {gap : List Char} (hgap : Blank gap) (rest : List Char) :
    value? (fuel + 1) (gap ++ c :: rest) = scalar? (c :: rest) := by
  rw [value?, skipBlank_gap hgap hc]
  split
  · rename_i heq
    cases heq
    exact absurd rfl hlist
  · rename_i heq
    cases heq
    exact absurd rfl hobject
  · rfl

theorem quoted_append (s : String) (rest : List Char) :
    quoted s ++ rest = '"' :: (s.toList.flatMap escape ++ '"' :: rest) := by
  simp [quoted]

/-- A bracket, then items. -/
theorem value?_items {fuel : Nat} {gap inner : List Char} (hgap : Blank gap) (hinner : Blank inner) {c : Char}
    {cs rest : List Char} {items : List Document} (hc : isBlank c = false ∧ c ≠ ']')
    (h : items? fuel (c :: cs) = some (items, rest)) :
    value? (fuel + 1) (gap ++ '[' :: (inner ++ c :: cs)) = some (.list items, rest) := by
  rw [value?, skipBlank_gap hgap rfl]
  simp only [skipBlank_gap hinner hc.1]
  split
  · rename_i heq
    cases heq
    exact absurd rfl hc.2
  · rw [h]
    rfl

/-- A brace, then members. -/
theorem value?_members {fuel : Nat} {gap inner : List Char} (hgap : Blank gap) (hinner : Blank inner)
    {cs rest : List Char} {fields : List (Option String × Document)}
    (h : members? fuel ('"' :: cs) = some (fields, rest)) :
    value? (fuel + 1) (gap ++ '{' :: (inner ++ '"' :: cs)) = some (.object fields, rest) := by
  rw [value?, skipBlank_gap hgap rfl]
  simp only [skipBlank_gap hinner (show isBlank '"' = false from rfl)]
  exact congrArg (Option.map _) h

mutual

theorem value?_spelled {d : Document} {text : List Char} (h : Spells d text) {fuel : Nat} {gap rest : List Char}
    (hfuel : text.length ≤ fuel) (hgap : Blank gap) (hrest : Breaks rest) :
    value? fuel (gap ++ (text ++ rest)) = some (d, rest) := by
  obtain ⟨c, cs, htext, hc, -⟩ := h.head
  obtain ⟨fuel, rfl⟩ : ∃ k, fuel = k + 1 := ⟨fuel - 1, by simp [htext] at hfuel; omega⟩
  cases h with
  | null => exact (value?_scalar (c := 'n') rfl (by decide) (by decide) fuel hgap _).trans rfl
  | bool b =>
    cases b with
    | false => exact (value?_scalar (c := 'f') rfl (by decide) (by decide) fuel hgap _).trans rfl
    | true => exact (value?_scalar (c := 't') rfl (by decide) (by decide) fuel hgap _).trans rfl
  | number hn =>
    have hread := scalar?_number hn hrest
    obtain ⟨c', cs', htext', hdigit⟩ := toText_head hn
    cases htext.symm.trans htext'
    rw [htext, List.cons_append] at hread ⊢
    rw [value?_scalar hc (by rintro rfl; simp at hdigit) (by rintro rfl; simp at hdigit) fuel hgap, hread]
  | text s =>
    rw [quoted_append, value?_scalar (by rfl) (by decide) (by decide) fuel hgap, scalar?, string?_escaped]
    rfl
  | emptyList => rw [List.cons_append, value?, skipBlank_gap hgap rfl]; rfl
  | list inner hinner hitems =>
    obtain ⟨c', cs', rfl, hc'⟩ := hitems.head
    have hread : items? fuel ([] ++ (c' :: cs' ++ rest)) = some (_, rest) :=
      items?_spelled hitems (by simp at hfuel ⊢; omega) blank_nil
    rw [List.cons_append, List.append_assoc, List.cons_append]
    exact value?_items hgap hinner hc' hread
  | emptyObject => rw [List.cons_append, value?, skipBlank_gap hgap rfl]; rfl
  | object inner hinner hfields =>
    obtain ⟨cs', rfl⟩ := hfields.head
    have hread : members? fuel ([] ++ ('"' :: cs' ++ rest)) = some (_, rest) :=
      members?_spelled hfields (by simp at hfuel ⊢; omega) blank_nil
    rw [List.cons_append, List.append_assoc, List.cons_append]
    exact value?_members hgap hinner hread

theorem items?_spelled {items : List Document} {text : List Char} (h : SpellsItems items text) {fuel : Nat}
    {gap rest : List Char} (hfuel : text.length ≤ fuel) (hgap : Blank gap) :
    items? fuel (gap ++ (text ++ rest)) = some (items, rest) := by
  obtain ⟨c, cs, htext, -⟩ := h.head
  obtain ⟨fuel, rfl⟩ : ∃ k, fuel = k + 1 := ⟨fuel - 1, by simp [htext] at hfuel; omega⟩
  cases h with
  | @last after d text hafter hd =>
    have hread : value? fuel (gap ++ (text ++ (after ++ ']' :: rest))) = some (d, after ++ ']' :: rest) :=
      value?_spelled hd (by simp at hfuel; omega) hgap (breaks_gap hafter (by decide) rest)
    simp only [List.append_assoc, List.cons_append, List.nil_append, items?, hread,
      Option.bind_eq_bind, Option.bind_some, skipBlank_gap hafter (show isBlank ']' = false from rfl), Option.pure_def]
  | @more inner d items text others hinner hd hothers =>
    have hread : value? fuel (gap ++ (text ++ ',' :: (inner ++ (others ++ rest)))) =
        some (d, ',' :: (inner ++ (others ++ rest))) :=
      value?_spelled hd (by simp at hfuel; omega) hgap (breaks_cons (by decide) _)
    have hmore : items? fuel (inner ++ (others ++ rest)) = some (items, rest) :=
      items?_spelled hothers (by simp at hfuel; omega) hinner
    simp only [List.append_assoc, List.cons_append, items?, hread, Option.bind_eq_bind, Option.bind_some,
      skipBlank_cons (show isBlank ',' = false from rfl), hmore, Option.pure_def]

theorem members?_spelled {fields : List (Option String × Document)} {text : List Char}
    (h : SpellsMembers fields text) {fuel : Nat} {gap rest : List Char} (hfuel : text.length ≤ fuel)
    (hgap : Blank gap) : members? fuel (gap ++ (text ++ rest)) = some (fields, rest) := by
  obtain ⟨cs, htext⟩ := h.head
  obtain ⟨fuel, rfl⟩ : ∃ k, fuel = k + 1 := ⟨fuel - 1, by simp [htext] at hfuel; omega⟩
  cases h with
  | @last between after name d text hbetween hafter hd =>
    have hread : value? fuel (between ++ (text ++ (after ++ '}' :: rest))) = some (d, after ++ '}' :: rest) :=
      value?_spelled hd (by simp at hfuel; omega) hbetween (breaks_gap hafter (by decide) rest)
    simp only [List.append_assoc, List.cons_append, List.nil_append, quoted_append, members?,
      skipBlank_gap hgap (show isBlank '"' = false from rfl), string?_escaped, Option.bind_eq_bind, Option.bind_some,
      skipBlank_cons (show isBlank ':' = false from rfl), hread,
      skipBlank_gap hafter (show isBlank '}' = false from rfl), Option.pure_def]
  | @more between inner name d fields text others hbetween hinner hd hothers =>
    have hread : value? fuel (between ++ (text ++ ',' :: (inner ++ (others ++ rest)))) =
        some (d, ',' :: (inner ++ (others ++ rest))) :=
      value?_spelled hd (by simp at hfuel; omega) hbetween (breaks_cons (by decide) _)
    have hmore : members? fuel (inner ++ (others ++ rest)) = some (fields, rest) :=
      members?_spelled hothers (by simp at hfuel; omega) hinner
    simp only [List.append_assoc, List.cons_append, quoted_append, members?,
      skipBlank_gap hgap (show isBlank '"' = false from rfl), string?_escaped, Option.bind_eq_bind, Option.bind_some,
      skipBlank_cons (show isBlank ':' = false from rfl), hread,
      skipBlank_cons (show isBlank ',' = false from rfl), hmore, Option.pure_def]

end

/-- A text that spells a tree is read as it. -/
theorem read_spelled {d : Document} {text : List Char} (h : Spells d text) : read (String.ofList text) = some d := by
  have hread : value? (text.length + 1) ([] ++ (text ++ [])) = some (d, []) :=
    value?_spelled h (by omega) blank_nil breaks_nil
  rw [List.nil_append, List.append_nil] at hread
  simp only [read, String.toList_ofList, hread, Option.bind_eq_bind, Option.bind_some]
  rfl

/-! ## The two texts that are written -/

theorem spells_compactItems {items : List Document} (hne : items ≠ []) (h : ∀ d ∈ items, Spells d (compact d)) :
    SpellsItems items (compactItems items ++ [']']) := by
  induction items with
  | nil => exact absurd rfl hne
  | cons d rest ih =>
    obtain ⟨hd, hrest⟩ := List.forall_mem_cons.mp h
    cases rest with
    | nil => exact .last [] blank_nil hd
    | cons next others =>
      rw [compactItems, List.append_assoc]
      · exact .more [] blank_nil hd (ih (List.cons_ne_nil _ _) hrest)
      · exact List.cons_ne_nil _ _

theorem spells_compactMembers {fields : List (Option String × Document)} (hne : fields ≠ [])
    (hnames : ∀ field ∈ fields, field.1.isSome) (h : ∀ field ∈ fields, Spells field.2 (compact field.2)) :
    SpellsMembers fields (compactMembers fields ++ ['}']) := by
  induction fields with
  | nil => exact absurd rfl hne
  | cons field rest ih =>
    obtain ⟨hname, hothers⟩ := List.forall_mem_cons.mp hnames
    obtain ⟨hd, hrest⟩ := List.forall_mem_cons.mp h
    obtain ⟨name, d⟩ := field
    obtain ⟨name, rfl⟩ := Option.isSome_iff_exists.mp hname
    cases rest with
    | nil =>
      rw [compactMembers, List.append_assoc, List.cons_append]
      exact .last [] [] blank_nil blank_nil hd
    | cons next others =>
      rw [compactMembers, List.append_assoc, List.cons_append, List.append_assoc, List.cons_append]
      · exact .more [] [] blank_nil blank_nil hd (ih (List.cons_ne_nil _ _) hothers hrest)
      · exact List.cons_ne_nil _ _

theorem spells_compact {d : Document} (h : d.Written) : Spells d (compact d) := by
  induction h with
  | null => exact .null
  | bool b => exact .bool b
  | number hn => exact .number hn
  | text s => exact .text s
  | @list items _ ih =>
    cases items with
    | nil => exact .emptyList
    | cons d rest => exact .list [] blank_nil (spells_compactItems (List.cons_ne_nil _ _) ih)
  | @object fields hnames _ ih =>
    cases fields with
    | nil => exact .emptyObject
    | cons field rest => exact .object [] blank_nil (spells_compactMembers (List.cons_ne_nil _ _) hnames ih)

theorem spells_prettyItems (depth : Nat) {d : Document} {rest : List Document}
    (h : ∀ e ∈ d :: rest, Spells e (prettyAt (depth + 1) e)) :
    SpellsItems (d :: rest) (prettyAt (depth + 1) d ++ (prettyItems depth rest ++ [']'])) := by
  induction rest generalizing d with
  | nil =>
    exact .last (newline depth) (blank_newline depth) (h d List.mem_cons_self)
  | cons next others ih =>
    obtain ⟨hd, hrest⟩ := List.forall_mem_cons.mp h
    simp only [prettyItems, List.append_assoc, List.cons_append]
    exact .more (newline (depth + 1)) (blank_newline (depth + 1)) hd (ih hrest)

theorem spells_prettyMembers (depth : Nat) {name : Option String} {d : Document}
    {rest : List (Option String × Document)} (hnames : ∀ field ∈ (name, d) :: rest, field.1.isSome)
    (h : ∀ field ∈ (name, d) :: rest, Spells field.2 (prettyAt (depth + 1) field.2)) :
    SpellsMembers ((name, d) :: rest)
      (key name ++ ':' :: ' ' :: (prettyAt (depth + 1) d ++ (prettyMembers depth rest ++ ['}']))) := by
  induction rest generalizing name d with
  | nil =>
    obtain ⟨name, rfl⟩ := Option.isSome_iff_exists.mp (hnames _ List.mem_cons_self)
    exact .last [' '] (newline depth) blank_space (blank_newline depth) (h _ List.mem_cons_self)
  | cons next others ih =>
    obtain ⟨hname, hothers⟩ := List.forall_mem_cons.mp hnames
    obtain ⟨hd, hrest⟩ := List.forall_mem_cons.mp h
    obtain ⟨name, rfl⟩ := Option.isSome_iff_exists.mp hname
    simp only [prettyMembers, List.append_assoc, List.cons_append]
    exact .more [' '] (newline (depth + 1)) blank_space (blank_newline (depth + 1)) hd (ih hothers hrest)

theorem spells_prettyAt {d : Document} (h : d.Written) (depth : Nat) : Spells d (prettyAt depth d) := by
  induction h generalizing depth with
  | null => exact .null
  | bool b => exact .bool b
  | number hn => exact .number hn
  | text s => exact .text s
  | @list items _ ih =>
    cases items with
    | nil => exact .emptyList
    | cons d rest =>
      simp only [prettyAt, List.append_assoc]
      exact .list (newline (depth + 1)) (blank_newline (depth + 1)) (spells_prettyItems depth fun e he => ih e he (depth + 1))
  | @object fields hnames _ ih =>
    cases fields with
    | nil => exact .emptyObject
    | cons field rest =>
      simp only [prettyAt, List.append_assoc, List.cons_append]
      exact .object (newline (depth + 1)) (blank_newline (depth + 1))
        (spells_prettyMembers depth hnames fun field hfield => ih field hfield (depth + 1))

/-- The compact text of a tree is read as the tree. -/
theorem read_write {d : Document} (h : d.Written) : read (write d) = some d := read_spelled (spells_compact h)

/-- The text over lines of a tree is read as the tree. -/
theorem read_pretty {d : Document} (h : d.Written) : read (pretty d) = some d := read_spelled (spells_prettyAt h 0)

/-! ## What is read -/

theorem scalar?_explicit {cs rest : List Char} {d : Document} (h : scalar? cs = some (d, rest)) : d.Explicit := by
  unfold scalar? at h
  split at h
  · cases h
  · obtain ⟨⟨s, _⟩, -, heq⟩ := Option.map_eq_some_iff.mp h
    cases heq
    exact .text s
  · obtain ⟨⟨n, _⟩, -, heq⟩ := Option.map_eq_some_iff.mp h
    cases heq
    exact .number n
  · split_ifs at h
    · obtain ⟨⟨n, _⟩, -, heq⟩ := Option.map_eq_some_iff.mp h
      cases heq
      exact .number n
    · obtain ⟨_, -, heq⟩ := Option.map_eq_some_iff.mp h
      cases heq
      exact .null
    · obtain ⟨_, -, heq⟩ := Option.map_eq_some_iff.mp h
      cases heq
      exact .bool true
    · obtain ⟨_, -, heq⟩ := Option.map_eq_some_iff.mp h
      cases heq
      exact .bool false

/-- The readers of a value, of items and of members, each in terms of those with less text to read. -/
theorem readers_explicit (fuel : Nat) :
    (∀ cs d rest, value? fuel cs = some (d, rest) → d.Explicit) ∧
    (∀ cs items rest, items? fuel cs = some (items, rest) → ∀ d ∈ items, d.Explicit) ∧
    (∀ cs fields rest, members? fuel cs = some (fields, rest) → ∀ field ∈ fields, field.2.Explicit) := by
  induction fuel with
  | zero => refine ⟨?_, ?_, ?_⟩ <;> intro _ _ _ h <;> cases h
  | succ fuel ih =>
    obtain ⟨hvalue, hitems, hmembers⟩ := ih
    refine ⟨fun cs d rest h => ?_, fun cs items rest h => ?_, fun cs fields rest h => ?_⟩
    · rw [value?] at h
      split at h
      · split at h
        · cases h
          exact .list fun _ hmem => absurd hmem List.not_mem_nil
        · obtain ⟨⟨items, after⟩, hread, heq⟩ := Option.map_eq_some_iff.mp h
          cases heq
          exact .list (hitems _ _ _ hread)
      · split at h
        · cases h
          exact .object fun _ hmem => absurd hmem List.not_mem_nil
        · obtain ⟨⟨fields, after⟩, hread, heq⟩ := Option.map_eq_some_iff.mp h
          cases heq
          exact .object (hmembers _ _ _ hread)
      · exact scalar?_explicit h
    · obtain ⟨⟨item, after⟩, hitem, h⟩ := Option.bind_eq_some_iff.mp h
      have hfirst := hvalue _ _ _ hitem
      dsimp only at h
      split at h
      · cases h
        exact List.forall_mem_singleton.mpr hfirst
      · obtain ⟨⟨others, after⟩, hothers, h⟩ := Option.bind_eq_some_iff.mp h
        cases h
        exact List.forall_mem_cons.mpr ⟨hfirst, hitems _ _ _ hothers⟩
      · cases h
    · rw [members?] at h
      split at h
      · obtain ⟨⟨name, after⟩, -, h⟩ := Option.bind_eq_some_iff.mp h
        dsimp only at h
        split at h
        · obtain ⟨⟨value, after⟩, hread, h⟩ := Option.bind_eq_some_iff.mp h
          have hfirst := hvalue _ _ _ hread
          dsimp only at h
          split at h
          · cases h
            exact List.forall_mem_singleton.mpr hfirst
          · obtain ⟨⟨others, after⟩, hothers, h⟩ := Option.bind_eq_some_iff.mp h
            cases h
            exact List.forall_mem_cons.mpr ⟨hfirst, hmembers _ _ _ hothers⟩
          · cases h
        · cases h
      · cases h

/-- A tree that was read has no scalar without quotes in it. -/
theorem read_explicit {s : String} {d : Document} (h : read s = some d) : d.Explicit := by
  obtain ⟨⟨value, rest⟩, hread, h⟩ := Option.bind_eq_some_iff.mp h
  obtain ⟨-, hd⟩ := Option.ite_none_right_eq_some.mp h
  cases hd
  exact (readers_explicit _).1 _ _ _ hread

end Json

end QuantumMemory.Document

/-
  QuantumMemory.Proofs.Document.Fields — what a reader of a field gives, and that it undoes the writer.

  `Readable read a` says that some tree is read as `a`. From it follows what a reader guarantees: the bound of a
  count, the finiteness of a number, the same of every item of a list. With that the value is read again from
  what the writer makes of it (`natural?_ofNat`, `number?_ofBinary64`, `all?_ofList`). A record is read
  field by field, whatever fields it leaves out (`record?_record`, `get?_cons`).

  What is taken apart before its shape is known comes out as it went in (`settled?_explicit`).
-/

import QuantumMemory.Document.Read
import QuantumMemory.Proofs.Document.Spelling
import QuantumMemory.Proofs.Success

namespace QuantumMemory.Document

/-- Some tree is read as the value. -/
def Readable {α : Type} (read : Document → Option α) (a : α) : Prop := ∃ d : Document, d.Explicit ∧ read d = some a

section

variable {α : Type} {read : Document → Option α} {write : α → Document}

/-! ## Scalars -/

theorem natural?_le {bound n : Nat} {d : Document} (h : natural? bound d = some n) : n ≤ bound := by
  cases d with
  | number literal => exact Numeral.natural?_le h
  | plain s =>
    rw [natural?, Plain.natural?] at h
    split at h
    · obtain ⟨⟨hle, -⟩, hn⟩ := Option.ite_none_right_eq_some.mp h
      exact Option.some.inj hn ▸ hle
    · cases h
  | null | bool | text | list | object => cases h

theorem Readable.natural {bound n : Nat} (h : Readable (natural? bound) n) : n ≤ bound := by
  obtain ⟨d, -, hread⟩ := h
  exact natural?_le hread

theorem Readable.integer {low high k : Int} (h : Readable (integer? low high) k) : low ≤ k ∧ k ≤ high := by
  obtain ⟨d, hd, hread⟩ := h
  cases hd with
  | number literal => simpa using (Option.filter_eq_some_iff.mp hread).2
  | null | bool | text | list | object => cases hread

theorem Readable.number {x : Binary64} (h : Readable number? x) : x.isFinite = true := by
  obtain ⟨d, hd, hread⟩ := h
  cases hd with
  | number literal => exact Numeral.number?_isFinite hread
  | null | bool | text | list | object => cases hread

theorem natural?_ofNat {bound n : Nat} (h : n ≤ bound) (hbound : bound ≤ Numeral.naturalBound) :
    natural? bound (ofNat n) = some n := Numeral.natural?_ofNat h hbound

theorem integer?_ofInt {low high k : Int} (h : low ≤ k ∧ k ≤ high) (hlow : -(Numeral.negativeBound : Int) ≤ low)
    (hhigh : high ≤ Numeral.naturalBound) : integer? low high (ofInt k) = some k := by
  rw [ofInt, integer?, Numeral.integer?_ofInt (hlow.trans h.1) (h.2.trans hhigh)]
  exact Option.filter_eq_some_iff.mpr ⟨rfl, by simpa using h⟩

theorem exists_numeral {x : Binary64} (h : x.isFinite = true) : ∃ n, Numeral.ofBinary64 x = some n := by
  cases x with
  | finite negative m => exact ⟨_, rfl⟩
  | infinite | nan => cases h

theorem number?_ofBinary64 {x : Binary64} (hfinite : x.isFinite = true) (h : x.ReadsBack) :
    number? (ofBinary64 x) = some x := by
  obtain ⟨n, hn⟩ := exists_numeral hfinite
  rw [ofBinary64, hn]
  exact h n hn

@[simp] theorem string?_ofString (s : String) : string? (ofString s) = some s := rfl

/-! ## Lists -/

theorem Readable.all {as : List α} (h : Readable (all? read) as) : ∀ a ∈ as, Readable read a := by
  obtain ⟨d, hd, hread⟩ := h
  cases hd with
  | list hitems =>
    intro a ha
    obtain ⟨item, hmem, hitem⟩ := mapM_eq_some hread a ha
    exact ⟨item, hitems item hmem, hitem⟩
  | null | bool | text | number | object => cases hread

theorem all?_ofList {as : List α} (h : ∀ a ∈ as, read (write a) = some a) : all? read (ofList write as) = some as :=
  mapM_map h

theorem orNull_eq {d : Document} {a : α} (hnull : d.isNull = false) (h : read d = some a) :
    orNull read d = some (some a) := by
  rw [orNull, hnull, h]
  rfl

/-! ## Records -/

def Fields.Explicit (fields : Fields) : Prop := ∀ field ∈ fields, field.2.Explicit

theorem known?_mem {names : List String} {members : List (Option String × Document)} {fields : Fields}
    (h : known? names members = some fields) : ∀ field ∈ fields, (some field.1, field.2) ∈ members := by
  induction members generalizing fields with
  | nil => cases h; simp
  | cons member rest ih =>
    obtain ⟨name, d⟩ := member
    cases name with
    | none => cases h
    | some name =>
      obtain ⟨known, hknown, h⟩ := Option.bind_eq_some_iff.mp h
      have hrest := ih hknown
      split_ifs at h
      · cases h
        exact List.forall_mem_cons.mpr
          ⟨List.mem_cons_self, fun field hfield => List.mem_cons_of_mem _ (hrest field hfield)⟩
      · cases h
        exact fun field hfield => List.mem_cons_of_mem _ (hrest field hfield)

theorem record?_explicit {names : List String} {d : Document} {fields : Fields} (hd : d.Explicit)
    (h : d.record? names = some fields) : fields.Explicit := by
  cases hd with
  | object hmembers => exact fun field hfield => hmembers _ (known?_mem h field hfield)
  | list hitems =>
    obtain ⟨-, hzip⟩ := Option.ite_none_right_eq_some.mp h
    cases hzip
    exact fun field hfield => hitems _ (List.of_mem_zip hfield).2
  | null | bool | text | number => cases h

namespace Fields

theorem get?_mem {fields : Fields} {name : String} {d : Document} (h : fields.get? name = some d) :
    ∃ field ∈ fields, field.2 = d := by
  obtain ⟨field, hfind, hd⟩ := Option.map_eq_some_iff.mp h
  exact ⟨field, List.mem_of_find?_eq_some hfind, hd⟩

theorem Explicit.required {fields : Fields} (hfields : fields.Explicit) {name : String} {a : α}
    (h : fields.required name read = some a) : Readable read a := by
  obtain ⟨d, hget, hread⟩ := Option.bind_eq_some_iff.mp h
  obtain ⟨field, hmem, rfl⟩ := get?_mem hget
  exact ⟨_, hfields field hmem, hread⟩

theorem Explicit.defaulted {fields : Fields} (hfields : fields.Explicit) {name : String} {missing a : α}
    (h : fields.defaulted name missing read = some a) : a = missing ∨ Readable read a := by
  rw [Fields.defaulted] at h
  split at h
  · rename_i d hget
    obtain ⟨field, hmem, rfl⟩ := get?_mem hget
    exact .inr ⟨_, hfields field hmem, h⟩
  · exact .inl (Option.some.inj h).symm

/-- What holds of the value for a missing field and of whatever is read holds of the field. -/
@[elab_as_elim] theorem Explicit.defaulted_elim {motive : α → Prop} {fields : Fields} (hfields : fields.Explicit) {name : String}
    {missing a : α} (h : fields.defaulted name missing read = some a) (hmissing : motive missing)
    (hread : ∀ a, Readable read a → motive a) : motive a := by
  rcases hfields.defaulted h with rfl | ha
  · exact hmissing
  · exact hread a ha

theorem Explicit.optional {fields : Fields} (hfields : fields.Explicit) {name : String} {o : Option α}
    (h : fields.optional name (orNull read) = some o) : ∀ a ∈ o, Readable read a := by
  rintro a rfl
  rcases hfields.defaulted h with h | ⟨d, hd, hread⟩
  · cases h
  · rw [orNull] at hread
    split at hread
    · cases hread
    · obtain ⟨b, hb, hsome⟩ := Option.map_eq_some_iff.mp hread
      cases hsome
      exact ⟨d, hd, hb⟩

@[simp] theorem get?_cons (name other : String) (d : Document) (fields : Fields) :
    get? ((other, d) :: fields) name = if other = name then some d else get? fields name := by
  by_cases h : other = name <;> simp [get?, h]

@[simp] theorem get?_nil (name : String) : get? [] name = none := rfl

/-- A field is read wherever it stands. With `read` a variable here, no proof about a record has the kernel compute
    what a field is read as. -/
@[simp] theorem required_cons (read : Document → Option α) (name other : String) (d : Document) (fields : Fields) :
    required ((other, d) :: fields) name read = if other = name then read d else required fields name read := by
  rw [required, get?_cons]
  by_cases h : other = name
  · rw [if_pos h, if_pos h, Option.bind_some]
  · rw [if_neg h, if_neg h, required]

@[simp] theorem defaulted_cons (read : Document → Option α) (name other : String) (missing : α) (d : Document)
    (fields : Fields) : defaulted ((other, d) :: fields) name missing read =
      if other = name then read d else defaulted fields name missing read := by
  rw [defaulted, get?_cons]
  by_cases h : other = name
  · rw [if_pos h, if_pos h]
  · rw [if_neg h, if_neg h, defaulted]

@[simp] theorem defaulted_nil (read : Document → Option α) (name : String) (missing : α) :
    defaulted [] name missing read = some missing := rfl

/-- A field that was left out when there was nothing to say is read as it was. -/
theorem optional_of_get? {fields : Fields} {name : String} {o : Option α} (hget : fields.get? name = o.map write)
    (hnull : ∀ a ∈ o, (write a).isNull = false) (h : ∀ a ∈ o, read (write a) = some a) :
    fields.optional name (orNull read) = some o := by
  rw [optional, defaulted, hget]
  cases o with
  | none => rfl
  | some a => exact orNull_eq (hnull a rfl) (h a rfl)

end Fields

end

/-- The members of a record. -/
def members (fields : Fields) : List (Option String × Document) := fields.map fun (name, value) => (some name, value)

/-- Of fields with different names the known ones are found. -/
theorem known?_members (names : List String) {fields : Fields} (h : (fields.map (·.1)).Nodup) :
    known? names (members fields) = some (fields.filter fun field => field.1 ∈ names) := by
  induction fields with
  | nil => rfl
  | cons field rest ih =>
    obtain ⟨hnew, hrest⟩ := List.nodup_cons.mp h
    have hfresh : (rest.filter fun field => field.1 ∈ names).any (·.1 == field.1) = false := by
      refine List.any_eq_false.mpr fun other hother heq => hnew ?_
      exact List.mem_map.mpr ⟨other, List.mem_of_mem_filter hother, beq_iff_eq.mp heq⟩
    rw [members, List.map_cons, known?, ← members, ih hrest]
    simp only [Option.bind_eq_bind, Option.bind_some, hfresh, Bool.false_eq_true, if_false]
    by_cases hname : field.1 ∈ names
    · rw [if_pos hname, List.filter_cons_of_pos (by simpa using hname)]
    · rw [if_neg hname, List.filter_cons_of_neg (by simpa using hname)]

@[simp] theorem record?_record {names : List String} {fields : Fields} (hnames : ∀ field ∈ fields, field.1 ∈ names)
    (h : (fields.map (·.1)).Nodup) : (record fields).record? names = some fields := by
  show known? names (members fields) = some fields
  rw [known?_members names h, List.filter_eq_self.mpr (by simpa using hnames)]

/-! ## What is settled before it is read -/

theorem settledItems?_eq {depth : Nat} {items settled : List Document}
    (h : ∀ d ∈ items, ∀ e, settled? depth d = some e → e = d) (hsettled : settledItems? depth items = some settled) :
    settled = items := by
  induction items generalizing settled with
  | nil => cases hsettled; rfl
  | cons d rest ih =>
    obtain ⟨hd, hrest⟩ := List.forall_mem_cons.mp h
    obtain ⟨e, he, hsettled⟩ := Option.bind_eq_some_iff.mp hsettled
    obtain ⟨others, hothers, hsettled⟩ := Option.bind_eq_some_iff.mp hsettled
    cases hsettled
    rw [hd e he, ih hrest hothers]

theorem settledFields?_eq {depth : Nat} {fields settled : List (Option String × Document)}
    (h : ∀ field ∈ fields, ∀ e, settled? depth field.2 = some e → e = field.2)
    (hsettled : settledFields? depth fields = some settled) : settled = fields := by
  induction fields generalizing settled with
  | nil => cases hsettled; rfl
  | cons field rest ih =>
    obtain ⟨name, d⟩ := field
    obtain ⟨hd, hrest⟩ := List.forall_mem_cons.mp h
    cases name with
    | none => cases hsettled
    | some name =>
      obtain ⟨e, he, hsettled⟩ := Option.bind_eq_some_iff.mp hsettled
      obtain ⟨others, hothers, hsettled⟩ := Option.bind_eq_some_iff.mp hsettled
      cases hsettled
      rw [hd e he, ih hrest hothers]

/-- With nothing left to resolve a tree is settled as it is. -/
theorem settled?_explicit {d e : Document} (hd : d.Explicit) {depth : Nat} (h : settled? depth d = some e) : e = d := by
  induction hd generalizing depth e with
  | null => cases h; rfl
  | bool b => cases h; rfl
  | number n =>
    obtain ⟨_, -, rfl⟩ := Option.map_eq_some_iff.mp h
    rfl
  | text s =>
    obtain ⟨_, rfl, rfl⟩ := Option.map_eq_some_iff.mp h
    rfl
  | list _ ih =>
    cases depth with
    | zero => cases h
    | succ depth =>
      obtain ⟨items, hitems, rfl⟩ := Option.map_eq_some_iff.mp h
      rw [settledItems?_eq (fun d hd e he => ih d hd he) hitems]
  | object _ ih =>
    cases depth with
    | zero => cases h
    | succ depth =>
      obtain ⟨fields, hfields, rfl⟩ := Option.map_eq_some_iff.mp h
      rw [settledFields?_eq (fun field hfield e he => ih field hfield he) hfields]

theorem settled?_ofNat {n : Nat} (h : n ≤ Numeral.naturalBound) (depth : Nat) :
    settled? depth (ofNat n) = some (ofNat n) := by
  have hread := Numeral.integer?_ofInt (k := (n : Int)) (by omega) (by exact_mod_cast h)
  have hnumber : (Numeral.ofNat n).number? = some (.ofIntRatio n 1) := by rw [Numeral.number?]; exact hread ▸ rfl
  rw [ofNat, settled?, hnumber]
  rfl

theorem settled?_ofBinary64 {x : Binary64} (hfinite : x.isFinite = true) (h : x.ReadsBack) (depth : Nat) :
    settled? depth (ofBinary64 x) = some (ofBinary64 x) := by
  obtain ⟨n, hn⟩ := exists_numeral hfinite
  rw [ofBinary64, hn, settled?, h n hn]
  rfl

theorem settledFields?_members {depth : Nat} {fields : Fields}
    (h : ∀ field ∈ fields, settled? depth field.2 = some field.2) :
    settledFields? depth (members fields) = some (members fields) := by
  induction fields with
  | nil => rfl
  | cons field rest ih =>
    obtain ⟨hd, hrest⟩ := List.forall_mem_cons.mp h
    rw [members, List.map_cons, settledFields?, hd, ← members, ih hrest]
    rfl

/-! ## What is written -/

@[simp] theorem written_ofNat (n : Nat) : (ofNat n).Written := .number (Numeral.spellable_ofNat n)

@[simp] theorem written_ofInt (k : Int) : (ofInt k).Written := .number (Numeral.spellable_ofInt k)

@[simp] theorem written_ofString (s : String) : (ofString s).Written := .text s

@[simp] theorem written_ofBinary64 (x : Binary64) : (ofBinary64 x).Written := by
  rw [ofBinary64]
  split
  · exact .number (Numeral.spellable_ofBinary64 ‹_›)
  · exact .null

@[simp] theorem written_list {items : List Document} : (list items).Written ↔ ∀ d ∈ items, d.Written := by
  refine ⟨fun h => ?_, .list⟩
  cases h with
  | list h => exact h

@[simp] theorem written_ofList {α : Type} {write : α → Document} {as : List α} :
    (ofList write as).Written ↔ ∀ a ∈ as, (write a).Written := by
  rw [ofList, written_list, List.forall_mem_map]

@[simp] theorem written_record {fields : Fields} : (record fields).Written ↔ ∀ field ∈ fields, field.2.Written := by
  refine ⟨fun h => ?_, fun h => .object ?_ ?_⟩
  · cases h with
    | object _ h => exact fun field hfield => h _ (List.mem_map_of_mem hfield)
  · exact List.forall_mem_map.mpr fun _ _ => rfl
  · exact List.forall_mem_map.mpr h

@[simp] theorem optionalField_some {α : Type} (name : String) (write : α → Document) (a : α) :
    optionalField name write (some a) = [(name, write a)] := rfl

@[simp] theorem optionalField_none {α : Type} (name : String) (write : α → Document) :
    optionalField name write none = [] := rfl

end QuantumMemory.Document

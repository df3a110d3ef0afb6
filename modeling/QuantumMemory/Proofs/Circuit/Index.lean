/-
  QuantumMemory.Proofs.Circuit.Index — a ledger's index and its entries stay in agreement.

  `Agrees` says that entries carry their places as numbers and that the index has just
  these, each under the qubit and the round of its entry. A new entry keeps it, since the
  index had nothing there (`Agrees.written`), and a refused one changes nothing. So no
  two entries share qubit and round, and what the index gives is the entry's own number.

  Main result: `recorded_lawful`, over every run of calls, refused ones among them, and what
  later calls make of a look-up. `recorded_ledger` says that the ledger without an index
  answers the same.
-/

import QuantumMemory.Circuit.Index
import QuantumMemory.Proofs.Circuit.Edit
import QuantumMemory.Proofs.Circuit.Reference

namespace QuantumMemory

open Edit

theorem getElem?_concat_eq_some {α : Type} {xs : List α} {x y : α} {i : Nat} :
    (xs ++ [x])[i]? = some y ↔ xs[i]? = some y ∨ i = xs.length ∧ x = y := by
  rw [List.getElem?_append]
  split
  · rename_i hlt
    constructor
    · exact .inl
    · rintro (h | ⟨rfl, -⟩)
      · exact h
      · exact absurd hlt (Nat.lt_irrefl _)
  · rename_i hge
    rw [List.getElem?_eq_none (Nat.le_of_not_lt hge), List.getElem?_singleton]
    constructor
    · intro h
      obtain ⟨hzero, hy⟩ := Option.ite_none_right_eq_some.mp h
      exact .inr ⟨by omega, Option.some.inj hy⟩
    · rintro (h | ⟨rfl, rfl⟩)
      · cases h
      · rw [Nat.sub_self, if_pos rfl]

namespace RecordOffset

/-- The one reference to an outcome is the distance to it from the end. -/
theorem resolve?_eq_some {offset : Int} {i n : Nat} : resolve? offset n = some i ↔ i < n ∧ offset = (i : Int) - n := by
  cases offset with
  | ofNat k =>
    have hk : Int.ofNat k = (k : Int) := rfl
    rw [hk]
    constructor
    · intro h
      cases h
    · omega
  | negSucc later =>
    have hlater : Int.negSucc later = -(later : Int) - 1 := by omega
    have hresolve : resolve? (Int.negSucc later) n = if later < n then some (n - later - 1) else none := rfl
    rw [hresolve, Option.ite_none_right_eq_some, Option.some.injEq, hlater]
    omega

theorem ofIndex?_eq {i n : Nat} (hi : i < n) (hn : n ≤ reach) : ofIndex? i n = some ((i : Int) - n) := by
  have hoffset : Int.negSucc (n - i - 1) = (i : Int) - n := by omega
  rw [ofIndex?, if_pos hi, back?, if_pos (by omega), hoffset]

end RecordOffset

/-- The ledger after a call, as it was if the call is refused. -/
def Ledger.after (l : Ledger) (m : Measurement) : Ledger :=
  match l.record m.qubit m.round m.kind with
  | .ok l' => l'
  | .error _ => l

namespace IndexedLedger

variable {l : IndexedLedger}

/-! ## Recording -/

/-- The ledger with the measurement in its entries and in its index. -/
def written (l : IndexedLedger) (m : Measurement) : IndexedLedger where
  records := l.records ++ [(m, l.length)]
  index q r := if q = m.qubit ∧ r = m.round then some l.length else l.index q r

theorem perform_record_new {m : Measurement} (h : l.index m.qubit m.round = none) :
    perform l (record m.qubit m.round m.kind) = (.ok (-1), l.written m) := by
  rw [record, perform_bind (perform_get l), h]
  rfl

theorem perform_record_again {m : Measurement} {i : Nat} (h : l.index m.qubit m.round = some i) :
    perform l (record m.qubit m.round m.kind) = (.error (.duplicateMeasurement m.qubit m.round), l) := by
  rw [record, perform_bind (perform_get l), h]
  rfl

/-- The ledger after calls, refused ones among them. -/
def recorded (l : IndexedLedger) (calls : List Measurement) : IndexedLedger :=
  calls.foldl (fun l m => (perform l (record m.qubit m.round m.kind)).2) l

/-- How many of the calls succeed. -/
def accepted (l : IndexedLedger) : List Measurement → Nat
  | [] => 0
  | m :: rest =>
    match perform l (record m.qubit m.round m.kind) with
    | (.ok _, l') => accepted l' rest + 1
    | (.error _, l') => accepted l' rest

/-! ## Agreement -/

/-- The entries are numbered by their places, and the index has these numbers and no others. -/
structure Agrees (l : IndexedLedger) : Prop where
  numbered : l.records.map (·.2) = List.range l.length
  indexed : ∀ q r i, l.index q r = some i ↔ ∃ m, l.records[i]? = some (m, i) ∧ m.term = (q, r)

theorem agrees_empty : Agrees empty where
  numbered := rfl
  indexed _ _ _ := ⟨fun h => (by cases h), fun ⟨_, h, _⟩ => (by cases h)⟩

theorem Agrees.written (h : l.Agrees) {m : Measurement} (hnew : l.index m.qubit m.round = none) :
    (l.written m).Agrees := by
  constructor
  · show (l.records ++ [(m, l.length)]).map (·.2) = List.range (l.records ++ [(m, l.length)]).length
    rw [List.map_append, h.numbered, List.length_append, List.length_singleton, List.range_succ]
    rfl
  · intro q r i
    have hentries : (∃ m', (l.written m).records[i]? = some (m', i) ∧ m'.term = (q, r)) ↔
        l.index q r = some i ∨ i = l.length ∧ m.term = (q, r) := by
      rw [h.indexed]
      constructor
      · rintro ⟨m', hm', hterm⟩
        rcases getElem?_concat_eq_some.mp hm' with hold | ⟨hi, hnewest⟩
        · exact .inl ⟨m', hold, hterm⟩
        · obtain rfl : m = m' := congrArg Prod.fst hnewest
          exact .inr ⟨hi, hterm⟩
      · rintro (⟨m', hm', hterm⟩ | ⟨rfl, hterm⟩)
        · exact ⟨m', getElem?_concat_eq_some.mpr (.inl hm'), hterm⟩
        · exact ⟨m, getElem?_concat_eq_some.mpr (.inr ⟨rfl, rfl⟩), hterm⟩
    rw [hentries]
    show (if q = m.qubit ∧ r = m.round then some l.length else l.index q r) = some i ↔ _
    split
    · rename_i hkey
      obtain ⟨rfl, rfl⟩ := hkey
      rw [hnew, Option.some.injEq]
      constructor
      · exact fun hi => .inr ⟨hi.symm, rfl⟩
      · rintro (hold | ⟨hi, -⟩)
        · cases hold
        · exact hi.symm
    · rename_i hkey
      constructor
      · exact .inl
      · rintro (hold | ⟨-, hterm⟩)
        · exact hold
        · obtain ⟨hq, hr⟩ := Prod.mk.inj hterm
          exact absurd ⟨hq.symm, hr.symm⟩ hkey

namespace Agrees

variable {q : Qubit} {r i j : Nat} {m : Measurement}

theorem number (h : l.Agrees) (hj : l.records[j]? = some (m, i)) : i = j ∧ j < l.length := by
  have hlt : j < l.length := (List.getElem?_eq_some_iff.mp hj).1
  have hnumber : (l.records.map (·.2))[j]? = some i := by
    rw [List.getElem?_map, hj]
    rfl
  rw [h.numbered, List.getElem?_range hlt] at hnumber
  exact ⟨(Option.some.inj hnumber).symm, hlt⟩

theorem lt_length (h : l.Agrees) (hi : l.index q r = some i) : i < l.length := by
  obtain ⟨m, hm, -⟩ := (h.indexed q r i).mp hi
  exact (h.number hm).2

theorem index_of_mem (h : l.Agrees) (hmem : (m, i) ∈ l.records) : l.index m.qubit m.round = some i := by
  obtain ⟨j, hj⟩ := List.getElem?_of_mem hmem
  obtain ⟨rfl, -⟩ := h.number hj
  exact (h.indexed _ _ _).mpr ⟨m, hj, rfl⟩

/-- The index has something for just the terms of the entries. -/
theorem index_isSome (h : l.Agrees) : (l.index q r).isSome = true ↔ (q, r) ∈ l.records.map (·.1.term) := by
  rw [Option.isSome_iff_exists, List.mem_map]
  constructor
  · rintro ⟨i, hi⟩
    obtain ⟨m, hm, hterm⟩ := (h.indexed q r i).mp hi
    exact ⟨(m, i), List.mem_of_getElem? hm, hterm⟩
  · rintro ⟨⟨m, i⟩, hmem, hterm⟩
    obtain ⟨rfl, rfl⟩ := Prod.mk.inj hterm
    exact ⟨i, h.index_of_mem hmem⟩

theorem nodup (h : l.Agrees) : (l.records.map (·.1.term)).Nodup := by
  rw [List.nodup_iff_getElem?_ne_getElem?]
  intro i j hij hj heq
  rw [List.length_map] at hj
  obtain ⟨⟨m, a⟩, hm⟩ : ∃ entry, l.records[i]? = some entry := ⟨_, List.getElem?_eq_getElem (hij.trans hj)⟩
  obtain ⟨⟨m', b⟩, hm'⟩ : ∃ entry, l.records[j]? = some entry := ⟨_, List.getElem?_eq_getElem hj⟩
  rw [List.getElem?_map, List.getElem?_map, hm, hm'] at heq
  have hterm : m.term = m'.term := Option.some.inj heq
  obtain ⟨hqubit, hround⟩ := Prod.mk.inj hterm
  have hindex := h.index_of_mem (List.mem_of_getElem? hm)
  rw [hqubit, hround, h.index_of_mem (List.mem_of_getElem? hm')] at hindex
  obtain rfl : b = a := Option.some.inj hindex
  exact absurd ((h.number hm).1.symm.trans (h.number hm').1) (Nat.ne_of_lt hij)

theorem get?_eq_some (h : l.Agrees) : l.get? q r = some (m, i) ↔ (m, i) ∈ l.records ∧ m.term = (q, r) := by
  rw [get?, Option.bind_eq_some_iff]
  constructor
  · rintro ⟨j, hj, hm⟩
    obtain ⟨m', hm', hterm⟩ := (h.indexed q r j).mp hj
    rw [hm] at hm'
    obtain ⟨rfl, -⟩ := Prod.mk.inj (Option.some.inj hm')
    exact ⟨List.mem_of_getElem? hm, hterm⟩
  · rintro ⟨hmem, hterm⟩
    obtain ⟨rfl, rfl⟩ := Prod.mk.inj hterm
    obtain ⟨j, hj⟩ := List.getElem?_of_mem hmem
    obtain ⟨rfl, -⟩ := h.number hj
    exact ⟨i, h.index_of_mem hmem, hj⟩

theorem get?_isSome (h : l.Agrees) : (l.get? q r).isSome = (l.index q r).isSome := by
  rw [get?]
  cases hi : l.index q r with
  | none => rfl
  | some i =>
    obtain ⟨m, hm, -⟩ := (h.indexed q r i).mp hi
    rw [Option.bind_some, hm]
    rfl

theorem lookup?_eq (h : l.Agrees) (hreach : l.length ≤ RecordOffset.reach) (q : Qubit) (r : Nat) :
    l.lookup? q r = (l.index q r).map fun (i : Nat) => (i : Int) - l.length := by
  rw [lookup?]
  cases hi : l.index q r with
  | none => rfl
  | some i => exact RecordOffset.ofIndex?_eq (h.lt_length hi) hreach

theorem lookup?_isSome (h : l.Agrees) (hreach : l.length ≤ RecordOffset.reach) :
    (l.lookup? q r).isSome = (l.index q r).isSome := by
  rw [h.lookup?_eq hreach, Option.isSome_map]

/-- What a look-up gives is the one reference to the entry that it is for. -/
theorem lookup?_iff_resolve? (h : l.Agrees) (hreach : l.length ≤ RecordOffset.reach)
    (hget : l.get? q r = some (m, i)) (offset : RecordOffset) :
    l.lookup? q r = some offset ↔ offset.resolve? l.length = some i := by
  obtain ⟨hmem, hterm⟩ := h.get?_eq_some.mp hget
  obtain ⟨rfl, rfl⟩ := Prod.mk.inj hterm
  have hi := h.index_of_mem hmem
  rw [h.lookup?_eq hreach, hi, RecordOffset.resolve?_eq_some, Option.map_some, Option.some.injEq]
  constructor
  · intro heq
    exact ⟨h.lt_length hi, heq.symm⟩
  · rintro ⟨-, heq⟩
    exact heq.symm

end Agrees

/-! ## Runs of calls -/

/-- A call enters a measurement or leaves everything as it was. -/
theorem perform_record_cases (l : IndexedLedger) (m : Measurement) :
    (l.index m.qubit m.round = none ∧ perform l (record m.qubit m.round m.kind) = (.ok (-1), l.written m)) ∨
      ((l.index m.qubit m.round).isSome = true ∧
        perform l (record m.qubit m.round m.kind) = (.error (.duplicateMeasurement m.qubit m.round), l)) := by
  cases hi : l.index m.qubit m.round with
  | none => exact .inl ⟨rfl, perform_record_new hi⟩
  | some i => exact .inr ⟨rfl, perform_record_again hi⟩

theorem recorded_cons (l : IndexedLedger) (m : Measurement) (rest : List Measurement) :
    l.recorded (m :: rest) = (perform l (record m.qubit m.round m.kind)).2.recorded rest := rfl

theorem Agrees.call (h : l.Agrees) (m : Measurement) : (perform l (record m.qubit m.round m.kind)).2.Agrees := by
  rcases perform_record_cases l m with ⟨hnew, hdone⟩ | ⟨-, hdone⟩
  · rw [hdone]
    exact h.written hnew
  · rw [hdone]
    exact h

theorem Agrees.recorded (h : l.Agrees) (calls : List Measurement) : (l.recorded calls).Agrees :=
  List.foldlRecOn calls _ h fun _ hl m _ => hl.call m

theorem records_prefix (l : IndexedLedger) (calls : List Measurement) : l.records <+: (l.recorded calls).records := by
  refine List.foldlRecOn (motive := fun k : IndexedLedger => l.records <+: k.records) calls _ (List.prefix_refl _)
    fun k hk m _ => hk.trans ?_
  rcases perform_record_cases k m with ⟨-, hdone⟩ | ⟨-, hdone⟩
  · rw [hdone]
    exact List.prefix_append _ _
  · rw [hdone]

theorem length_recorded (l : IndexedLedger) (calls : List Measurement) :
    (l.recorded calls).length = l.length + l.accepted calls := by
  induction calls generalizing l with
  | nil => rfl
  | cons m rest ih =>
    rw [recorded_cons, ih]
    rcases perform_record_cases l m with ⟨-, hdone⟩ | ⟨-, hdone⟩
    · have hlength : (l.written m).length = l.length + 1 := List.length_append
      rw [accepted, hdone, hlength]
      show l.length + 1 + accepted (l.written m) rest = l.length + (accepted (l.written m) rest + 1)
      omega
    · rw [accepted, hdone]

/-- A pair is recorded if it was, or if one of the calls is for it. -/
theorem mem_recorded (h : l.Agrees) (calls : List Measurement) (t : Term) :
    t ∈ (l.recorded calls).records.map (·.1.term) ↔ t ∈ l.records.map (·.1.term) ∨ t ∈ calls.map (·.term) := by
  induction calls generalizing l with
  | nil => exact ⟨.inl, fun hor => hor.resolve_right List.not_mem_nil⟩
  | cons m rest ih =>
    rw [recorded_cons, List.map_cons, List.mem_cons]
    rcases perform_record_cases l m with ⟨hnew, hdone⟩ | ⟨hsome, hdone⟩
    · rw [hdone, ih (h.written hnew)]
      show t ∈ (l.records ++ [(m, l.length)]).map _ ∨ _ ↔ _
      rw [List.map_append, List.mem_append, List.map_singleton, List.mem_singleton, or_assoc]
    · have hmem : m.term ∈ l.records.map (·.1.term) := h.index_isSome.mp hsome
      rw [hdone, ih h]
      constructor
      · rintro (hold | hrest)
        · exact .inl hold
        · exact .inr (.inr hrest)
      · rintro (hold | rfl | hrest)
        · exact .inl hold
        · exact .inl hmem
        · exact .inr hrest

/-- What holds of a ledger that calls leave: a call for a new pair succeeds and any other changes
    nothing; entries are numbered in order, with no pair twice; the pairs of the calls are the ones
    recorded, every query finds these and no others, and a look-up gives the one reference to
    the entry. References reach so far back only, which is all that limits look-ups. -/
structure Lawful (calls : List Measurement) (l : IndexedLedger) : Prop where
  new : ∀ m : Measurement, m.term ∉ calls.map (·.term) →
    (perform l (record m.qubit m.round m.kind)).1 = .ok (-1) ∧
    (perform l (record m.qubit m.round m.kind)).2.records = l.records ++ [(m, l.length)]
  again : ∀ m : Measurement, m.term ∈ calls.map (·.term) →
    perform l (record m.qubit m.round m.kind) = (.error (.duplicateMeasurement m.qubit m.round), l)
  numbered : l.records.map (·.2) = List.range l.length
  distinct : (l.records.map (·.1.term)).Nodup
  recorded : ∀ t, t ∈ l.records.map (·.1.term) ↔ t ∈ calls.map (·.term)
  found : ∀ q r, (l.has q r = true ↔ (q, r) ∈ l.records.map (·.1.term)) ∧
    ((l.get? q r).isSome = true ↔ (q, r) ∈ l.records.map (·.1.term)) ∧
    (l.length ≤ RecordOffset.reach → ((l.lookup? q r).isSome = true ↔ (q, r) ∈ l.records.map (·.1.term)))
  own : ∀ m i, (m, i) ∈ l.records → l.get? m.qubit m.round = some (m, i) ∧
    (l.length ≤ RecordOffset.reach →
      ∀ offset : RecordOffset, l.lookup? m.qubit m.round = some offset ↔ offset.resolve? l.length = some i)

theorem Agrees.lawful (h : l.Agrees) {calls : List Measurement}
    (hcalls : ∀ t, t ∈ l.records.map (·.1.term) ↔ t ∈ calls.map (·.term)) : Lawful calls l := by
  constructor
  · intro m hm
    rcases perform_record_cases l m with ⟨-, hdone⟩ | ⟨hsome, -⟩
    · rw [hdone]
      exact ⟨rfl, rfl⟩
    · exact absurd ((hcalls _).mp (h.index_isSome.mp hsome)) hm
  · intro m hm
    rcases perform_record_cases l m with ⟨hnew, -⟩ | ⟨-, hdone⟩
    · have hsome := h.index_isSome.mpr ((hcalls _).mpr hm)
      rw [hnew] at hsome
      cases hsome
    · exact hdone
  · exact h.numbered
  · exact h.nodup
  · exact hcalls
  · intro q r
    refine ⟨h.index_isSome, ?_, fun hreach => ?_⟩
    · rw [h.get?_isSome]
      exact h.index_isSome
    · rw [h.lookup?_isSome hreach]
      exact h.index_isSome
  · intro m i hmem
    have hget : l.get? m.qubit m.round = some (m, i) := h.get?_eq_some.mpr ⟨hmem, rfl⟩
    exact ⟨hget, fun hreach => h.lookup?_iff_resolve? hreach hget⟩

/-- Later calls leave an entry its number, so a look-up counts back by one more for each that succeeds. -/
theorem Agrees.lookup?_later (h : l.Agrees) (more : List Measurement)
    (hreach : (l.recorded more).length ≤ RecordOffset.reach) {q : Qubit} {r : Nat} {offset : RecordOffset}
    (hlookup : l.lookup? q r = some offset) :
    (l.recorded more).lookup? q r = some ((offset : Int) - l.accepted more) ∧
      RecordOffset.resolve? ((offset : Int) - l.accepted more) (l.recorded more).length =
        offset.resolve? l.length := by
  have hlength := length_recorded l more
  rw [h.lookup?_eq (by omega)] at hlookup
  obtain ⟨i, hi, hoffset⟩ := Option.map_eq_some_iff.mp hlookup
  obtain ⟨m, hm, hterm⟩ := (h.indexed q r i).mp hi
  have hlater : (l.recorded more).index q r = some i := by
    obtain ⟨rest, hrest⟩ := records_prefix l more
    refine ((h.recorded more).indexed q r i).mpr ⟨m, ?_, hterm⟩
    rw [← hrest, List.getElem?_append_left (h.lt_length hi)]
    exact hm
  have hshift : (i : Int) - (l.recorded more).length = (offset : Int) - l.accepted more := by
    rw [← hoffset, hlength]
    omega
  have hresolve : offset.resolve? l.length = some i := RecordOffset.resolve?_eq_some.mpr ⟨h.lt_length hi, hoffset.symm⟩
  constructor
  · rw [(h.recorded more).lookup?_eq hreach, hlater, Option.map_some, hshift]
  · rw [hresolve, RecordOffset.resolve?_eq_some]
    exact ⟨(h.recorded more).lt_length hlater, hshift.symm⟩

/-- The law of the ledger over every run of calls, and what further calls make of its look-ups: as many
    as succeed are counted back over, to the same entry. -/
theorem recorded_lawful (calls more : List Measurement) :
    Lawful calls (empty.recorded calls) ∧
    (((empty.recorded calls).recorded more).length ≤ RecordOffset.reach →
      ∀ q r offset, (empty.recorded calls).lookup? q r = some offset →
        ((empty.recorded calls).recorded more).lookup? q r =
          some ((offset : Int) - (empty.recorded calls).accepted more) ∧
        RecordOffset.resolve? ((offset : Int) - (empty.recorded calls).accepted more)
          ((empty.recorded calls).recorded more).length = offset.resolve? (empty.recorded calls).length) := by
  have h := agrees_empty.recorded calls
  constructor
  · apply h.lawful
    intro t
    rw [mem_recorded agrees_empty]
    exact ⟨fun hor => hor.resolve_left List.not_mem_nil, .inr⟩
  · intro hreach q r offset hlookup
    exact h.lookup?_later more hreach hlookup

/-! ## Without an index -/

namespace Agrees

variable {q : Qubit} {r : Nat}

theorem ledger_records (h : l.Agrees) : l.ledger.records = l.records := by
  apply List.ext_getElem?
  intro j
  rw [Ledger.records, ledger, List.reverse_reverse, List.getElem?_zipIdx, List.getElem?_map]
  cases hj : l.records[j]? with
  | none => rfl
  | some entry =>
    obtain ⟨m, i⟩ := entry
    obtain ⟨rfl, -⟩ := h.number hj
    rw [Nat.zero_add]
    rfl

theorem ledger_has (h : l.Agrees) (q : Qubit) (r : Nat) : l.ledger.has q r = l.has q r := by
  rw [Bool.eq_iff_iff, has, h.index_isSome, Ledger.has, List.any_eq_true, List.mem_map]
  constructor
  · rintro ⟨m, hmem, hof⟩
    obtain ⟨entry, hentry, rfl⟩ := List.mem_map.mp (List.mem_reverse.mp hmem)
    exact ⟨entry, hentry, Measurement.isOf_iff.mp hof⟩
  · rintro ⟨entry, hentry, hterm⟩
    exact ⟨entry.1, List.mem_reverse.mpr (List.mem_map_of_mem hentry), Measurement.isOf_iff.mpr hterm⟩

theorem ledger_get? (h : l.Agrees) (q : Qubit) (r : Nat) : l.ledger.get? q r = l.get? q r := by
  rw [Ledger.get?, h.ledger_records]
  cases hfind : l.records.find? (·.1.isOf q r) with
  | some entry =>
    have hof := List.find?_some hfind
    exact (h.get?_eq_some.mpr ⟨List.mem_of_find?_eq_some hfind, Measurement.isOf_iff.mp hof⟩).symm
  | none =>
    cases hget : l.get? q r with
    | none => rfl
    | some entry =>
      obtain ⟨hmem, hterm⟩ := h.get?_eq_some.mp hget
      exact absurd (Measurement.isOf_iff.mpr hterm) (List.find?_eq_none.mp hfind entry hmem)

/-- An entry is for the pair if the index gives its number for the pair. -/
theorem isOf_latestFirst (h : l.Agrees) {k : Nat} (hk : k < l.ledger.latestFirst.length) :
    l.ledger.latestFirst[k].isOf q r = true ↔ l.index q r = some (l.length - k - 1) := by
  have hlength : l.ledger.latestFirst.length = l.length := by
    rw [ledger, List.length_reverse, List.length_map, length]
  have hplace : l.length - k - 1 < l.records.length := by
    rw [hlength] at hk
    exact Nat.lt_of_lt_of_le (by omega) (Nat.le_refl l.length)
  obtain ⟨⟨m, i⟩, hm⟩ : ∃ entry, l.records[l.length - k - 1]? = some entry := ⟨_, List.getElem?_eq_getElem hplace⟩
  obtain ⟨rfl, -⟩ := h.number hm
  have hentry : l.ledger.latestFirst[k] = m := by
    apply Option.some.inj
    rw [← List.getElem?_eq_getElem hk, ledger, List.getElem?_reverse (by rwa [List.length_map, ← length, ← hlength]),
      List.length_map, List.getElem?_map, ← length, show l.length - 1 - k = l.length - k - 1 by omega, hm]
    rfl
  rw [hentry, Measurement.isOf_iff, h.indexed]
  constructor
  · intro hterm
    exact ⟨m, hm, hterm⟩
  · rintro ⟨m', hm', hterm⟩
    rw [hm] at hm'
    obtain ⟨rfl, -⟩ := Prod.mk.inj (Option.some.inj hm')
    exact hterm

/-- The search from the latest entry back passes over as many as the index says came later. -/
theorem ledger_later? (h : l.Agrees) (q : Qubit) (r : Nat) :
    l.ledger.later? q r = (l.index q r).map fun i => l.length - i - 1 := by
  cases hi : l.index q r with
  | none =>
    rw [Ledger.later?, Option.map_none, List.findIdx?_eq_none_iff]
    intro m hmem
    obtain ⟨k, hk, rfl⟩ := List.getElem_of_mem hmem
    rw [Bool.eq_false_iff, ne_eq, h.isOf_latestFirst hk, hi]
    intro hsome
    cases hsome
  | some i =>
    have hlt := h.lt_length hi
    have hlength : l.ledger.latestFirst.length = l.length := by
      rw [ledger, List.length_reverse, List.length_map, length]
    rw [Ledger.later?, Option.map_some, List.findIdx?_eq_some_iff_getElem]
    refine ⟨by omega, ?_, ?_⟩
    · rw [h.isOf_latestFirst, hi]
      congr 1
      omega
    · intro j hj hof
      rw [h.isOf_latestFirst, hi, Option.some.injEq] at hof
      omega

theorem ledger_lookup? (h : l.Agrees) (q : Qubit) (r : Nat) : l.ledger.lookup? q r = l.lookup? q r := by
  rw [Ledger.lookup?, h.ledger_later?, lookup?]
  cases hi : l.index q r with
  | none => rfl
  | some i => exact (if_pos (h.lt_length hi)).symm

theorem ledger_record (h : l.Agrees) (m : Measurement) :
    l.ledger.record m.qubit m.round m.kind =
      match perform l (record m.qubit m.round m.kind) with
      | (.ok _, l') => .ok l'.ledger
      | (.error e, _) => .error e := by
  rw [Ledger.record, h.ledger_has, has]
  rcases perform_record_cases l m with ⟨hnew, hdone⟩ | ⟨hsome, hdone⟩
  · have hwritten : (l.written m).ledger = ⟨m :: l.ledger.latestFirst⟩ := by
      simp [IndexedLedger.written, ledger]
    rw [hdone, hnew, Option.isSome_none, if_neg Bool.false_ne_true]
    exact congrArg Except.ok hwritten.symm
  · rw [hdone, if_pos hsome]

end Agrees

/-- The ledger without an index, made by the same calls, has the same entries and answers the same. -/
theorem recorded_ledger (calls : List Measurement) (q : Qubit) (r : Nat) :
    (empty.recorded calls).ledger = calls.foldl Ledger.after Ledger.empty ∧
    (empty.recorded calls).ledger.records = (empty.recorded calls).records ∧
    (empty.recorded calls).ledger.has q r = (empty.recorded calls).has q r ∧
    (empty.recorded calls).ledger.get? q r = (empty.recorded calls).get? q r ∧
    (empty.recorded calls).ledger.lookup? q r = (empty.recorded calls).lookup? q r := by
  have hruns : ∀ l : IndexedLedger, l.Agrees → (l.recorded calls).ledger = calls.foldl Ledger.after l.ledger := by
    induction calls with
    | nil => exact fun _ _ => rfl
    | cons m rest ih =>
      intro l h
      have hafter : l.ledger.after m = (perform l (record m.qubit m.round m.kind)).2.ledger := by
        rw [Ledger.after, h.ledger_record]
        rcases perform_record_cases l m with ⟨-, hdone⟩ | ⟨-, hdone⟩
        · rw [hdone]
        · rw [hdone]
      rw [List.foldl_cons, hafter]
      exact ih _ (h.call m)
  have h := agrees_empty.recorded calls
  exact ⟨hruns empty agrees_empty, h.ledger_records, h.ledger_has q r, h.ledger_get? q r, h.ledger_lookup? q r⟩

end IndexedLedger

end QuantumMemory

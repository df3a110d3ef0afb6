/-
  QuantumMemory.Circuit.Record — how a circuit refers to its measurement outcomes.

  Outcomes are numbered from zero in the order they are measured. A reference counts
  back from the end of what is measured so far: -1 is the latest outcome. Its range is
  that of a 32-bit integer, so an outcome more than 2^31 - 1 back cannot be referred to.
-/

namespace QuantumMemory

abbrev Qubit := Nat

/-- A reference to an outcome; only negative ones refer to one. -/
abbrev RecordOffset := Int

namespace RecordOffset

/-- The largest number of outcomes a reference reaches back. -/
def reach : Nat := 0x7FFFFFFF

/-- The reference to the outcome with `later` others measured after it. -/
def back? (later : Nat) : Option RecordOffset := if later < reach then some (.negSucc later) else none

/-- The reference to outcome `index` when `total` are measured. -/
def ofIndex? (index total : Nat) : Option RecordOffset :=
  if index < total then back? (total - index - 1) else none

/-- The outcome referred to when `total` are measured. -/
def resolve? (offset : RecordOffset) (total : Nat) : Option Nat :=
  match offset with
  | .negSucc later => if later < total then some (total - later - 1) else none
  | .ofNat _ => none

def text (offset : RecordOffset) : String := "rec[" ++ toString (show Int from offset) ++ "]"

theorem resolve?_ofIndex? {index total : Nat} {offset : RecordOffset} (h : ofIndex? index total = some offset) :
    resolve? offset total = some index := by
  simp only [ofIndex?, back?, Option.ite_none_right_eq_some, Option.some.injEq] at h
  obtain ⟨hi, -, rfl⟩ := h
  simp only [resolve?, Option.ite_none_right_eq_some, Option.some.injEq]
  omega

end RecordOffset

end QuantumMemory

/-
  QuantumMemory.Proofs.Circuit.Decoration — where noise stands in a circuit.

  Noise has one of two rates and stands next to what it disturbs: on pairs right after the
  interactions of those pairs and nowhere else, on single qubits at least right after they
  are reset (`Decorated`). That is about neighbours (`FollowedBy`, `PrecededBy`), so it holds
  of a list that is put together from lists of which it holds.
-/

import QuantumMemory.Proofs.Circuit.Growth

namespace QuantumMemory

/-- The instructions that are no noise. -/
def withoutNoise (is : List Instruction) : List Instruction := is.filter fun i => !i.kind.isNoise

/-- Right after each instruction of a kind comes another one on its qubits. -/
def FollowedBy (kind : Instruction.Kind) (next : List Qubit → Instruction) (is : List Instruction) : Prop :=
  ∀ k i, is[k]? = some i → i.kind = kind → is[k + 1]? = some (next i.qubits)

/-- Right before each instruction of a kind comes another one on its qubits. -/
def PrecededBy (kind : Instruction.Kind) (previous : List Qubit → Instruction) (is : List Instruction) : Prop :=
  ∀ k i, is[k]? = some i → i.kind = kind → ∃ j, k = j + 1 ∧ is[j]? = some (previous i.qubits)

/-- Noise has one of two rates, if that is positive. It comes after interactions, on their pairs,
    and nowhere else on pairs, and it comes after resets. -/
structure Decorated (p1 p2 : Binary64) (is : List Instruction) : Prop where
  channel : ∀ i ∈ is, ∀ channel, i.kind = .noise channel →
    (channel = .depolarize1 p1 ∧ p1.isPositive = true) ∨ (channel = .depolarize2 p2 ∧ p2.isPositive = true)
  interaction : p2.isPositive = true → FollowedBy (.gate .cx) (.noise (.depolarize2 p2)) is
  onPairs : PrecededBy (.noise (.depolarize2 p2)) (.gate .cx) is
  reset : p1.isPositive = true → FollowedBy .reset (.noise (.depolarize1 p1)) is

theorem withoutNoise_append (is js : List Instruction) :
    withoutNoise (is ++ js) = withoutNoise is ++ withoutNoise js := List.filter_append ..

theorem withoutNoise_of_plain {is : List Instruction} (h : ∀ i ∈ is, i.kind.isNoise = false) : withoutNoise is = is :=
  List.filter_eq_self.mpr fun i hi => by rw [h i hi]; rfl

theorem withoutNoise_of_noise {is : List Instruction} (h : ∀ i ∈ is, i.kind.isNoise = true) : withoutNoise is = [] :=
  List.filter_eq_nil_iff.mpr fun i hi => by simp [h i hi]

/-- Noise measures nothing. -/
theorem measurementsOf_withoutNoise (is : List Instruction) :
    Circuit.measurementsOf (withoutNoise is) = Circuit.measurementsOf is := by
  induction is with
  | nil => rfl
  | cons i rest ih =>
    rw [withoutNoise, List.filter_cons]
    split
    · rw [Circuit.measurementsOf_cons, Circuit.measurementsOf_cons, ← withoutNoise, ih]
    · rename_i hnoise
      have hzero : i.measurements = 0 := by
        cases hk : i.kind <;> simp_all [Instruction.measurements, Instruction.Kind.isNoise, Instruction.Kind.measures]
      rw [Circuit.measurementsOf_cons, ← withoutNoise, ih, hzero, Nat.zero_add]

section Neighbours

variable {kind : Instruction.Kind} {other : List Qubit → Instruction} {is js : List Instruction}

theorem followedBy_of_none (h : ∀ i ∈ is, i.kind ≠ kind) : FollowedBy kind other is :=
  fun _ i hi hk => absurd hk (h i (List.mem_of_getElem? hi))

theorem precededBy_of_none (h : ∀ i ∈ is, i.kind ≠ kind) : PrecededBy kind other is :=
  fun _ i hi hk => absurd hk (h i (List.mem_of_getElem? hi))

theorem FollowedBy.append (h : FollowedBy kind other is) (h' : FollowedBy kind other js) :
    FollowedBy kind other (is ++ js) := by
  intro k i hi hk
  rcases Nat.lt_or_ge k is.length with hlt | hge
  · rw [List.getElem?_append_left hlt] at hi
    have hnext := h k i hi hk
    rwa [List.getElem?_append_left (List.getElem?_eq_some_iff.mp hnext).1]
  · rw [List.getElem?_append_right hge] at hi
    rw [List.getElem?_append_right (Nat.le_succ_of_le hge), Nat.succ_sub hge]
    exact h' _ i hi hk

theorem PrecededBy.append (h : PrecededBy kind other is) (h' : PrecededBy kind other js) :
    PrecededBy kind other (is ++ js) := by
  intro k i hi hk
  rcases Nat.lt_or_ge k is.length with hlt | hge
  · rw [List.getElem?_append_left hlt] at hi
    obtain ⟨j, rfl, hj⟩ := h k i hi hk
    exact ⟨j, rfl, by rwa [List.getElem?_append_left (Nat.lt_of_succ_lt hlt)]⟩
  · rw [List.getElem?_append_right hge] at hi
    obtain ⟨j, hsub, hj⟩ := h' _ i hi hk
    refine ⟨is.length + j, by omega, ?_⟩
    rwa [List.getElem?_append_right (Nat.le_add_right _ _), Nat.add_sub_cancel_left]

/-- An instruction with another one on its qubits after it, both left out when there are no qubits. -/
theorem followedBy_kept {i next : Instruction} (hq : next.qubits = i.qubits) (hr : i.records = next.records)
    (hother : other i.qubits = next) (hkind : next.kind ≠ kind) : FollowedBy kind other (i.kept ++ next.kept) := by
  unfold Instruction.kept
  rw [hq, hr]
  split
  · exact followedBy_of_none fun _ h => absurd h List.not_mem_nil
  · intro k i' hi hk
    match k with
    | 0 =>
      cases hi
      exact congrArg some hother.symm
    | 1 =>
      cases hi
      exact absurd hk hkind
    | k + 2 => cases hi

theorem precededBy_kept {i next : Instruction} (hq : next.qubits = i.qubits) (hr : i.records = next.records)
    (hother : other next.qubits = i) (hkind : i.kind ≠ kind) : PrecededBy kind other (i.kept ++ next.kept) := by
  unfold Instruction.kept
  rw [hq, hr]
  split
  · exact precededBy_of_none fun _ h => absurd h List.not_mem_nil
  · intro k i' hi hk
    match k with
    | 0 =>
      cases hi
      exact absurd hk hkind
    | 1 =>
      cases hi
      exact ⟨0, rfl, congrArg some hother.symm⟩
    | k + 2 => cases hi

end Neighbours

/-- Neither noise nor what noise is bound to follow. -/
def Instruction.Kind.plain : Instruction.Kind → Bool
  | .noise _ | .gate .cx | .reset => false
  | _ => true

theorem Instruction.Kind.isNoise_of_plain {kind : Instruction.Kind} (h : kind.plain = true) : kind.isNoise = false := by
  cases kind with
  | noise _ => cases h
  | _ => rfl

variable {p1 p2 : Binary64} {is js : List Instruction}

theorem Decorated.append (h : Decorated p1 p2 is) (h' : Decorated p1 p2 js) : Decorated p1 p2 (is ++ js) where
  channel i hi := (List.mem_append.mp hi).elim (h.channel i) (h'.channel i)
  interaction hp := (h.interaction hp).append (h'.interaction hp)
  onPairs := h.onPairs.append h'.onPairs
  reset hp := (h.reset hp).append (h'.reset hp)

theorem decorated_plain (h : ∀ i ∈ is, i.kind.plain = true) : Decorated p1 p2 is where
  channel i hi channel hk := by cases hk ▸ h i hi
  interaction _ := followedBy_of_none fun i hi hk => by cases hk ▸ h i hi
  onPairs := precededBy_of_none fun i hi hk => by cases hk ▸ h i hi
  reset _ := followedBy_of_none fun i hi hk => by cases hk ▸ h i hi

theorem decorated_kept {i : Instruction} (h : i.kind.plain = true) : Decorated p1 p2 i.kept :=
  decorated_plain fun _ hmem => Instruction.eq_of_mem_kept hmem ▸ h

end QuantumMemory

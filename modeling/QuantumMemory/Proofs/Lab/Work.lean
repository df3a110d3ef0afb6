/-
  QuantumMemory.Proofs.Lab.Work — work with services, step by step.

  Work succeeds if its steps do, each begun in the state that the one before it left
  (`from_bind_ok`), and otherwise fails with the first of them that does (`from_bind_error`). What each of
  many steps keeps or gives they all do (`foldlM_keeps`, `mapM_gives`). Work on a
  code is work of the lab with its errors named as the lab's (`from_ofWorkshop_ok`, `from_ofWorkshop_error`).
  A count of logical errors is at most the number of shots (`countLogicalErrors_le`).
-/

import QuantumMemory.Lab.Backend
import QuantumMemory.Proofs.Success

namespace QuantumMemory

namespace Lab

variable {σ α β : Type} {s s' : σ}

@[simp] theorem from_pure (s : σ) (a : α) : Lab.from s (pure a : Lab σ α) = (.ok a, s) := rfl

@[simp] theorem from_ofExcept (s : σ) (r : Except LabError α) : Lab.from s (ofExcept r) = (r, s) := rfl

theorem from_bind (s : σ) (x : Lab σ α) (f : α → Lab σ β) :
    Lab.from s (x >>= f) =
      match Lab.from s x with
      | (.ok a, s₁) => Lab.from s₁ (f a)
      | (.error e, s₁) => (.error e, s₁) := by
  unfold Lab.from
  rw [run_bind_eq x f s]
  rcases (ExceptT.run x).run s with ⟨e | a, s₁⟩ <;> rfl

theorem from_bind_ok {x : Lab σ α} {f : α → Lab σ β} {b : β} :
    Lab.from s (x >>= f) = (.ok b, s') ↔
      ∃ a s₁, Lab.from s x = (.ok a, s₁) ∧ Lab.from s₁ (f a) = (.ok b, s') := by
  rw [from_bind]
  split <;> simp_all

theorem from_bind_error {x : Lab σ α} {f : α → Lab σ β} {e : LabError} :
    Lab.from s (x >>= f) = (.error e, s') ↔
      Lab.from s x = (.error e, s') ∨
        ∃ a s₁, Lab.from s x = (.ok a, s₁) ∧ Lab.from s₁ (f a) = (.error e, s') := by
  rw [from_bind]
  split <;> simp_all

/-- What every step keeps, from whatever state it begins in, all of them keep. -/
theorem foldlM_keeps {step : β → α → Lab σ β} {P : β → Prop} {xs : List α} {b b' : β}
    (hstep : ∀ b a s b' s', P b → Lab.from s (step b a) = (.ok b', s') → P b') (hb : P b)
    (h : Lab.from s (xs.foldlM step b) = (.ok b', s')) : P b' := by
  induction xs generalizing b s with
  | nil =>
    cases h
    exact hb
  | cons a rest ih =>
    rw [List.foldlM_cons] at h
    obtain ⟨b₁, s₁, ha, hrest⟩ := from_bind_ok.mp h
    exact ih (hstep b a s b₁ s₁ hb ha) hrest

/-- What every step gives, from whatever state it begins in, all results are. -/
theorem mapM_gives {f : α → Lab σ β} {P : β → Prop} {xs : List α} {ys : List β}
    (hf : ∀ a s b s', Lab.from s (f a) = (.ok b, s') → P b) (h : Lab.from s (xs.mapM f) = (.ok ys, s')) :
    ∀ y ∈ ys, P y := by
  induction xs generalizing ys s with
  | nil =>
    rw [List.mapM_nil] at h
    cases h
    exact fun y hy => absurd hy List.not_mem_nil
  | cons a rest ih =>
    rw [List.mapM_cons] at h
    obtain ⟨y, s₁, ha, h⟩ := from_bind_ok.mp h
    obtain ⟨others, s₂, hrest, h⟩ := from_bind_ok.mp h
    cases h
    exact List.forall_mem_cons.mpr ⟨hf a s y s₁ ha, ih hrest⟩

theorem from_ofExcept_code_ok {r : Except CodeError α} {a : α} :
    Lab.from s (ofExcept (r.mapError .code)) = (.ok a, s') ↔ r = .ok a ∧ s' = s := by
  rw [from_ofExcept]
  cases r <;> simp [Except.mapError, eq_comm]

theorem from_ofExcept_code_error {r : Except CodeError α} {e : LabError} :
    Lab.from s (ofExcept (r.mapError .code)) = (.error e, s') ↔ ∃ c, r = .error c ∧ e = .code c ∧ s' = s := by
  rw [from_ofExcept]
  cases r <;> simp [Except.mapError, eq_comm]

theorem from_ofWorkshop (s : σ) (work : Workshop σ α) :
    Lab.from s (ofWorkshop work) = ((Workshop.from s work).1.mapError .code, (Workshop.from s work).2) := by
  unfold Lab.from Workshop.from ofWorkshop ExceptT.adapt
  rcases h : (ExceptT.run work).run s with ⟨r, s₁⟩
  cases r <;> simp_all [ExceptT.run, ExceptT.mk, StateT.run, Except.mapError, Functor.map, StateT.map]

theorem from_ofWorkshop_ok {work : Workshop σ α} {a : α} :
    Lab.from s (ofWorkshop work) = (.ok a, s') ↔ Workshop.from s work = (.ok a, s') := by
  rw [from_ofWorkshop]
  rcases Workshop.from s work with ⟨r, s₁⟩
  cases r <;> simp [Except.mapError]

theorem from_ofWorkshop_error {work : Workshop σ α} {e : LabError} :
    Lab.from s (ofWorkshop work) = (.error e, s') ↔ ∃ c, Workshop.from s work = (.error c, s') ∧ e = .code c := by
  rw [from_ofWorkshop]
  rcases Workshop.from s work with ⟨r, s₁⟩
  cases r <;> simp [Except.mapError, eq_comm, and_comm]

end Lab

variable {σ : Type} {s s' : σ}

/-- No more shots are mispredicted than there are. -/
theorem countLogicalErrors_le {backend : Backend σ} {c : Circuit} {shots errors : Nat}
    (h : Lab.from s (countLogicalErrors backend c shots) = (.ok errors, s')) : errors ≤ shots := by
  unfold countLogicalErrors at h
  by_cases hnone : shots = 0
  · rw [if_pos hnone] at h
    cases h
    exact Nat.zero_le _
  · rw [if_neg hnone] at h
    obtain ⟨batch, s₁, -, h⟩ := Lab.from_bind_ok.mp h
    obtain ⟨-, s₂, -, h⟩ := Lab.from_bind_ok.mp h
    obtain ⟨model, s₃, -, h⟩ := Lab.from_bind_ok.mp h
    obtain ⟨decode, s₄, -, h⟩ := Lab.from_bind_ok.mp h
    obtain ⟨predictions, s₅, -, h⟩ := Lab.from_bind_ok.mp h
    obtain ⟨_, s₆, hlength, h⟩ := Lab.from_bind_ok.mp h
    rw [Lab.from_ofExcept, ShotBatch.expect] at hlength
    rw [Lab.from_pure] at h
    have hshots : shots = predictions.length := by
      by_contra hne
      rw [if_neg hne] at hlength
      cases hlength
    cases h
    rw [hshots]
    refine Nat.le_trans (List.length_filter_le _ _) ?_
    rw [List.length_zip]
    exact Nat.min_le_left _ _

end QuantumMemory

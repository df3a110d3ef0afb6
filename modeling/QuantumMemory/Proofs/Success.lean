/-
  QuantumMemory.Proofs.Success — what the success of a run of steps says of the steps.

  Steps that may fail succeed together only if each of them does (`exists_of_bind`,
  `mapM_each`). What every step keeps holds after all of them (`foldlM_keeps`), and what one
  of them brings about and the others keep holds after all as well (`foldlM_reaches`).
-/

import Mathlib.Tactic.Common

namespace QuantumMemory

variable {ε α β : Type}

theorem exists_of_bind {x : Except ε α} {f : α → Except ε β} {b : β} (h : (x >>= f) = .ok b) :
    ∃ a, x = .ok a ∧ f a = .ok b := by
  cases x with
  | error e => cases h
  | ok a => exact ⟨a, rfl, h⟩

theorem map_ok {x : Except ε α} {f : α → β} {b : β} (h : x.map f = .ok b) : ∃ a, x = .ok a ∧ f a = b := by
  cases x with
  | error e => cases h
  | ok a =>
    cases h
    exact ⟨a, rfl, rfl⟩

theorem mapError_bind {ε' : Type} (g : ε → ε') (x : Except ε α) (f : α → Except ε β) :
    (x >>= f).mapError g = x.mapError g >>= fun a => (f a).mapError g := by
  cases x <;> rfl

theorem mapError_ok {ε' : Type} {g : ε → ε'} {x : Except ε α} {a : α} : x.mapError g = .ok a ↔ x = .ok a := by
  cases x <;> simp [Except.mapError]

/-- What comes after a failure is not run; what was written before it stays. -/
theorem run_bind_eq {σ : Type} (x : ExceptT ε (StateM σ) α) (f : α → ExceptT ε (StateM σ) β) (s : σ) :
    (ExceptT.run (x >>= f)).run s =
      match (ExceptT.run x).run s with
      | (.ok a, s') => (ExceptT.run (f a)).run s'
      | (.error e, s') => (.error e, s') := by
  cases hr : (ExceptT.run x).run s with
  | mk r s' =>
    rw [ExceptT.run_bind, StateT.run_bind, hr]
    cases r <;> rfl

theorem discard_eq {m : Type → Type} [Monad m] [LawfulMonad m] (x : m α) :
    (discard x : m PUnit) = x >>= fun _ => pure () := by
  rw [discard, LawfulFunctor.map_const, Function.comp_apply, map_eq_pure_bind]

section Steps

variable {step : β → α → Except ε β} {P : β → Prop} {xs : List α} {b b' : β}

theorem foldlM_keeps (hstep : ∀ b a b', P b → step b a = .ok b' → P b') (hb : P b) (h : xs.foldlM step b = .ok b') :
    P b' := by
  induction xs generalizing b with
  | nil =>
    cases h
    exact hb
  | cons a rest ih =>
    obtain ⟨b₁, ha, hrest⟩ := exists_of_bind h
    exact ih (hstep b a b₁ hb ha) hrest

theorem foldlM_reaches {a : α} (ha : a ∈ xs) (hmade : ∀ b b', step b a = .ok b' → P b')
    (hkept : ∀ b a b', P b → step b a = .ok b' → P b') (h : xs.foldlM step b = .ok b') : P b' := by
  induction xs generalizing b with
  | nil => cases ha
  | cons a' rest ih =>
    obtain ⟨b₁, hfirst, hrest⟩ := exists_of_bind h
    rcases List.mem_cons.mp ha with rfl | ha
    · exact foldlM_keeps hkept (hmade b b₁ hfirst) hrest
    · exact ih ha hrest

/-- Where every step adds one, the run adds as many as there are steps. -/
theorem foldlM_counts {f : β → Nat} (hstep : ∀ b a b', step b a = .ok b' → f b' = f b + 1)
    (h : xs.foldlM step b = .ok b') : f b' = f b + xs.length := by
  induction xs generalizing b with
  | nil =>
    cases h
    rfl
  | cons a rest ih =>
    obtain ⟨b₁, ha, hrest⟩ := exists_of_bind h
    rw [ih hrest, hstep b a b₁ ha, List.length_cons]
    omega

end Steps

/-- The results are those of the items one by one. -/
theorem mapM_each {f : α → Except ε β} {xs : List α} {ys : List β} (h : xs.mapM f = .ok ys) :
    List.Forall₂ (fun x y => f x = .ok y) xs ys := by
  induction xs generalizing ys with
  | nil =>
    cases h
    exact .nil
  | cons x rest ih =>
    rw [List.mapM_cons] at h
    obtain ⟨y, hy, hmore⟩ := exists_of_bind h
    obtain ⟨others, hothers, hys⟩ := exists_of_bind hmore
    cases hys
    exact .cons hy (ih hothers)

theorem mapM_ok {f : α → Except ε β} {xs : List α} {ys : List β} (h : xs.mapM f = .ok ys) :
    ∀ y ∈ ys, ∃ x ∈ xs, f x = .ok y := by
  have heach := mapM_each h
  clear h
  induction heach with
  | nil => exact fun y hy => absurd hy List.not_mem_nil
  | @cons x y rest others hy _ ih =>
    refine List.forall_mem_cons.mpr ⟨⟨x, List.mem_cons_self, hy⟩, fun z hz => ?_⟩
    obtain ⟨x', hx', he⟩ := ih z hz
    exact ⟨x', List.mem_cons_of_mem _ hx', he⟩

theorem mapM_some {f : α → Option β} {g : α → β} {xs : List α} (h : ∀ x ∈ xs, f x = some (g x)) :
    xs.mapM f = some (xs.map g) := by
  induction xs with
  | nil => rfl
  | cons x rest ih =>
    obtain ⟨hx, hrest⟩ := List.forall_mem_cons.mp h
    rw [List.mapM_cons, hx, ih hrest]
    rfl

theorem mapM_all_ok {f : α → Except ε β} {g : α → β} {xs : List α} (h : ∀ x ∈ xs, f x = .ok (g x)) :
    xs.mapM f = .ok (xs.map g) := by
  induction xs with
  | nil => rfl
  | cons x rest ih =>
    obtain ⟨hx, hrest⟩ := List.forall_mem_cons.mp h
    rw [List.mapM_cons, hx, ih hrest]
    rfl

/-- What reads back each item reads back the items. -/
theorem mapM_map {f : β → Option α} {g : α → β} {xs : List α} (h : ∀ x ∈ xs, f (g x) = some x) :
    (xs.map g).mapM f = some xs := by
  have hread : xs.mapM (f ∘ g) = some (xs.map id) := mapM_some h
  rw [List.mapM_map, hread, List.map_id]

theorem mapM_option_map {γ : Type} (f : α → Option β) (g : β → γ) (xs : List α) :
    (xs.mapM f).map (List.map g) = xs.mapM fun x => (f x).map g := by
  induction xs with
  | nil => rfl
  | cons x rest ih =>
    rw [List.mapM_cons, List.mapM_cons, ← ih]
    cases f x with
    | none => rfl
    | some y => cases rest.mapM f <;> rfl

theorem mapM_eq_some {f : α → Option β} {xs : List α} {ys : List β} (h : xs.mapM f = some ys) :
    ∀ y ∈ ys, ∃ x ∈ xs, f x = some y := by
  induction xs generalizing ys with
  | nil =>
    cases h
    exact fun y hy => absurd hy List.not_mem_nil
  | cons x rest ih =>
    rw [List.mapM_cons] at h
    obtain ⟨y, hy, hmore⟩ := Option.bind_eq_some_iff.mp h
    obtain ⟨others, hothers, hys⟩ := Option.bind_eq_some_iff.mp hmore
    cases hys
    refine List.forall_mem_cons.mpr ⟨⟨x, List.mem_cons_self, hy⟩, fun z hz => ?_⟩
    obtain ⟨x', hx', he⟩ := ih hothers z hz
    exact ⟨x', List.mem_cons_of_mem _ hx', he⟩

end QuantumMemory

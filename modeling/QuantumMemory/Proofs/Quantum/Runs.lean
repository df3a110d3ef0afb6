/-
  QuantumMemory.Proofs.Quantum.Runs — the runs of a circuit, and sums of outcomes that are
  the same in all of them.

  A run takes a state through the instructions one after the other; a measurement finds any
  value that the state gives an amplitude to. As long as an operator has no X where a qubit
  is reset or measured (`Instruction.Clean`), it fixes the state before an instruction just
  when the one after fixes the state after, up to the signs of outcomes (`Step.fixes`). So
  outcomes whose product pulls back to nothing add up to zero in every run (`Runs.weigh_eq`).
-/

import QuantumMemory.Proofs.Quantum.Ket

namespace QuantumMemory

/-- Qubits measured in turn, each found with a value that has an amplitude. -/
inductive Measures (after : Ket → Qubit → ZMod 2 → Ket) : List Qubit → Ket → List (ZMod 2) → Ket → Prop
  | nil {ψ : Ket} : Measures after [] ψ [] ψ
  | cons {q : Qubit} {rest : List Qubit} {ψ φ : Ket} {m : ZMod 2} {ms : List (ZMod 2)} :
    ψ.project q m ≠ 0 → Measures after rest (after ψ q m) ms φ → Measures after (q :: rest) ψ (m :: ms) φ

/-- One instruction without noise: a state, the outcomes and the state after. -/
inductive Step : Instruction → Ket → List (ZMod 2) → Ket → Prop
  | gate {g : Gate} {qubits : List Qubit} {records : List RecordOffset} {ψ : Ket} :
    Step ⟨.gate g, qubits, records⟩ ψ [] (ψ.gate g qubits)
  | reset {qubits : List Qubit} {records : List RecordOffset} {ψ φ : Ket} {ms : List (ZMod 2)} :
    Measures Ket.restored qubits ψ ms φ → Step ⟨.reset, qubits, records⟩ ψ [] φ
  | measure {qubits : List Qubit} {records : List RecordOffset} {ψ φ : Ket} {ms : List (ZMod 2)} :
    Measures Ket.project qubits ψ ms φ → Step ⟨.measure, qubits, records⟩ ψ ms φ
  | measureReset {qubits : List Qubit} {records : List RecordOffset} {ψ φ : Ket} {ms : List (ZMod 2)} :
    Measures Ket.restored qubits ψ ms φ → Step ⟨.measureReset, qubits, records⟩ ψ ms φ
  | detector {qubits : List Qubit} {records : List RecordOffset} {ψ : Ket} : Step ⟨.detector, qubits, records⟩ ψ [] ψ
  | observable {k : Nat} {qubits : List Qubit} {records : List RecordOffset} {ψ : Ket} :
    Step ⟨.observable k, qubits, records⟩ ψ [] ψ
  | tick {qubits : List Qubit} {records : List RecordOffset} {ψ : Ket} : Step ⟨.tick, qubits, records⟩ ψ [] ψ

/-- The outcomes of all instructions, from a state to a state. -/
inductive Runs : List Instruction → Ket → List (ZMod 2) → Ket → Prop
  | nil {ψ : Ket} : Runs [] ψ [] ψ
  | cons {i : Instruction} {rest : List Instruction} {ψ χ φ : Ket} {ms outcomes : List (ZMod 2)} :
    Step i ψ ms χ → Runs rest χ outcomes φ → Runs (i :: rest) ψ (ms ++ outcomes) φ

/-- Where the operator after an instruction is the one before, up to the outcomes' signs: no X
    where a qubit is reset or measured, no Y at a Hadamard gate. -/
def Instruction.Clean (i : Instruction) (p : Pauli) : Prop :=
  i.qubits.Nodup ∧ match i.kind with
  | .gate .x => ∀ q ∈ i.qubits, p.z q = 0
  | .gate .z => ∀ q ∈ i.qubits, p.x q = 0
  | .gate .h => ∀ q ∈ i.qubits, p.x q * p.z q = 0
  | .gate .cz => ∀ pair ∈ i.pairs, p.x pair.1 * p.x pair.2 = 0
  | .reset | .measure | .measureReset => ∀ q ∈ i.qubits, p.x q = 0
  | _ => True

namespace Pauli

variable {n : Nat}

/-- The operator multiplies the state by a sign. -/
def Fixes (n : Nat) (p : Pauli) (a : ZMod 2) (ψ : Ket) : Prop := p.act n ψ = sign a • ψ

/-- Z on one qubit if the bit is one. -/
def zOf (q : Qubit) (a : ZMod 2) : Pauli where
  x := 0
  z q' := if q' = q then a else 0

theorem act_add_zOf {q : Qubit} (hq : q < n) (p : Pauli) (a : ZMod 2) (ψ : Ket) (b : Qubit → ZMod 2) :
    (p + zOf q a).act n ψ b = sign (a * b q) * p.act n ψ b := by
  have hz : (p + zOf q a).z = p.z + fun q' => if q' = q then a else 0 := rfl
  have hx : (p + zOf q a).x = p.x := by
    funext q'
    exact add_zero _
  rw [act, hz, hx, overlap_add, overlap_at hq, sign_add, act]
  ring

theorem weighted_cons (q : Qubit) (rest : List Qubit) (w : List (ZMod 2)) :
    weighted (q :: rest) w = weighted rest w.tail + zOf q (w.headD 0) := by
  ext q'
  · simp [weighted, zOf]
  · cases w with
    | nil => simp [weighted, zOf]
    | cons a w => simp [weighted, zOf, add_comm, eq_comm]

theorem Fixes.project {q : Qubit} (hq : q < n) {p : Pauli} (hx : p.x q = 0) {w a : ZMod 2} {ψ : Ket}
    (h : (p + zOf q w).Fixes n a ψ) (m : ZMod 2) : p.Fixes n (a + w * m) (ψ.project q m) := by
  unfold Fixes
  rw [act_project hq hx]
  funext b
  have hb := congrFun h b
  have hsign := sign_mul_self (w * m)
  rw [act_add_zOf hq] at hb
  simp only [Ket.project, Pi.smul_apply, smul_eq_mul, sign_add]
  split
  · rename_i hm
    rw [hm] at hb
    simp only [Pi.smul_apply, smul_eq_mul] at hb
    linear_combination sign (w * m) * hb - p.act n ψ b * hsign
  · simp

theorem Fixes.restored {q : Qubit} (hq : q < n) {p : Pauli} (hx : p.x q = 0) {a m : ZMod 2} {ψ : Ket}
    (h : (p.clear [q]).Fixes n a (ψ.project q m)) : p.Fixes n a (ψ.restored q m) := by
  have hp : p = p.clear [q] + zOf q (p.z q) := by
    ext q'
    · by_cases he : q' = q
      · subst he
        simp [clear, zOf, hx]
      · simp [clear, zOf, he]
    · by_cases he : q' = q
      · subst he
        simp [clear, zOf]
      · simp [clear, zOf, he]
  have hact : ∀ b, p.act n (ψ.project q m) b = sign (p.z q * b q) * (sign a * ψ.project q m b) := by
    intro b
    have hb := congrFun h b
    rw [Pi.smul_apply, smul_eq_mul] at hb
    rw [← hb, ← act_add_zOf hq, ← hp]
  unfold Fixes
  rw [Ket.restored, act_flip hq]
  funext b
  have hsign := sign_mul_self (p.z q * m)
  simp only [Ket.flip, Pi.smul_apply, smul_eq_mul, hact, Function.update_self]
  by_cases hb : b q = 0
  · rw [hb, zero_add]
    linear_combination (sign a * ψ.project q m (Function.update b q m)) * hsign
  · have hnone : ψ.project q m (Function.update b q (b q + m)) = 0 := by
      refine if_neg fun he => hb ?_
      rw [Function.update_self] at he
      linear_combination he
    rw [hnone]
    ring

/-! ## Gates on several qubits -/

/-- Gates in turn, each of which takes what the operator before it fixes to what the one after fixes. -/
theorem Fixes.foldl {α : Type} {step : Pauli → α → Pauli} {run : Ket → α → Ket} {p : Pauli} {xs : List α}
    (h : ∀ a ys, (a :: ys) <:+ xs → ∀ ψ s, (step (ys.foldr (fun b p => step p b) p) a).Fixes n s ψ →
      (ys.foldr (fun b p => step p b) p).Fixes n s (run ψ a))
    {ψ : Ket} {s : ZMod 2} (hfix : (xs.foldr (fun b p => step p b) p).Fixes n s ψ) : p.Fixes n s (xs.foldl run ψ) := by
  induction xs generalizing ψ with
  | nil => exact hfix
  | cons a rest ih =>
    refine ih (fun a' ys hs => h a' ys (hs.trans (List.suffix_cons a rest))) ?_
    exact h a rest (List.suffix_refl _) ψ s hfix

/-- Gates that the operator commutes with, one by one. -/
theorem Fixes.foldl_same {α : Type} {run : Ket → α → Ket} {p : Pauli} {xs : List α} {s : ZMod 2}
    (h : ∀ a ∈ xs, ∀ ψ, p.Fixes n s ψ → p.Fixes n s (run ψ a)) {ψ : Ket} (hfix : p.Fixes n s ψ) :
    p.Fixes n s (xs.foldl run ψ) := by
  induction xs generalizing ψ with
  | nil => exact hfix
  | cons a rest ih => exact ih (fun a' ha' => h a' (List.mem_cons_of_mem _ ha')) (h a List.mem_cons_self ψ hfix)

theorem x_foldr_cz (pairs : List (Qubit × Qubit)) (p : Pauli) : (pairs.foldr (fun pair p => p.cz pair) p).x = p.x := by
  induction pairs with
  | nil => rfl
  | cons pair rest ih => rw [List.foldr_cons, cz, ih]

theorem hadamards_apart {q : Qubit} {qubits : List Qubit} (h : q ∉ qubits) (p : Pauli) :
    (qubits.foldr (fun q p => p.hadamard q) p).x q = p.x q ∧ (qubits.foldr (fun q p => p.hadamard q) p).z q = p.z q := by
  induction qubits with
  | nil => exact ⟨rfl, rfl⟩
  | cons q' rest ih =>
    obtain ⟨hne, hrest⟩ := not_or.mp (List.mem_cons.not.mp h)
    obtain ⟨hx, hz⟩ := ih hrest
    simp only [List.foldr_cons, hadamard, Function.update_of_ne hne]
    exact ⟨hx, hz⟩

theorem pairUp_apart {qubits : List Qubit} (h : qubits.Nodup) : ∀ pair ∈ pairUp qubits, pair.1 ≠ pair.2 := by
  induction qubits using pairUp.induct with
  | case1 a b rest ih =>
    rw [pairUp]
    obtain ⟨ha, hrest⟩ := List.nodup_cons.mp h
    refine List.forall_mem_cons.mpr ⟨fun he => ha (List.mem_cons.mpr (.inl he)), ih (List.nodup_cons.mp hrest).2⟩
  | case2 qubits hne =>
    intro pair hp
    rw [pairUp] at hp
    · cases hp
    · exact hne

theorem Fixes.gate {g : Gate} {qubits : List Qubit} {records : List RecordOffset} {p : Pauli}
    (hclean : Instruction.Clean ⟨.gate g, qubits, records⟩ p) (hq : ∀ q ∈ qubits, q < n) {ψ : Ket} {s : ZMod 2}
    (hfix : (p.ungate g qubits).Fixes n s ψ) : p.Fixes n s (ψ.gate g qubits) := by
  obtain ⟨hn, hop⟩ := hclean
  cases g with
  | x =>
    refine Fixes.foldl_same (fun q hmem ψ h => ?_) hfix
    rw [Fixes, act_flip (hq q hmem), hop q hmem, h]
    simp only [zero_mul, sign_zero, one_smul]
    rfl
  | z =>
    refine Fixes.foldl_same (fun q hmem ψ h => ?_) hfix
    rw [Fixes, act_phase (hq q hmem), hop q hmem, h, sign_zero, one_smul]
    funext b
    simp only [Ket.phase, Pi.smul_apply, smul_eq_mul]
    ring
  | h =>
    refine Fixes.foldl (fun q ys hs ψ s h => ?_) hfix
    have hmem := hs.subset List.mem_cons_self
    obtain ⟨hx, hz⟩ := hadamards_apart (List.nodup_cons.mp (hs.sublist.nodup hn)).1 p
    rw [Fixes, act_hadamard (hq q hmem) (by rw [hx, hz]; exact hop q hmem), h]
    funext b
    simp only [Ket.hadamard, Pi.smul_apply, smul_eq_mul]
    ring
  | cx =>
    refine Fixes.foldl (fun pair ys hs ψ s h => ?_) hfix
    have hmem := hs.subset List.mem_cons_self
    rw [Fixes, act_cx (hq _ (mem_of_mem_pairUp hmem).1) (hq _ (mem_of_mem_pairUp hmem).2) (pairUp_apart hn pair hmem), h]
    rfl
  | cz =>
    refine Fixes.foldl (fun pair ys hs ψ s h => ?_) hfix
    have hmem := hs.subset List.mem_cons_self
    rw [Fixes, act_cz (hq _ (mem_of_mem_pairUp hmem).1) (hq _ (mem_of_mem_pairUp hmem).2), x_foldr_cz, hop pair hmem, h,
      sign_zero, one_smul]
    funext b
    simp only [Ket.cz, Pi.smul_apply, smul_eq_mul]
    ring

/-! ## Measurements of several qubits -/

theorem weigh_cons (w : List (ZMod 2)) (m : ZMod 2) (ms : List (ZMod 2)) :
    weigh w (m :: ms) = w.headD 0 * m + weigh w.tail ms := by
  cases w <;> simp [weigh]

theorem Fixes.measured {p : Pauli} {qubits : List Qubit} {ψ φ : Ket} {ms : List (ZMod 2)}
    (h : Measures Ket.project qubits ψ ms φ) (hq : ∀ q ∈ qubits, q < n) (hx : ∀ q ∈ qubits, p.x q = 0)
    {w : List (ZMod 2)} {a : ZMod 2} (hfix : (p + weighted qubits w).Fixes n a ψ) : p.Fixes n (a + weigh w ms) φ := by
  induction h generalizing w a with
  | nil => simpa using hfix
  | @cons q rest ψ φ m ms hne hrest ih =>
    obtain ⟨hlt, hq'⟩ := List.forall_mem_cons.mp hq
    obtain ⟨hxq, hx'⟩ := List.forall_mem_cons.mp hx
    have hsplit : p + weighted (q :: rest) w = (p + weighted rest w.tail) + zOf q (w.headD 0) := by
      rw [weighted_cons]
      ext q' <;> simp [add_assoc]
    rw [hsplit] at hfix
    have hx0 : (p + weighted rest w.tail).x q = 0 := by simp [weighted, hxq]
    rw [weigh_cons, ← add_assoc]
    exact ih hq' hx' (hfix.project hlt hx0 m)

theorem Fixes.reset {p : Pauli} {qubits : List Qubit} {ψ φ : Ket} {ms : List (ZMod 2)}
    (h : Measures Ket.restored qubits ψ ms φ) (hn : qubits.Nodup) (hq : ∀ q ∈ qubits, q < n)
    (hx : ∀ q ∈ qubits, p.x q = 0) {w : List (ZMod 2)} {a : ZMod 2}
    (hfix : (p.clear qubits + weighted qubits w).Fixes n a ψ) : p.Fixes n (a + weigh w ms) φ := by
  induction h generalizing w a with
  | nil => simpa using hfix
  | @cons q rest ψ φ m ms hne hrest ih =>
    obtain ⟨hlt, hq'⟩ := List.forall_mem_cons.mp hq
    obtain ⟨hxq, hx'⟩ := List.forall_mem_cons.mp hx
    obtain ⟨hnot, hn'⟩ := List.nodup_cons.mp hn
    set p' := p.clear rest + weighted rest w.tail with hp'
    have hsplit : p.clear (q :: rest) + weighted (q :: rest) w = p'.clear [q] + zOf q (w.headD 0) := by
      rw [weighted_cons]
      ext q'
      · by_cases he : q' = q <;> by_cases hr : q' ∈ rest <;> simp [hp', clear, weighted, zOf, he, hr]
      · by_cases he : q' = q
        · subst he
          simp [hp', clear, zOf, weighted_apart hnot]
        · by_cases hr : q' ∈ rest <;> simp [hp', clear, zOf, he, hr]
    have hx0 : p'.x q = 0 := by simp [hp', clear, weighted, hxq]
    have hx1 : (p'.clear [q]).x q = 0 := by simp [clear]
    rw [hsplit] at hfix
    rw [weigh_cons, ← add_assoc]
    exact ih hn' hq' hx' ((hfix.project hlt hx1 m).restored hlt hx0)

end Pauli

/-! ## States do not vanish -/

namespace Ket

/-- A gate that undoes itself leaves something. -/
theorem ne_zero_of_involutive (f : Ket → Ket) (hinv : ∀ ψ, f (f ψ) = ψ) (h0 : f 0 = 0) {ψ : Ket} (hψ : ψ ≠ 0) :
    f ψ ≠ 0 := by
  intro he
  have hback := hinv ψ
  rw [he, h0] at hback
  exact hψ hback.symm

theorem flip_flip (ψ : Ket) (q : Qubit) (a : ZMod 2) : (ψ.flip q a).flip q a = ψ := by
  funext b
  have htwice : b q + a + a = b q := by rw [add_assoc, CharTwo.add_self_eq_zero, add_zero]
  simp [flip, htwice]

theorem flip_ne_zero {ψ : Ket} (q : Qubit) (a : ZMod 2) (h : ψ ≠ 0) : ψ.flip q a ≠ 0 :=
  ne_zero_of_involutive (flip · q a) (flip_flip · q a) rfl h

theorem phase_phase (ψ : Ket) (q : Qubit) : (ψ.phase q).phase q = ψ := by
  funext b
  have hsign := sign_mul_self (b q)
  simp only [phase]
  linear_combination ψ b * hsign

theorem cx_cx (ψ : Ket) {pair : Qubit × Qubit} (hne : pair.1 ≠ pair.2) : (ψ.cx pair).cx pair = ψ := by
  funext b
  have htwice : b pair.2 + b pair.1 + b pair.1 = b pair.2 := by rw [add_assoc, CharTwo.add_self_eq_zero, add_zero]
  simp [cx, Function.update_of_ne hne, htwice]

theorem cz_cz (ψ : Ket) (pair : Qubit × Qubit) : (ψ.cz pair).cz pair = ψ := by
  funext b
  have hsign := sign_mul_self (b pair.1 * b pair.2)
  simp only [cz]
  linear_combination ψ b * hsign

theorem hadamard_hadamard (ψ : Ket) (q : Qubit) : (ψ.hadamard q).hadamard q = ψ := by
  funext b
  have hroot : ((√2 : ℝ) : ℂ) * (√2 : ℝ) = 2 := by
    rw [← Complex.ofReal_mul, Real.mul_self_sqrt (by norm_num)]
    norm_num
  have hne : ((√2 : ℝ) : ℂ) ≠ 0 := by
    intro h
    rw [h, zero_mul] at hroot
    norm_num at hroot
  have hsum : ∀ u v : ℂ, ((u + 1 * v) / (√2 : ℝ) + sign (b q) * ((u + -1 * v) / (√2 : ℝ))) / (√2 : ℝ) =
      (u + v + sign (b q) * (u - v)) / 2 := by
    intro u v
    rw [← hroot]
    field_simp
    ring
  simp only [hadamard, Function.update_self, Function.update_idem, sign_zero, sign_one, hsum]
  rcases bit_cases (b q) with hb | hb
  · have hself : Function.update b q 0 = b := by rw [← hb, Function.update_eq_self]
    rw [hb, hself, sign_zero]
    ring
  · have hself : Function.update b q 1 = b := by rw [← hb, Function.update_eq_self]
    rw [hb, hself, sign_one]
    ring

theorem foldl_ne_zero {α : Type} {run : Ket → α → Ket} {xs : List α} (h : ∀ a ∈ xs, ∀ ψ, ψ ≠ 0 → run ψ a ≠ 0)
    {ψ : Ket} (hψ : ψ ≠ 0) : xs.foldl run ψ ≠ 0 := by
  induction xs generalizing ψ with
  | nil => exact hψ
  | cons a rest ih => exact ih (fun a' ha' => h a' (List.mem_cons_of_mem _ ha')) (h a List.mem_cons_self ψ hψ)

theorem gate_ne_zero (g : Gate) {qubits : List Qubit} (hn : qubits.Nodup) {ψ : Ket} (hψ : ψ ≠ 0) :
    ψ.gate g qubits ≠ 0 := by
  cases g with
  | x => exact foldl_ne_zero (fun q _ ψ h => flip_ne_zero q 1 h) hψ
  | z =>
    refine foldl_ne_zero (fun q _ ψ h => ?_) hψ
    exact ne_zero_of_involutive (phase · q) (phase_phase · q) (by funext b; simp [phase]) h
  | h =>
    refine foldl_ne_zero (fun q _ ψ h => ?_) hψ
    exact ne_zero_of_involutive (hadamard · q) (hadamard_hadamard · q) (by funext b; simp [hadamard]) h
  | cx =>
    refine foldl_ne_zero (fun pair hp ψ h => ?_) hψ
    exact ne_zero_of_involutive (cx · pair) (fun ψ => cx_cx ψ (Pauli.pairUp_apart hn pair hp)) rfl h
  | cz =>
    refine foldl_ne_zero (fun pair _ ψ h => ?_) hψ
    exact ne_zero_of_involutive (cz · pair) (cz_cz · pair) (by funext b; simp [cz]) h

theorem restored_ne_zero {ψ : Ket} {q : Qubit} {m : ZMod 2} (h : ψ.project q m ≠ 0) : ψ.restored q m ≠ 0 :=
  flip_ne_zero q m h

/-- A state that does not vanish gives some value of each qubit an amplitude. -/
theorem project_ne_zero {ψ : Ket} (h : ψ ≠ 0) (q : Qubit) : ∃ m, ψ.project q m ≠ 0 := by
  obtain ⟨b, hb⟩ := Function.ne_iff.mp h
  refine ⟨b q, fun he => hb ?_⟩
  have hbq := congrFun he b
  rwa [project, if_pos rfl] at hbq

end Ket

section Measuring

variable {after : Ket → Qubit → ZMod 2 → Ket} (hafter : ∀ {ψ : Ket} {q m}, ψ.project q m ≠ 0 → after ψ q m ≠ 0)

include hafter

theorem Measures.ne_zero {qubits : List Qubit} {ψ φ : Ket} {ms : List (ZMod 2)} (h : Measures after qubits ψ ms φ)
    (hψ : ψ ≠ 0) : φ ≠ 0 := by
  induction h with
  | nil => exact hψ
  | cons hne _ ih => exact ih (hafter hne)

theorem Measures.exists (qubits : List Qubit) {ψ : Ket} (hψ : ψ ≠ 0) : ∃ ms φ, Measures after qubits ψ ms φ := by
  induction qubits generalizing ψ with
  | nil => exact ⟨[], ψ, .nil⟩
  | cons q rest ih =>
    obtain ⟨m, hm⟩ := Ket.project_ne_zero hψ q
    obtain ⟨ms, φ, h⟩ := ih (hafter hm)
    exact ⟨m :: ms, φ, .cons hm h⟩

end Measuring

/-! ## Runs -/

/-- Every operator that the outcomes and the last operator measure on the way is clean. -/
def CleanAlong (is : List Instruction) (w : List (ZMod 2)) (p : Pauli) : Prop :=
  Along (fun i ops => i.Clean (ops ())) is (fun _ => w) fun _ => p

theorem cleanAlong_append {is js : List Instruction} {w : List (ZMod 2)} {p : Pauli} :
    CleanAlong (is ++ js) w p ↔ CleanAlong is w (pull js (w.drop (Circuit.measurementsOf is)) p) ∧
      CleanAlong js (w.drop (Circuit.measurementsOf is)) p := along_append

theorem cleanAlong_kept {i : Instruction} {p : Pauli} (h : i.Clean p) (w : List (ZMod 2)) : CleanAlong i.kept w p :=
  along_kept h

section Runs

variable {n : Nat}

theorem Step.ne_zero {i : Instruction} {ψ φ : Ket} {ms : List (ZMod 2)} (h : Step i ψ ms φ) (hn : i.qubits.Nodup)
    (hψ : ψ ≠ 0) : φ ≠ 0 := by
  cases h with
  | gate => exact Ket.gate_ne_zero _ hn hψ
  | reset h => exact h.ne_zero Ket.restored_ne_zero hψ
  | measure h => exact h.ne_zero id hψ
  | measureReset h => exact h.ne_zero Ket.restored_ne_zero hψ
  | detector => exact hψ
  | observable => exact hψ
  | tick => exact hψ

/-- Every instruction but noise can happen in every state. -/
theorem Step.exists {i : Instruction} (hnoise : i.kind.isNoise = false) {ψ : Ket} (hψ : ψ ≠ 0) :
    ∃ ms φ, Step i ψ ms φ := by
  obtain ⟨kind, qubits, records⟩ := i
  cases kind with
  | gate g => exact ⟨_, _, .gate⟩
  | reset =>
    obtain ⟨ms, φ, h⟩ := Measures.exists Ket.restored_ne_zero qubits hψ
    exact ⟨_, _, .reset h⟩
  | noise c => cases hnoise
  | measure =>
    obtain ⟨ms, φ, h⟩ : ∃ ms φ, Measures Ket.project qubits ψ ms φ := Measures.exists id qubits hψ
    exact ⟨_, _, .measure h⟩
  | measureReset =>
    obtain ⟨ms, φ, h⟩ := Measures.exists Ket.restored_ne_zero qubits hψ
    exact ⟨_, _, .measureReset h⟩
  | detector => exact ⟨_, _, .detector⟩
  | observable k => exact ⟨_, _, .observable⟩
  | tick => exact ⟨_, _, .tick⟩

theorem Measures.length_eq {after : Ket → Qubit → ZMod 2 → Ket} {qubits : List Qubit} {ψ φ : Ket}
    {ms : List (ZMod 2)} (h : Measures after qubits ψ ms φ) : ms.length = qubits.length := by
  induction h with
  | nil => rfl
  | cons _ _ ih => rw [List.length_cons, ih, List.length_cons]

theorem Step.length_eq {i : Instruction} {ψ φ : Ket} {ms : List (ZMod 2)} (h : Step i ψ ms φ) :
    ms.length = i.measurements := by
  cases h with
  | gate => rfl
  | reset => rfl
  | measure h => exact h.length_eq
  | measureReset h => exact h.length_eq
  | detector => rfl
  | observable => rfl
  | tick => rfl

theorem Runs.length_eq {is : List Instruction} {ψ φ : Ket} {outcomes : List (ZMod 2)} (h : Runs is ψ outcomes φ) :
    outcomes.length = Circuit.measurementsOf is := by
  induction h with
  | nil => rfl
  | cons hstep _ ih => rw [List.length_append, hstep.length_eq, ih, Circuit.measurementsOf_cons]

/-- The operator before an instruction fixes the state before; then the one after fixes the
    state after, and the signs are those of the outcomes. -/
theorem Step.fixes {i : Instruction} {ψ φ : Ket} {ms : List (ZMod 2)} (h : Step i ψ ms φ) (hq : ∀ q ∈ i.qubits, q < n)
    {p : Pauli} (hclean : i.Clean p) {w : List (ZMod 2)} {a : ZMod 2} (hfix : (i.pull w p).Fixes n a ψ) :
    p.Fixes n (a + weigh w ms) φ := by
  cases h with
  | gate =>
    rw [weigh_nil, add_zero]
    exact hfix.gate hclean hq
  | @reset qubits _ _ _ ms h =>
    have hnone : Pauli.weighted qubits [] = 0 := by
      ext q <;> simp [Pauli.weighted]
    have hfix' : (p.clear qubits + Pauli.weighted qubits []).Fixes n a ψ := by
      rw [hnone, Pauli.add_zero]
      exact hfix
    have hafter := Pauli.Fixes.reset h hclean.1 hq hclean.2 hfix'
    rw [weigh_nil, add_zero]
    simpa [weigh] using hafter
  | measure h => exact Pauli.Fixes.measured h hq hclean.2 hfix
  | measureReset h => exact Pauli.Fixes.reset h hclean.1 hq hclean.2 hfix
  | detector => rwa [weigh_nil, add_zero]
  | observable => rwa [weigh_nil, add_zero]
  | tick => rwa [weigh_nil, add_zero]

/-- Every operator that is clean on the way keeps fixing the state. -/
theorem Runs.fixes {is : List Instruction} {ψ φ : Ket} {outcomes : List (ZMod 2)} (h : Runs is ψ outcomes φ)
    (hq : ∀ i ∈ is, ∀ q ∈ i.qubits, q < n) {w : List (ZMod 2)} {p : Pauli}
    (hclean : CleanAlong is w p) (hψ : ψ ≠ 0) {a : ZMod 2}
    (hfix : (pull is w p).Fixes n a ψ) : p.Fixes n (a + weigh w outcomes) φ ∧ φ ≠ 0 := by
  induction h generalizing w a with
  | nil => exact ⟨by simpa [pull] using hfix, hψ⟩
  | @cons i rest ψ χ φ ms outcomes hstep _ ih =>
    obtain ⟨hqi, hqrest⟩ := List.forall_mem_cons.mp hq
    obtain ⟨hi, hrest⟩ := hclean
    have hlen := hstep.length_eq
    rw [weigh_append, hlen, ← add_assoc]
    exact ih hqrest hrest (hstep.ne_zero hi.1 hψ) (hstep.fixes hqi hi hfix)

/-- Outcomes whose product is nothing at the start add up to zero. -/
theorem Runs.weigh_eq {is : List Instruction} {ψ φ : Ket} {outcomes : List (ZMod 2)} (h : Runs is ψ outcomes φ)
    (hq : ∀ i ∈ is, ∀ q ∈ i.qubits, q < n) {w : List (ZMod 2)}
    (hclean : CleanAlong is w 0) (hψ : ψ ≠ 0)
    (hstart : ∀ q < n, (pull is w 0).x q = 0 ∧ (pull is w 0).z q = 0) : weigh w outcomes = 0 := by
  have hnone : ∀ {p : Pauli} (χ : Ket), (∀ q < n, p.x q = 0 ∧ p.z q = 0) → p.act n χ = χ := by
    intro p χ hp
    funext b
    have hoverlap : Pauli.overlap n p.z b = 0 :=
      Finset.sum_eq_zero fun q hq => by rw [(hp q (Finset.mem_range.mp hq)).2, zero_mul]
    have hshift : Pauli.shift n p.x b = b := by
      funext q
      by_cases hq : q < n
      · simp [Pauli.shift, hq, (hp q hq).1]
      · simp [Pauli.shift, hq]
    rw [Pauli.act, hoverlap, hshift, sign_zero, one_mul]
  have hfix : (pull is w 0).Fixes n 0 ψ := by
    rw [Pauli.Fixes, hnone ψ hstart, sign_zero, one_smul]
  obtain ⟨hend, hφ⟩ := h.fixes hq hclean hψ hfix
  rw [Pauli.Fixes, hnone φ fun q _ => ⟨rfl, rfl⟩, zero_add] at hend
  obtain ⟨b, hb⟩ := Function.ne_iff.mp hφ
  refine sign_eq_one (mul_right_cancel₀ hb ?_)
  rw [one_mul]
  exact (congrFun hend b).symm

/-- Without noise there is a run from every state. -/
theorem Runs.exists {is : List Instruction} (hnoise : ∀ i ∈ is, i.kind.isNoise = false)
    (hn : ∀ i ∈ is, i.qubits.Nodup) {ψ : Ket} (hψ : ψ ≠ 0) : ∃ outcomes φ, Runs is ψ outcomes φ := by
  induction is generalizing ψ with
  | nil => exact ⟨[], ψ, .nil⟩
  | cons i rest ih =>
    obtain ⟨hi, hrest⟩ := List.forall_mem_cons.mp hnoise
    obtain ⟨hni, hnrest⟩ := List.forall_mem_cons.mp hn
    obtain ⟨ms, χ, hstep⟩ := Step.exists hi hψ
    obtain ⟨outcomes, φ, hruns⟩ := ih hrest hnrest (hstep.ne_zero hni hψ)
    exact ⟨_, φ, .cons hstep hruns⟩

end Runs

end QuantumMemory

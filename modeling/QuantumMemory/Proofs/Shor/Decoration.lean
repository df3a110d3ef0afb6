/-
  QuantumMemory.Proofs.Shor.Decoration — noise decorates a Shor memory and decides nothing.

  The actions of a Shor memory are made of those of any memory, so two of them that differ in
  their noise answer alike (`buildMemory_matching`).
-/

import QuantumMemory.Proofs.Memory.Decoration
import QuantumMemory.Proofs.Shor.Program

namespace QuantumMemory

namespace ShorCode

open Memory

variable {p1 p2 : Binary64}

theorem alike_appendHadamard (qubits : List Qubit) : Alike p1 p2 (ShorCode.appendHadamard qubits) :=
  alike_bind (alike_h _) fun _ => alike_depolarize1 _

theorem alike_appendEncoding (c : ShorCode) : Alike p1 p2 c.appendEncoding :=
  alike_bind (alike_prepare _) fun _ => alike_bind (alike_appendHadamard _) fun _ =>
    alike_forM (fun k => alike_appendLayer (c.fanOutLayer k)) [1, 2]

theorem alike_appendDetectors (c : ShorCode) (round : Nat) : Alike p1 p2 (c.appendDetectors round) := by
  cases round with
  | zero => exact alike_forM (fun a => alike_discard (alike_detector _)) _
  | succ r => exact alike_forM (fun a => alike_discard (alike_detector _)) _

theorem alike_appendRound (c : ShorCode) (round : Nat) : Alike p1 p2 (c.appendRound round) := by
  rw [ShorCode.appendRound_eq]
  refine alike_bind (alike_beginRound round) fun _ => alike_bind (alike_unless _ (alike_depolarize1 _)) fun _ => ?_
  refine alike_bind (alike_forM (fun k => alike_appendLayer (c.bitFlipLayer k)) _) fun _ => ?_
  refine alike_bind (alike_appendHadamard _) fun _ => ?_
  refine alike_bind (alike_forM (fun k => alike_appendLayer (c.phaseLayer k)) _) fun _ => ?_
  refine alike_bind (alike_appendHadamard _) fun _ => alike_bind (alike_depolarize1 _) fun _ => ?_
  exact alike_bind (alike_measuring _ _ rfl _ _ _) fun _ => alike_appendDetectors c round

theorem alike_appendReadout (c : ShorCode) (rounds : Nat) : Alike p1 p2 (c.appendReadout rounds) := by
  refine alike_bind alike_beginFinalize fun _ => alike_bind (alike_depolarize1 _) fun _ => ?_
  refine alike_bind (alike_h _) fun _ => alike_bind (alike_measuring _ _ rfl _ _ _) fun _ => ?_
  exact alike_bind (alike_forM (fun b => alike_discard (alike_detector _)) _) fun _ => alike_observable _ _

/-- A Shor memory is that without noise, decorated. -/
theorem buildMemory_matching {params : CodeParams} (h : params.validate = .ok ()) (rounds : Nat) :
    Matching params.depolarize1Rate params.depolarize2Rate (buildMemory ⟨params⟩ rounds)
      (buildMemory ⟨params.noiseless⟩ rounds) := by
  rw [buildMemory, buildMemory, validateRounds]
  split
  · exact matching_error _
  · have hends : EndsAlike params.depolarize1Rate params.depolarize2Rate (memory ⟨params⟩ rounds) :=
      endsAlike_bind (alike_appendEncoding _) fun _ => endsAlike_bind (alike_forM (alike_appendRound _) _) fun _ =>
        endsAlike_bind (alike_appendReadout _ rounds) fun _ => endsAlike_finish
    exact hends _ _ (start_decorates h "shor")

end ShorCode

end QuantumMemory

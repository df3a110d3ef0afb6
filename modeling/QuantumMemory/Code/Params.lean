/-
  QuantumMemory.Code.Params — what every code is built from: its distance and the rates of
  its noise, one for single qubits and one for pairs.
-/

import QuantumMemory.Code.Error

namespace QuantumMemory

/-- Parameters shared by all codes. -/
structure CodeParams where
  distance : Nat
  depolarize1Rate : Binary64
  depolarize2Rate : Binary64
  deriving DecidableEq

namespace CodeParams

def checkRate (name : String) (value : Binary64) : Except CodeError Unit :=
  if value.isProbability then .ok () else .error (.invalidRate name value)

def validate (p : CodeParams) : Except CodeError Unit := do
  if p.distance = 0 then throw (.invalidDistance 0 .positive)
  checkRate "depolarize1_rate" p.depolarize1Rate
  checkRate "depolarize2_rate" p.depolarize2Rate

/-- Parameters that are valid. -/
def checked (distance : Nat) (p1 p2 : Binary64) : Except CodeError CodeParams := do
  let p : CodeParams := ⟨distance, p1, p2⟩
  p.validate
  return p

end CodeParams

def validateRounds (rounds : Nat) : Except CodeError Unit :=
  if rounds = 0 then .error (.invalidRounds 0) else .ok ()

end QuantumMemory

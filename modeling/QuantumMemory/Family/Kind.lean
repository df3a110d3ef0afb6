/-
  QuantumMemory.Family.Kind — the built-in families by name.
-/

import QuantumMemory.Family.Bicycle
import QuantumMemory.Family.Planar

namespace QuantumMemory

inductive CodeKind
  | repetition
  | rotatedSurface
  | bivariateBicycle
  | shor
  deriving DecidableEq

namespace CodeKind

def all : List CodeKind := [repetition, rotatedSurface, bivariateBicycle, shor]

def name : CodeKind → String
  | repetition => "repetition"
  | rotatedSurface => "rotated-surface"
  | bivariateBicycle => "bivariate-bicycle"
  | shor => "shor"

def ofName? (s : String) : Option CodeKind := all.find? fun k => k.name = s

/-- What is said of a word that names no family. -/
def unknownMessage (s : String) : String :=
  s!"Unknown code '{s}' (expected one of: repetition, rotated-surface, bivariate-bicycle, shor)"

/-- The code of the family with the given parameters. -/
def build (kind : CodeKind) (params : CodeParams) : Except CodeError Code :=
  match kind with
  | repetition => (Repetition.make params).map .placed
  | rotatedSurface => (RotatedSurface.make params).map .placed
  | bivariateBicycle => (Bicycle.make params).map .placed
  | shor => (ShorCode.make params).map .shor

end CodeKind

end QuantumMemory

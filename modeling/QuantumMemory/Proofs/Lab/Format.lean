/-
  QuantumMemory.Proofs.Lab.Format — what a JSON text can be read as, and that writing it loses nothing.

  `Format` names the descriptions that programs exchange: instructions, bicycle and lattice codes, parameters,
  experiments, sweeps and their results. Each has a reader and a writer of trees, made separately; each reader undoes
  its writer on what it has read itself (`ofDocument?_toDocument`), and the JSON text of a tree, in either layout,
  is read as the tree (`Json.Style.read_write`).

  - `Format.lossless`: what a text was read as is written as a text that is read as the same.
-/

import QuantumMemory.Proofs.Lab.Document

namespace QuantumMemory

namespace Document.Json

/-- The two layouts of a text. -/
inductive Style
  | compact
  | pretty

/-- The text of a tree. -/
def Style.write : Style → Document → String
  | compact => Json.write
  | pretty => Json.pretty

theorem Style.read_write (style : Style) {d : Document} (h : d.Written) : read (style.write d) = some d := by
  cases style with
  | compact => exact Json.read_write h
  | pretty => exact Json.read_pretty h

end Document.Json

/-- The formats of descriptions. -/
inductive Format
  | instruction
  | bicycle
  | lattice
  | params
  | experiment
  | sweep
  | stats

namespace Format

/-- What a text in the format describes. -/
def Value : Format → Type
  | instruction => Instruction
  | bicycle => BicycleSpec
  | lattice => LatticeSpec
  | params => CodeParams
  | experiment => ExperimentConfig
  | sweep => ThresholdConfig
  | stats => ThresholdStats

def toDocument : (f : Format) → f.Value → Document
  | instruction => Instruction.toDocument
  | bicycle => BicycleSpec.toDocument
  | lattice => LatticeSpec.toDocument
  | params => CodeParams.toDocument
  | experiment => ExperimentConfig.toDocument
  | sweep => ThresholdConfig.toDocument
  | stats => ThresholdStats.toDocument

def ofDocument? : (f : Format) → Document → Option f.Value
  | instruction => Instruction.ofDocument?
  | bicycle => BicycleSpec.ofDocument?
  | lattice => LatticeSpec.ofDocument?
  | params => CodeParams.ofDocument?
  | experiment => ExperimentConfig.ofDocument?
  | sweep => ThresholdConfig.ofDocument?
  | stats => ThresholdStats.ofDocument?

/-- The numbers in a value that need not be on the grid of coordinates. -/
def numbers : (f : Format) → f.Value → List Binary64
  | instruction => Instruction.numbers
  | bicycle => fun _ => []
  | lattice => LatticeSpec.numbers
  | params => CodeParams.numbers
  | experiment => ExperimentConfig.numbers
  | sweep => ThresholdConfig.numbers
  | stats => ThresholdStats.numbers

/-- The value that a JSON text is read as. -/
def read? (f : Format) (text : String) : Option f.Value := (Document.Json.read text).bind f.ofDocument?

theorem ofDocument?_toDocument (f : Format) {v : f.Value} (h : Document.Readable f.ofDocument? v)
    (hnumbers : ∀ x ∈ f.numbers v, x.ReadsBack) : f.ofDocument? (f.toDocument v) = some v := by
  cases f with
  | instruction => exact Instruction.ofDocument?_toDocument h hnumbers
  | bicycle => exact BicycleSpec.ofDocument?_toDocument h
  | lattice => exact LatticeSpec.ofDocument?_toDocument h hnumbers
  | params => exact CodeParams.ofDocument?_toDocument (CodeParams.bounded_of_readable h) hnumbers
  | experiment => exact ExperimentConfig.ofDocument?_toDocument h hnumbers
  | sweep => exact ThresholdConfig.ofDocument?_toDocument h hnumbers
  | stats => exact ThresholdStats.ofDocument?_toDocument h hnumbers

theorem written_toDocument (f : Format) (v : f.Value) : (f.toDocument v).Written := by
  cases f with
  | instruction => exact Instruction.written_toDocument v
  | bicycle => exact BicycleSpec.written_toDocument v
  | lattice => exact LatticeSpec.written_toDocument v
  | params => exact CodeParams.written_toDocument v
  | experiment => exact ExperimentConfig.written_toDocument v
  | sweep => exact ThresholdConfig.written_toDocument v
  | stats => exact ThresholdStats.written_toDocument v

/-- What a text was read as, when each of its numbers is read back from the literal it is written with, is written as a
    text that is read as an equal value, and that value is written as the same text. -/
theorem lossless (f : Format) {text : String} {v : f.Value} (h : f.read? text = some v)
    (hnumbers : ∀ x ∈ f.numbers v, x.ReadsBack) (style : Document.Json.Style) :
    ∃ w, f.read? (style.write (f.toDocument v)) = some w ∧ w = v ∧
      style.write (f.toDocument w) = style.write (f.toDocument v) := by
  obtain ⟨d, hd, hv⟩ := Option.bind_eq_some_iff.mp h
  have htree := style.read_write (f.written_toDocument v)
  have hback := f.ofDocument?_toDocument ⟨d, Document.Json.read_explicit hd, hv⟩ hnumbers
  exact ⟨v, by rw [read?, htree, Option.bind_some, hback], rfl, rfl⟩

/-- A lattice on a torus, its fields in their order without their names. -/
def torusText : String :=
  "[\"torus\", [[0, 0], [1, 0.5]], [[\"X\", [5e-1, -0.5], [3, 2, 1, 0]], [\"Z\", [1, 1], null]], [\"Z\", \"X\"], " ++
    "[0, 1, 2, 3], [0, 2, 1, 3], 0.250, [\"toroidal\", 4, 4], [[0, 0]], \"skip\"]"

def torus : LatticeSpec where
  name := "torus"
  data := [⟨0, 0⟩, ⟨2, 1⟩]
  checks := [⟨.x, ⟨1, -1⟩, some [3, 2, 1, 0]⟩, ⟨.z, ⟨2, 2⟩, none⟩]
  bases := [.z, .x]
  xDirections := [0, 1, 2, 3]
  zDirections := [0, 2, 1, 3]
  step := .ofRatio false 1 4
  boundary := .toroidal 4 4
  logical := [⟨0, 0⟩]
  policy := .skip

theorem read?_torusText : lattice.read? torusText = some torus := by
  show (Document.Json.read torusText).bind LatticeSpec.ofDocument? = some torus
  decide +kernel

theorem torus_readsBack : ∀ x ∈ lattice.numbers torus, x.ReadsBack := by
  have hquarter : Numeral.ofBinary64 torus.step = some ⟨false, ['0'], ['2', '5'], none⟩ := by decide +kernel
  refine List.forall_mem_singleton.mpr ?_
  intro n hn
  rw [hquarter] at hn
  cases hn
  decide +kernel

theorem lossless_torus : lattice.read? torusText = some torus ∧ (∀ x ∈ lattice.numbers torus, x.ReadsBack) ∧
    ∃ w, lattice.read? (Document.Json.Style.pretty.write (lattice.toDocument torus)) = some w ∧ w = torus ∧
      Document.Json.Style.pretty.write (lattice.toDocument w) =
        Document.Json.Style.pretty.write (lattice.toDocument torus) := by
  exact ⟨read?_torusText, torus_readsBack, lossless lattice read?_torusText torus_readsBack .pretty⟩

end Format

end QuantumMemory

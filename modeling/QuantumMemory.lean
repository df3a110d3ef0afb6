import QuantumMemory.Circuit.Basic
import QuantumMemory.Circuit.Document
import QuantumMemory.Circuit.Instruction
import QuantumMemory.Circuit.Ledger
import QuantumMemory.Circuit.Record
import QuantumMemory.Circuit.Stim
import QuantumMemory.Cli.Build
import QuantumMemory.Cli.Command
import QuantumMemory.Cli.Inspect
import QuantumMemory.Cli.Options
import QuantumMemory.Cli.Run
import QuantumMemory.Cli.Session
import QuantumMemory.Code.Basic
import QuantumMemory.Code.BitMatrix
import QuantumMemory.Code.Error
import QuantumMemory.Code.Layout
import QuantumMemory.Code.Memory
import QuantumMemory.Code.Params
import QuantumMemory.Document.Json
import QuantumMemory.Document.Plain
import QuantumMemory.Document.Read
import QuantumMemory.Document.Sorted
import QuantumMemory.Document.Tree
import QuantumMemory.Document.Yaml
import QuantumMemory.Family.Bicycle
import QuantumMemory.Family.Document
import QuantumMemory.Family.Kind
import QuantumMemory.Family.Planar
import QuantumMemory.Family.UserLattice
import QuantumMemory.Files.Access
import QuantumMemory.Files.Directory
import QuantumMemory.Files.Path
import QuantumMemory.Lab.Backend
import QuantumMemory.Lab.Config
import QuantumMemory.Lab.Error
import QuantumMemory.Lab.Threshold
import QuantumMemory.Lattice.Builder
import QuantumMemory.Lattice.Coordinate
import QuantumMemory.Lattice.Document
import QuantumMemory.Lattice.Graph
import QuantumMemory.Lattice.Role
import QuantumMemory.Main
import QuantumMemory.Number.Binary64
import QuantumMemory.Number.Decimal
import QuantumMemory.Number.Numeral
import QuantumMemory.Number.Written
import QuantumMemory.Text.Blank
import QuantumMemory.Text.Cased
import QuantumMemory.Text.LowerCase
import QuantumMemory.Proofs.Success
import QuantumMemory.Proofs.Graph.Built
import QuantumMemory.Proofs.Graph.Views
import QuantumMemory.Proofs.Graph.Schedule
import QuantumMemory.Proofs.Graph.Layout
import QuantumMemory.Proofs.Number.Value
import QuantumMemory.Proofs.Circuit.Growth
import QuantumMemory.Proofs.Circuit.Decoration
import QuantumMemory.Proofs.Circuit.WellFormed
import QuantumMemory.Proofs.Circuit.Reference
import QuantumMemory.Proofs.Build.Perform
import QuantumMemory.Proofs.Build.Program
import QuantumMemory.Proofs.Shor.Program
import QuantumMemory.Proofs.Memory.Addressing
import QuantumMemory.Proofs.Memory.Calls
import QuantumMemory.Proofs.Memory.Decoration
import QuantumMemory.Proofs.Pauli.Frame
import QuantumMemory.Proofs.Pauli.Relay
import QuantumMemory.Proofs.Pauli.Round
import QuantumMemory.Proofs.Pauli.Spread
import QuantumMemory.Proofs.Memory.Readings
import QuantumMemory.Proofs.Shor.Addressing
import QuantumMemory.Proofs.Shor.Distance
import QuantumMemory.Proofs.Memory.DataErrors
import QuantumMemory.Proofs.Memory.Sites
import QuantumMemory.Proofs.Quantum.Ket
import QuantumMemory.Proofs.Quantum.Runs
import QuantumMemory.Proofs.Memory.Silence
import QuantumMemory.Proofs.Shor.Round
import QuantumMemory.Proofs.Shor.Silence
import QuantumMemory.Proofs.Family.Construction
import QuantumMemory.Proofs.Linear.Rows
import QuantumMemory.Proofs.Linear.Elimination
import QuantumMemory.Proofs.Linear.Kernel
import QuantumMemory.Proofs.Family.BicycleLogical
import QuantumMemory.Proofs.Memory.Rows
import QuantumMemory.Proofs.Memory.Distance
import QuantumMemory.Proofs.Graph.Builder
import QuantumMemory.Proofs.Family.Grid
import QuantumMemory.Proofs.Family.Surface
import QuantumMemory.Proofs.Family.SurfaceLayout
import QuantumMemory.Proofs.Family.Checkerboard
import QuantumMemory.Proofs.Family.SurfaceBoard
import QuantumMemory.Proofs.Family.SurfaceDistance
import QuantumMemory.Proofs.Family.SurfaceGeometry
import QuantumMemory.Proofs.Graph.Incidence
import QuantumMemory.Proofs.Family.SurfaceParameters
import QuantumMemory.Proofs.Family.BicycleGraph
import QuantumMemory.Proofs.Family.BicycleChecks
import QuantumMemory.Proofs.Shor.Decoration
import QuantumMemory.Proofs.Family.Decoration
import QuantumMemory.Proofs.Family.Periodicity
import QuantumMemory.Proofs.Number.Reading
import QuantumMemory.Circuit.Reader
import QuantumMemory.Proofs.Circuit.Text
import QuantumMemory.Proofs.Circuit.Counters
import QuantumMemory.Circuit.Index
import QuantumMemory.Proofs.Circuit.Replay
import QuantumMemory.Proofs.Circuit.Index
import QuantumMemory.Lattice.Index
import QuantumMemory.Proofs.Graph.Edges
import QuantumMemory.Code.Schedule
import QuantumMemory.Proofs.Graph.Index
import QuantumMemory.Proofs.Graph.Canonical
import QuantumMemory.Proofs.Graph.Scan
import QuantumMemory.Proofs.Graph.Exactness
import QuantumMemory.Proofs.Graph.Reordering
import QuantumMemory.Proofs.Family.Repetition
import QuantumMemory.Proofs.Family.Description
import QuantumMemory.Proofs.Family.Agreement
import QuantumMemory.Proofs.Family.RepetitionDistance
import QuantumMemory.Proofs.Memory.Phases
import QuantumMemory.Lattice.Placement
import QuantumMemory.Proofs.Graph.Placement
import QuantumMemory.Proofs.Graph.Torus
import QuantumMemory.Proofs.Graph.Relocation
import QuantumMemory.Proofs.Graph.Translation
import QuantumMemory.Proofs.Family.Translation
import QuantumMemory.Proofs.Linear.Canonical
import QuantumMemory.Proofs.Linear.Lightest
import QuantumMemory.Proofs.Number.Rounding
import QuantumMemory.Proofs.Lab.Work
import QuantumMemory.Proofs.Lab.Rates
import QuantumMemory.Proofs.Lab.Sweep
import QuantumMemory.Proofs.Number.Literal
import QuantumMemory.Proofs.Number.Short
import QuantumMemory.Proofs.Document.Token
import QuantumMemory.Proofs.Document.Spelling
import QuantumMemory.Proofs.Document.Fields
import QuantumMemory.Proofs.Circuit.Document
import QuantumMemory.Proofs.Lattice.Coordinate
import QuantumMemory.Proofs.Lattice.Document
import QuantumMemory.Proofs.Family.Document
import QuantumMemory.Proofs.Lab.Document
import QuantumMemory.Proofs.Lab.Format
import QuantumMemory.Proofs.Linear.Basis
import QuantumMemory.Proofs.Graph.Diagonals
import QuantumMemory.Proofs.Family.BicycleTerms
import QuantumMemory.Code.Index
import QuantumMemory.Proofs.Memory.Refusal
import QuantumMemory.Proofs.Memory.Index
import QuantumMemory.Proofs.Memory.Discipline
import QuantumMemory.Proofs.Lab.Count
import QuantumMemory.Proofs.Lab.Shots
import QuantumMemory.Proofs.Memory.Observable
import QuantumMemory.Proofs.Family.LogicalSites
import QuantumMemory.Proofs.Lab.Selection
import QuantumMemory.Code.PackedMatrix
import QuantumMemory.Proofs.Linear.Words
import QuantumMemory.Proofs.Linear.InPlace
import QuantumMemory.Proofs.Linear.Packed
import QuantumMemory.Proofs.Linear.Stored

import MmixBackend.Build
import MmixBackend.Chunk
import MmixBackend.CommandLine.FileSystem
import MmixBackend.CommandLine.Options
import MmixBackend.CommandLine.Path
import MmixBackend.CommandLine.Session
import MmixBackend.CommandLine.World
import MmixBackend.Compiler
import MmixBackend.Failure
import MmixBackend.Frame
import MmixBackend.Ir.Canonical
import MmixBackend.Ir.Expr
import MmixBackend.Ir.Text
import MmixBackend.Json.Basic
import MmixBackend.Json.Reader
import MmixBackend.Json.Writer
import MmixBackend.Layout
import MmixBackend.Location
import MmixBackend.Lowering
import MmixBackend.Machine.Fault
import MmixBackend.Machine.Image
import MmixBackend.Machine.Memory
import MmixBackend.Machine.Run
import MmixBackend.Machine.Step
import MmixBackend.Main
import MmixBackend.Names
import MmixBackend.Note
import MmixBackend.Operator
import MmixBackend.Proofs.Activations
import MmixBackend.Proofs.Allocation
import MmixBackend.Proofs.Callees
import MmixBackend.Proofs.Canonical
import MmixBackend.Proofs.Coloring
import MmixBackend.Proofs.Compilation
import MmixBackend.Proofs.Data
import MmixBackend.Proofs.Evaluation
import MmixBackend.Proofs.Execution
import MmixBackend.Proofs.Faults
import MmixBackend.Proofs.Insertion
import MmixBackend.Proofs.Interference
import MmixBackend.Proofs.Layout
import MmixBackend.Proofs.Linear
import MmixBackend.Proofs.Linkage
import MmixBackend.Proofs.Linking
import MmixBackend.Proofs.Liveness
import MmixBackend.Proofs.Lowering
import MmixBackend.Proofs.Meaning
import MmixBackend.Proofs.Pass
import MmixBackend.Proofs.Paths
import MmixBackend.Proofs.Processor
import MmixBackend.Proofs.Progress
import MmixBackend.Proofs.Realization
import MmixBackend.Proofs.Repair
import MmixBackend.Proofs.Safety
import MmixBackend.Proofs.Selection
import MmixBackend.Proofs.Settling
import MmixBackend.Proofs.Simulation
import MmixBackend.Proofs.SpillSimulation
import MmixBackend.Proofs.Spilling
import MmixBackend.Proofs.Translation
import MmixBackend.Proofs.TwoAddress
import MmixBackend.Target.Allocation
import MmixBackend.Target.Assembly
import MmixBackend.Target.Coloring
import MmixBackend.Target.Constant
import MmixBackend.Target.Instr
import MmixBackend.Target.Interference
import MmixBackend.Target.Liveness
import MmixBackend.Target.Mmix
import MmixBackend.Target.Register
import MmixBackend.Target.Selection
import MmixBackend.Target.Spill
import MmixBackend.Target.Template
import MmixBackend.Target.Trace
import MmixBackend.Text.Column
import MmixBackend.Text.Escaped
import MmixBackend.Text.Utf8
import MmixBackend.Typed.Builder
import MmixBackend.Typed.Decode
import MmixBackend.Typed.Encode
import MmixBackend.Typed.Expr
import MmixBackend.Typed.Id
import MmixBackend.Typed.Ty
import MmixBackend.Typed.Walk
import MmixBackend.Word
import MmixBackend.Proofs.SelectionSimulation
import MmixBackend.Proofs.Outline
import MmixBackend.Proofs.Drawing
import MmixBackend.Proofs.Assembling
import MmixBackend.Proofs.Sizes
import MmixBackend.Proofs.Spans
import MmixBackend.Proofs.Places
import MmixBackend.Proofs.Structure
import MmixBackend.Proofs.WellFormed
import MmixBackend.Proofs.Acceptance
import MmixBackend.Proofs.AssignedCode
import MmixBackend.Proofs.FrameStack
import MmixBackend.Proofs.Prologue
import MmixBackend.Proofs.StaticLinks
import MmixBackend.Proofs.Tiling
import MmixBackend.Proofs.Moments
import MmixBackend.Proofs.StackDiscipline
import MmixBackend.Proofs.Octets
import MmixBackend.Proofs.Runtime
import MmixBackend.Proofs.DataLabels
import MmixBackend.Proofs.Listing
import MmixBackend.Proofs.Alike
import MmixBackend.Proofs.Relocation
import MmixBackend.Proofs.Disguise
import MmixBackend.Proofs.Indifference
import MmixBackend.Proofs.Flattening
import MmixBackend.Proofs.Records
import MmixBackend.Proofs.Outgoing
import MmixBackend.Proofs.Agreement
import MmixBackend.Proofs.Format
import MmixBackend.Proofs.Interchange
import MmixBackend.Proofs.GraphColoring
import MmixBackend.Proofs.Emission
import MmixBackend.Proofs.CallingConvention
import MmixBackend.Proofs.Limits
import MmixBackend.Proofs.SeveralCalls
import MmixBackend.Proofs.Inventory
import MmixBackend.Proofs.Linearization
import MmixBackend.Proofs.Constants
import MmixBackend.Proofs.Division

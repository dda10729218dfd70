import Regalloc.Main
import Regalloc.Proofs.Interference
import Regalloc.Proofs.Allocation
import Regalloc.Proofs.LiveTogether
import Regalloc.Proofs.PathLiveness
import Regalloc.Proofs.Spelling
import Regalloc.Proofs.Printing
import Regalloc.Proofs.Reading
import Regalloc.Proofs.Lines
import Regalloc.Proofs.Blocks
import Regalloc.Proofs.Emission
import Regalloc.Proofs.Convergence
import Regalloc.Proofs.CompiledCode
import Regalloc.Proofs.Machine
import Regalloc.Proofs.SpillCode
import Regalloc.Proofs.Simulation
import Regalloc.Proofs.Crowding
import Regalloc.Proofs.AcrossCalls
import Regalloc.Proofs.Execution
import Regalloc.Proofs.StackPointer
import Regalloc.Proofs.CrowdedRoutine
import Regalloc.Proofs.SavedCells
import Regalloc.Proofs.RoundTrip
import Regalloc.Proofs.SpillRun
import Regalloc.Proofs.SpillRecord
import Regalloc.Proofs.AttemptCap
import Regalloc.Proofs.GraphSteps
import Regalloc.Proofs.ColoringBounds
import Regalloc.Proofs.Removal
import Regalloc.Proofs.PluggedColorers
import Regalloc.Proofs.ScratchNames
import Regalloc.Proofs.Artifact
import Regalloc.Proofs.CodeFlow
import Regalloc.Proofs.Renaming
import Regalloc.Proofs.RenamedColoring
import Regalloc.Proofs.RenamedAllocation
import Regalloc.Proofs.RenamedCode
import Regalloc.Proofs.NameOrder
import Regalloc.Proofs.Layout
import Regalloc.Proofs.Passes
import Regalloc.Proofs.Homes
import Regalloc.Proofs.Lexing
import Regalloc.Proofs.Grammar
import Regalloc.Proofs.SourceLines
import Regalloc.Proofs.LineByLine
import Regalloc.Proofs.Positions
import Regalloc.Proofs.FlowTables
import Regalloc.Proofs.LongestMatch
import Regalloc.Proofs.ColoringCheck
import Regalloc.Proofs.EdgeCount

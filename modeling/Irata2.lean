import Irata2.Library.Table
import Irata2.Sim.Memory
import Irata2.Isa.Instructions
import Irata2.Microcode.Ir
import Irata2.Library.Submask
import Irata2.Microcode.Encoder
import Irata2.Library.Checks
import Irata2.Microcode.Compiler
import Irata2.Microcode.Irata
import Irata2.Library.Cover
import Irata2.Microcode.Validation
import Irata2.Microcode.Encoding
import Irata2.Sim.InstructionMemory
import Irata2.Sim.Cpu
import Irata2.Library.StateRun
import Irata2.Sim.Cycle
import Irata2.Sim.Tick
import Irata2.Sim.Run
import Irata2.Sim.Refinement
import Irata2.Microcode.Source
import Irata2.Microcode.Program
import Irata2.Isa.Operations
import Irata2.Sim.Microstep
import Irata2.Microcode.Bodies
import Irata2.Sim.Sequencing
import Irata2.Sim.MissingEntry
import Irata2.Library.Collapse
import Irata2.Microcode.Passes
import Irata2.Microcode.Pipeline
import Irata2.Sim.StepCounter
import Irata2.Sim.Execute
import Irata2.Sim.Merging
import Irata2.Sim.Duplicates
import Irata2.Library.Footprint
import Irata2.Sim.Cells
import Irata2.Sim.VisitingOrder
import Irata2.Sim.AnyOrder
import Irata2.Sim.Access
import Irata2.Sim.Architecture
import Irata2.Sim.Bodies
import Irata2.Sim.Boundary
import Irata2.Sim.Instruction
import Irata2.Sim.Traffic
import Irata2.Sim.Effects
import Irata2.Library.CarryChain
import Irata2.Sim.MultiByte
import Irata2.Sim.ShiftChain
import Irata2.Assembler.Cartridge
import Irata2.Sim.Cartridge
import Irata2.Assembler.Ast
import Irata2.Assembler.Lexer
import Irata2.Assembler.Include
import Irata2.Assembler.DebugJson
import Irata2.Library.Digits
import Irata2.Sim.Json
import Irata2.Sim.DebugSymbols
import Irata2.Sim.JsonText
import Irata2.Sim.Sidecar
import Irata2.Assembler.Assemble
import Irata2.Assembler.Layout
import Irata2.Assembler.Names
import Irata2.Assembler.Literals
import Irata2.Assembler.Syntax
import Irata2.Assembler.DebugMap
import Irata2.Library.Ring
import Irata2.Sim.Keyboard
import Irata2.Sim.MemoryMap
import Irata2.Library.DigitalLine
import Irata2.Sim.VgcBackend
import Irata2.Sim.InstructionTrace
import Irata2.Sim.JsonOutcome
import Irata2.Sim.HexWord
import Irata2.Sim.Rejection
import Irata2.Sim.Destination
import Irata2.Sim.Addressing
import Irata2.Sim.Stack
import Irata2.Sim.ResetControls
import Irata2.Library.Joining
import Irata2.Microcode.Decoder
import Irata2.Microcode.DumpText
import Irata2.Sim.BranchTargets
import Irata2.Sim.InterruptRuns
import Irata2.Sim.StatusEncoding
import Irata2.Library.Runs
import Irata2.Microcode.EmptySteps
import Irata2.Library.Blocks
import Irata2.Library.Painting
import Irata2.Sim.RunTool
import Irata2.Sim.Screen
import Irata2.Sim.Toolchain
import Irata2.Frontend.DemoRunner
import Irata2.Assembler.Acceptance
import Irata2.Assembler.LiteralUses
import Irata2.Assembler.Printing
import Irata2.Sim.Listing
import Irata2.Sim.Reassembly

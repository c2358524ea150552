import Zlvm.Image.RoundTrip
import Zlvm.Image.Rejected
import Zlvm.Lib.Loop
import Zlvm.Core.Codec
import Zlvm.Lib.BoundedStack
import Zlvm.Lib.Simulation
import Zlvm.Vm.Alu
import Zlvm.Vm.Atomic
import Zlvm.Vm.Fetch
import Zlvm.Vm.FlatMemory
import Zlvm.Vm.Halt
import Zlvm.Vm.Load
import Zlvm.Vm.Stack
import Zlvm.Link.Exact
import Zlvm.Link.Located
import Zlvm.Link.Order
import Zlvm.Link.Overlap
import Zlvm.Link.SectionTable
import Zlvm.Lib.Nested
import Zlvm.Link.Executable
import Zlvm.Asm.Payload
import Zlvm.Program.Labels
import Zlvm.Program.RawImage
import Zlvm.Program.RawSize
import Zlvm.Program.Inert
import Zlvm.Program.Modes
import Zlvm.Program.Aligned
import Zlvm.Program.Comparisons
import Zlvm.Asm.LabelTable
import Zlvm.Program.Diagnostics
import Zlvm.Program.Reservation
import Zlvm.Program.Symbols
import Zlvm.Asm.Numbers
import Zlvm.Program.DataMemory
import Zlvm.Asm.Immediates
import Zlvm.Asm.Spans
import Zlvm.Asm.Expander
import Zlvm.Asm.Moving
import Zlvm.Asm.Inlining
import Zlvm.Asm.Grammar
import Zlvm.Asm.Binding
import Zlvm.Asm.Elimination
import Zlvm.Vm.Text
import Zlvm.Isa.Extension
import Zlvm.Isa.Refinement
import Zlvm.Isa.Flow
import Zlvm.Program.Execution
import Zlvm.Program.LinkedExecution
import Zlvm.Lib.LeadsTo
import Zlvm.Isa.Code
import Zlvm.Isa.Writes
import Zlvm.Program.Routines
import Zlvm.Program.TestProgram
import Zlvm.Lib.Heap
import Zlvm.Asm.Memory
import Zlvm.Asm.Codes
import Zlvm.Lib.Stdio
import Zlvm.Driver.Zlasm
import Zlvm.Driver.Zlvm
import Zlvm.Driver.Zllink
import Zlvm.Link.Faults

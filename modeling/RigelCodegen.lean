import RigelCodegen.Lib.Word
import RigelCodegen.Lib.Memory
import RigelCodegen.Lib.Packing
import RigelCodegen.Lib.Run
import RigelCodegen.Lib.Field
import RigelCodegen.Lib.Simulation
import RigelCodegen.Lib.Liveness
import RigelCodegen.Lib.Chain
import RigelCodegen.Lib.Fixpoint
import RigelCodegen.Lib.Blocks
import RigelCodegen.Target.Register
import RigelCodegen.Target.Machine
import RigelCodegen.Select.Immediate
import RigelCodegen.Select.Compare
import RigelCodegen.Select.Address
import RigelCodegen.Select.Load
import RigelCodegen.Select.SelectAddr
import RigelCodegen.Frame.MachineFrameInfo
import RigelCodegen.Frame.Layout
import RigelCodegen.Frame.RigelStackFrame
import RigelCodegen.Frame.DataLayout
import RigelCodegen.Frame.Alignment
import RigelCodegen.Frame.Elimination
import RigelCodegen.Frame.InlineAsm
import RigelCodegen.Frame.Prologue
import RigelCodegen.Frame.MaskDirective
import RigelCodegen.Call.Convention
import RigelCodegen.Call.Lower
import RigelCodegen.Call.Agreement
import RigelCodegen.Call.VarArgs
import RigelCodegen.Call.ByVal
import RigelCodegen.Call.Alloca
import RigelCodegen.Asm.Opcode
import RigelCodegen.Asm.Disassemble
import RigelCodegen.Asm.PrintArgs
import RigelCodegen.Asm.Assemble
import RigelCodegen.Asm.Operands
import RigelCodegen.Asm.Pending
import RigelCodegen.Asm.Emit
import RigelCodegen.Asm.Line
import RigelCodegen.Asm.Diagnose
import RigelCodegen.Asm.RoundTrip
import RigelCodegen.Asm.Branch
import RigelCodegen.Flow.BranchAnalysis
import RigelCodegen.Flow.SSA
import RigelCodegen.Flow.SelectExpansion
import RigelCodegen.Flow.DeadInstructions
import RigelCodegen.Call.Return
import RigelCodegen.Call.CallTree
import RigelCodegen.Reloc.Fixup
import RigelCodegen.Reloc.Assembly
import RigelCodegen.Reloc.Link
import RigelCodegen.Relax.Fragment
import RigelCodegen.Relax.Segment
import RigelCodegen.Relax.Contents
import RigelCodegen.Flow.CriticalEdge

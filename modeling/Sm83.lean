import Sm83.Trace
import Sm83.Proofs.Operand
import Sm83.Proofs.Instruction
import Sm83.Proofs.Opcode
import Sm83.Proofs.Step
import Sm83.Proofs.Block.Execution
import Sm83.Proofs.Block.Discovery
import Sm83.Proofs.CodeCache.Contents
import Sm83.Proofs.CodeCache.History
import Sm83.Proofs.CodeCache.Interpretation
import Sm83.Proofs.CodeCache.Transparency
import Sm83.Proofs.Block.Grammar
import Sm83.Proofs.Budget
import Sm83.Proofs.Block.Cost
import Sm83.Proofs.CodeCache.Integrity
import Sm83.Proofs.CodeCache.Budget
import Sm83.Proofs.Block.Overlap
import Sm83.Proofs.CodeCache.Coherence
import Sm83.Proofs.Place
import Sm83.Proofs.LowNibble
import Sm83.Proofs.Arithmetic
import Sm83.Proofs.Step.Accumulator
import Sm83.Proofs.Step.Extended
import Sm83.Proofs.Assignment
import Sm83.Proofs.Step.Load
import Sm83.Proofs.Step.Transfer
import Sm83.Proofs.Step.Count
import Sm83.Proofs.Footprint
import Sm83.Proofs.Footprint.Instruction
import Sm83.Proofs.Step.Footprint
import Sm83.Proofs.Block.Extent
import Sm83.Proofs.Stack.Nesting
import Sm83.Proofs.Carry.Chain
import Sm83.Proofs.Carry.Binary
import Sm83.Proofs.Carry.Decimal
import Sm83.Proofs.Block.Concatenation
import Sm83.Proofs.CodeCache.Compilation
import Sm83.Proofs.CodeCache.Invalidation
import Sm83.Proofs.Memory.Wrapping
import Sm83.Proofs.Memory.Stream
import Sm83.Proofs.Registers
import Sm83.Proofs.Walk

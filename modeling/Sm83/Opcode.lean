import Sm83.Instruction.Execute

/-!
# Opcodes

What is known about an opcode before it runs: its assembler spelling, what it does, how many bytes
it occupies with its operands, how many machine cycles it takes, and where execution goes on after
it. A conditional instruction takes fewer cycles when its condition does not hold.
-/

namespace Sm83

/-- Where execution goes on after an instruction. -/
inductive Flow where
  | next
  | jump
  | halt
  deriving DecidableEq

def Flow.name : Flow → String
  | .next => "Next"
  | .jump => "Jump"
  | .halt => "Halt"

/-- What an opcode does: one instruction, or going on with a byte of the extended opcodes. -/
inductive Operation where
  | instruction (instruction : Instruction)
  | extend

structure Opcode where
  /-- The assembler spelling, `???` for an opcode without a meaning of its own. -/
  mnemonic : String
  operation : Operation
  /-- The bytes of the instruction, an extended opcode's first byte included. -/
  length : Nat
  /-- The cycles taken when every condition holds. -/
  cycles : Nat
  /-- The cycles taken when the condition does not hold. -/
  skippedCycles : Nat := cycles
  flow : Flow := .next

namespace Opcode

/-- Whether a basic block ends with this instruction. -/
def endsBlock (opcode : Opcode) : Bool := opcode.flow != .next

def isConditional (opcode : Opcode) : Bool := opcode.cycles != opcode.skippedCycles

/-- All that is declared about the opcode, as one line of text. -/
def summary (opcode : Opcode) : String :=
  "Opcode \x7b mnemonic: \"" ++ opcode.mnemonic ++ s!"\", length: {opcode.length}" ++
    s!", cycles: {opcode.cycles}, skipped_cycles: {opcode.skippedCycles}" ++
    s!", flow: {opcode.flow.name} \x7d"

end Opcode

end Sm83

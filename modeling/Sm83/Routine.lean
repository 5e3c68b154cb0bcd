import Sm83.Block.Decode

/-!
# Compiled blocks

A routine is a block with its decoding done once: the list of operations to perform, each after
fetching its opcode. Opcodes are still fetched, so that the program counter and the clock move as
they do when the machine takes its steps one by one, but what they are is not looked at again. A
block that overwrites its own opcodes while it runs goes on with the operations it was compiled to.
-/

namespace Sm83

structure Routine.Step where
  operation : Operation
  prefixed : Bool

structure Routine where
  steps : List Routine.Step

namespace Routine

/-- Fetches the opcode with its prefix, if it has one, and performs the operation. -/
def Step.execute (step : Step) (machine : Machine) : Machine :=
  let first := machine.fetchByte.machine
  let fetched := if step.prefixed then first.fetchByte.machine else first
  step.operation.execute fetched

/-- Performs all operations in order, from wherever the program counter is. -/
def execute (routine : Routine) (machine : Machine) : Machine :=
  routine.steps.foldl (fun machine step => step.execute machine) machine

end Routine

def Decoded.compile (decoded : Decoded) : Routine.Step :=
  { operation := decoded.opcode.operation, prefixed := decoded.prefixed }

def Block.compile (block : Block) : Routine := { steps := block.instructions.map Decoded.compile }

end Sm83

import Sm83.Opcode.Table

/-!
# One step of the machine

A step fetches an opcode, looks it up and executes it; an extended opcode is executed as a whole. A
step ignores whether the processor is stopped or halted: looking at `Machine.exit?` first is the
business of whoever runs the machine.
-/

namespace Sm83

/-- Why a run came to its end. -/
inductive Exit where
  | stopped
  | halted
  | outOfCycles
  deriving DecidableEq

def Exit.name : Exit → String
  | .stopped => "Stopped"
  | .halted => "Halted"
  | .outOfCycles => "OutOfCycles"

namespace Machine

def step (machine : Machine) : Machine :=
  let first := machine.fetchByte
  (Opcode.base first.value).operation.execute first.machine

/-- The machine after `count` steps. -/
def stepN (machine : Machine) : Nat → Machine
  | 0 => machine
  | count + 1 => machine.step.stepN count

/-- The machine cycles that the next step takes. -/
def stepCycles (machine : Machine) : Nat := machine.step.clock - machine.clock

/-- Why a run cannot go on, being stopped counting before being halted. -/
def exit? (machine : Machine) : Option Exit :=
  if machine.cpu.stopped then some .stopped
  else if machine.cpu.halted then some .halted
  else none

end Machine

end Sm83

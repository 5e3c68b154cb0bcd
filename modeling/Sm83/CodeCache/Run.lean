import Sm83.CodeCache
import Sm83.Machine.Run

/-!
# Running compiled code

Runs that go from block to block instead of from instruction to instruction, looking the block at
the program counter up in the cache each time. A block runs to its end, so a budget may be overspent
by part of a block. Both runs are given the number of blocks they may enter; for a run with a budget
of cycles the budget itself is enough, since a block takes at least one cycle.
-/

namespace Sm83

namespace CodeCache

/-- How a run ended, with the machine and the cache at its end. -/
structure Ended where
  result : Except BlockError Exit
  machine : Machine
  cache : CodeCache

/-- Runs until the processor stops or halts, if no more than `fuel` blocks are entered. -/
def runWithin (fuel : Nat) (cache : CodeCache) (machine : Machine) : Option Ended :=
  match machine.exit? with
  | some exit => some ⟨.ok exit, machine, cache⟩
  | none =>
    match fuel with
    | 0 => none
    | fuel + 1 =>
      match cache.lookup machine with
      | ⟨.error error, cache⟩ => some ⟨.error error, machine, cache⟩
      | ⟨.ok routine, cache⟩ => runWithin fuel cache (routine.execute machine)

/-- Runs until the processor stops or halts or the clock reaches `deadline`, if no more than `fuel`
blocks are entered. -/
def runUntilWithin (deadline fuel : Nat) (cache : CodeCache) (machine : Machine) : Option Ended :=
  match machine.exit? with
  | some exit => some ⟨.ok exit, machine, cache⟩
  | none =>
    if deadline ≤ machine.clock then some ⟨.ok .outOfCycles, machine, cache⟩
    else
      match fuel with
      | 0 => none
      | fuel + 1 =>
        match cache.lookup machine with
        | ⟨.error error, cache⟩ => some ⟨.error error, machine, cache⟩
        | ⟨.ok routine, cache⟩ => runUntilWithin deadline fuel cache (routine.execute machine)

/-- Runs for at least `budget` cycles, or until the processor stops or halts. -/
def runFor (budget : Nat) (cache : CodeCache) (machine : Machine) : Option Ended :=
  cache.runUntilWithin (machine.deadline budget) budget machine

end CodeCache

end Sm83

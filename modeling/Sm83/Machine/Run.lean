import Sm83.Machine.Progress

/-!
# Runs of the machine

A run repeats steps until the processor stops or halts, or until a budget of machine cycles is
spent. Steps are never cut short, so a run may overspend its budget by part of its last step. A run
with a budget always ends, the distance to its deadline shrinking with every step; one without a
budget may go on for ever and is therefore given the number of steps it may take.
-/

namespace Sm83

namespace Machine

/-- Why a run ended, and the machine at its end. -/
structure Ended where
  exit : Exit
  machine : Machine

/-- Runs until the processor stops or halts, if that takes no more than `fuel` steps. -/
def runWithin (fuel : Nat) (machine : Machine) : Option Ended :=
  match machine.exit? with
  | some exit => some ⟨exit, machine⟩
  | none =>
    match fuel with
    | 0 => none
    | fuel + 1 => machine.step.runWithin fuel

/-- Runs until the processor stops or halts or the clock reaches `deadline`. -/
def runUntil (deadline : Nat) (machine : Machine) : Ended :=
  match machine.exit? with
  | some exit => ⟨exit, machine⟩
  | none =>
    if deadline ≤ machine.clock then ⟨.outOfCycles, machine⟩ else machine.step.runUntil deadline
termination_by deadline - machine.clock
decreasing_by
  have hprogress := machine.clock_lt_clock_step
  omega

/-- When a run with a budget of cycles ends. No deadline lies past what 64 bits can count. -/
def deadline (machine : Machine) (budget : Nat) : Nat :=
  min (machine.clock + budget) 0xFFFFFFFFFFFFFFFF

/-- Runs for at least `budget` cycles, or until the processor stops or halts. -/
def runFor (budget : Nat) (machine : Machine) : Ended := machine.runUntil (machine.deadline budget)

end Machine

end Sm83

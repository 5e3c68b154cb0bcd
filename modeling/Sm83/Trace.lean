import Sm83.CodeCache.Run
import Sm83.Event

/-!
# Traces

The events that go with each operation, computed from the states it passes through. Execution itself
is silent: an operation and its events are separate functions of the same state, and the events of a
run are those of its steps, one after the other, followed by those of its end.
-/

namespace Sm83

/-- The events of an instruction that leads to `after`. By the opcode they are told in
`Machine.stepEvents_eq_of_lead`. -/
def Instruction.events (instruction : Instruction) (after : Machine) : List Event :=
  match instruction with
  | .stop => [.stopped (after.word .pc) after.clock]
  | .halt => [.halted (after.word .pc) after.clock]
  | .undefined =>
    let address := after.word .pc - 1
    [.undefinedOpcode (after.memory.get address) address]
  | _ => []

theorem Instruction.events_eq_nil_iff {instruction : Instruction} {after : Machine} :
    instruction.events after = [] ↔
      instruction ≠ .stop ∧ instruction ≠ .halt ∧ instruction ≠ .undefined := by
  cases instruction <;> simp [events]

/-- The events of an operation that leads to `after`. Extended instructions have none. -/
def Operation.events (operation : Operation) (after : Machine) : List Event :=
  match operation with
  | .instruction single => single.events after
  | .extend => []

def Memory.loadEvents (image : List Byte) : List Event :=
  let length := min image.length addressSpaceSize
  [.loadedImage length (image.length - length)]

/-- A load that failed has no event. -/
def Memory.Loaded.events (loaded : Memory.Loaded) : List Event :=
  match loaded.result with
  | .ok length => [.loadedStream length]
  | .error _ => []

namespace Machine

/-- The events of the next step. -/
def stepEvents (machine : Machine) : List Event :=
  (Opcode.base (machine.memory.get (machine.word .pc))).operation.events machine.step

/-- The events of `runWithin`, appended to `log`. -/
def runEvents (fuel : Nat) (machine : Machine) (log : Array Event) : Array Event :=
  match machine.exit?, fuel with
  | none, fuel + 1 => machine.step.runEvents fuel (log ++ machine.stepEvents)
  | _, _ => log

/-- The events of `runUntil`, appended to `log`. -/
def runUntilEvents (deadline : Nat) (machine : Machine) (log : Array Event) : Array Event :=
  match machine.exit? with
  | some _ => log
  | none =>
    if deadline ≤ machine.clock then log.push (.budgetSpent machine.clock)
    else machine.step.runUntilEvents deadline (log ++ machine.stepEvents)
termination_by deadline - machine.clock
decreasing_by
  have hprogress := machine.clock_lt_clock_step
  omega

end Machine

/-- The events of a routine. -/
def Routine.events (routine : Routine) (machine : Machine) (log : Array Event) : Array Event :=
  (routine.steps.foldl
    (fun (machine, log) step =>
      let after := step.execute machine
      (after, log ++ step.operation.events after))
    (machine, log)).2

def Block.compiledEvent (block : Block) : Event :=
  .compiledBlock block.start block.instructions.length block.bytes.length

namespace CodeCache

/-- The events of `compile`. -/
def compileEvents (cache : CodeCache) (start : Word) (bytes : List Byte) : List Event :=
  match (cache.get? start).filter (·.block.bytes == bytes), Block.decode start bytes with
  | none, .ok block => [block.compiledEvent]
  | _, _ => []

/-- The events of `lookup`. -/
def lookupEvents (cache : CodeCache) (machine : Machine) : List Event :=
  let start := machine.word .pc
  let compiled :=
    match Block.discover machine.memory start with
    | .ok block => [block.compiledEvent]
    | .error _ => []
  match cache.get? start with
  | none => compiled
  | some cached =>
    if machine.memory.holds start cached.block.bytes then [] else .blockChanged start :: compiled

/-- The events of `invalidate`, which has none where there was no block. -/
def invalidateEvents (cache : CodeCache) (start : Word) : List Event :=
  if (cache.invalidate start).1 then [.invalidatedBlock start] else []

/-- The events of `invalidateRange`. -/
def invalidateRangeEvents (cache : CodeCache) (first last : Word) : List Event :=
  [.invalidatedRange first last (cache.invalidateRange first last).1]

/-- The events of `runWithin`, appended to `log`. -/
def runEvents (fuel : Nat) (cache : CodeCache) (machine : Machine) (log : Array Event) :
    Array Event :=
  match machine.exit?, fuel with
  | some exit, _ => log.push (.leftCompiledCode exit machine.clock)
  | none, 0 => log
  | none, fuel + 1 =>
    let log := log ++ cache.lookupEvents machine
    match cache.lookup machine with
    | ⟨.error _, _⟩ => log
    | ⟨.ok routine, cache⟩ =>
      runEvents fuel cache (routine.execute machine) (routine.events machine log)

/-- The events of `runUntilWithin`, appended to `log`. -/
def runUntilEvents (deadline fuel : Nat) (cache : CodeCache) (machine : Machine)
    (log : Array Event) : Array Event :=
  match machine.exit?, fuel with
  | none, fuel + 1 =>
    if deadline ≤ machine.clock then log
    else
      let log := log ++ cache.lookupEvents machine
      match cache.lookup machine with
      | ⟨.error _, _⟩ => log
      | ⟨.ok routine, cache⟩ =>
        runUntilEvents deadline fuel cache (routine.execute machine)
          (routine.events machine log)
  | _, _ => log

end CodeCache

end Sm83

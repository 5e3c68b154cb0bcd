import Sm83.Machine.Run
import Sm83.Proofs.Memory
import Sm83.Proofs.Opcode

/-!
# What a step costs

A step fetches the opcode at the program counter, prefix and all, and executes the instruction that
the tables have for it (`Machine.step_eq_execute`). From this and the comparison of the tables with
the instructions comes the cost of a step in any state: the declared cycles, the declared length
unless the step jumps, and control bits that only six first bytes change.
-/

namespace Sm83

namespace Opcode.Describes

variable {opcode : Opcode} {fetched : Nat} {single : Instruction}

/-- The cycles that an opcode declares, skipped or not, are those its instruction takes. -/
theorem declared_cycles (hdescribes : opcode.Describes fetched single) (machine : Machine) :
    (if opcode.isConditional && !machine.satisfies opcode.condition then opcode.skippedCycles
      else opcode.cycles) = fetched + single.cycles (machine.satisfies single.condition) := by
  have hcondition : opcode.condition = single.condition := by
    rw [condition, hdescribes.operation]
  rw [hcondition]
  cases hholds : machine.satisfies single.condition with
  | true => simp [hdescribes.cycles]
  | false =>
    have halways : single.condition ≠ .always := by
      intro heq
      rw [heq] at hholds
      cases hholds
    have hdepends : opcode.isConditional = true := by
      rw [hdescribes.isConditional, decide_eq_true halways]
    simp [hdepends, hdescribes.skippedCycles hdepends]

theorem declared_cycles_le (hdescribes : opcode.Describes fetched single) (machine : Machine) :
    (if opcode.isConditional && !machine.satisfies opcode.condition then opcode.skippedCycles
      else opcode.cycles) ≤ opcode.cycles := by
  rw [hdescribes.declared_cycles, hdescribes.cycles]
  exact Nat.add_le_add_left (single.cycles_le_cycles_true _) _

/-- Only an opcode declared as a jump makes its instruction jump, and only if its condition holds. -/
theorem jumps_eq_false (hdescribes : opcode.Describes fetched single) {machine : Machine}
    (hstays : opcode.flow ≠ .jump ∨
      (opcode.isConditional && !machine.satisfies opcode.condition) = true) :
    single.jumps machine = false := by
  rw [Instruction.jumps]
  rcases hstays with hflow | hskips
  · have hnot : single.transfers = false := by
      rw [hdescribes.flow] at hflow
      cases single <;> first | rfl | exact absurd rfl hflow
    rw [hnot, Bool.false_and]
  · rw [condition, hdescribes.operation] at hskips
    have hholds := (Bool.and_eq_true_iff.mp hskips).2
    rw [Bool.not_eq_true'] at hholds
    rw [hholds, Bool.and_false]

/-- Only jumps depend on a condition. -/
theorem isConditional_eq_false (hdescribes : opcode.Describes fetched single)
    (hflow : opcode.flow ≠ .jump) : opcode.isConditional = false := by
  rw [hdescribes.flow] at hflow
  rw [hdescribes.isConditional]
  cases single <;> first | rfl | exact absurd rfl hflow

end Opcode.Describes

namespace Machine

/-- The byte at the program counter. -/
def lead (machine : Machine) : Byte := machine.memory.get (machine.word .pc)

/-- The byte after the one at the program counter. -/
def second (machine : Machine) : Byte := machine.memory.get (machine.word .pc + 1)

/-- The word after the byte at the program counter. -/
def following (machine : Machine) : Word := machine.memory.word (machine.word .pc + 1)

/-- The opcode that the next step executes. -/
def nextOpcode (machine : Machine) : Opcode :=
  Opcode.inMemory machine.memory (machine.word .pc)

/-- Whether the next step's instruction depends on a condition that does not hold. -/
def skips (machine : Machine) : Bool :=
  machine.nextOpcode.isConditional && !machine.satisfies machine.nextOpcode.condition

/-- The machine after its next opcode has been fetched, with the prefix if it has one. -/
def fetchOpcode (machine : Machine) : Machine :=
  if machine.lead = Opcode.extensionPrefix then machine.fetchByte.machine.fetchByte.machine
  else machine.fetchByte.machine

theorem advances_fetchOpcode (machine : Machine) :
    machine.Advances machine.fetchOpcode (Opcode.leadBytes machine.lead)
      (Opcode.leadBytes machine.lead) := by
  rw [fetchOpcode, Opcode.leadBytes]
  split
  · exact machine.advances_fetchByte.trans machine.fetchByte.machine.advances_fetchByte
  · exact machine.advances_fetchByte

theorem satisfies_fetchOpcode (machine : Machine) (condition : Condition) :
    machine.fetchOpcode.satisfies condition = machine.satisfies condition := by
  rw [fetchOpcode]
  split <;> rfl

theorem step_eq_execute (machine : Machine) :
    machine.step = machine.nextOpcode.operation.execute machine.fetchOpcode := by
  change (Opcode.base machine.lead).operation.execute machine.fetchByte.machine = _
  by_cases hlead : machine.lead = Opcode.extensionPrefix
  · have hbase : (Opcode.base machine.lead).operation = .extend := by
      rw [hlead, Opcode.base_eq_describeBase]
      rfl
    have hnext : machine.nextOpcode.operation =
        .instruction (.ofExtended machine.fetchByte.machine.fetchByte.value) := by
      have hmemory : machine.memory.get (machine.word .pc) = Opcode.extensionPrefix := hlead
      rw [nextOpcode, Opcode.inMemory, if_pos hmemory, Opcode.extended_eq_describeExtended]
      rfl
    rw [hbase, hnext, fetchOpcode, if_pos hlead]
    rfl
  · have hmemory : machine.memory.get (machine.word .pc) ≠ Opcode.extensionPrefix := hlead
    rw [nextOpcode, Opcode.inMemory, if_neg hmemory, fetchOpcode, if_neg hlead]
    rfl

/-- A step whose opcode is a single byte. -/
theorem step_of_operation_eq {machine : Machine} {single : Instruction}
    (hoperation : (Opcode.base machine.lead).operation = .instruction single) :
    machine.step = single.execute machine.fetchByte.machine := by
  change (Opcode.base machine.lead).operation.execute machine.fetchByte.machine = _
  rw [hoperation]
  rfl

/-- The instruction that the next step executes, and all that its opcode declares about it. -/
theorem exists_step_eq (machine : Machine) :
    ∃ single, machine.nextOpcode.Describes (Opcode.leadBytes machine.lead) single ∧
      machine.step = single.execute machine.fetchOpcode := by
  obtain ⟨single, hdescribes⟩ :=
    Opcode.exists_describes_inMemory machine.memory (machine.word .pc)
  refine ⟨single, hdescribes, ?_⟩
  have hoperation : machine.nextOpcode.operation = .instruction single := hdescribes.operation
  rw [step_eq_execute, hoperation]
  rfl

theorem clock_step (machine : Machine) :
    machine.step.clock = machine.clock +
      if machine.skips then machine.nextOpcode.skippedCycles else machine.nextOpcode.cycles := by
  obtain ⟨single, hdescribes, hstep⟩ := machine.exists_step_eq
  rw [skips, hdescribes.declared_cycles, hstep, Instruction.clock_execute hdescribes.isPlain,
    satisfies_fetchOpcode, machine.advances_fetchOpcode.clock, Nat.add_assoc]

/-- No instruction takes more than six cycles. -/
theorem clock_step_le (machine : Machine) : machine.step.clock ≤ machine.clock + 6 := by
  obtain ⟨single, hdescribes, -⟩ := machine.exists_step_eq
  have hdeclared := hdescribes.declared_cycles_le machine
  have hcycles := Opcode.cycles_inMemory_le machine.memory (machine.word .pc)
  rw [clock_step, skips]
  exact Nat.add_le_add_left (Nat.le_trans hdeclared hcycles) _

theorem pc_step {machine : Machine}
    (hstays : machine.nextOpcode.flow ≠ .jump ∨ machine.skips = true) :
    machine.step.word .pc =
      machine.word .pc + BitVec.ofNat 16 machine.nextOpcode.length := by
  obtain ⟨single, hdescribes, hstep⟩ := machine.exists_step_eq
  have hjumps : single.jumps machine.fetchOpcode = false := by
    apply hdescribes.jumps_eq_false
    rw [satisfies_fetchOpcode]
    exact hstays
  have hexecute := Instruction.advances_execute hdescribes.isPlain hjumps
  rw [hstep, (machine.advances_fetchOpcode.trans hexecute).pc, hdescribes.length]

theorem control_step (machine : Machine) :
    machine.step.control = Opcode.controlAfter machine.lead machine.control := by
  change ((Opcode.base machine.lead).operation.execute machine.fetchByte.machine).control = _
  rw [Operation.control_execute, Opcode.control_base]
  rfl

theorem step_of_undefined {machine : Machine} (hlead : machine.lead ∈ Opcode.undefinedBytes) :
    machine.step = machine.tick.setWord .pc (machine.word .pc + 1) :=
  step_of_operation_eq (Opcode.operation_base_of_mem hlead)

/-- The tables are exact in every state. -/
theorem step_matches_declaration (machine : Machine) :
    machine.stepCycles =
        (if machine.skips then machine.nextOpcode.skippedCycles else machine.nextOpcode.cycles) ∧
      machine.step.clock = machine.clock + machine.stepCycles ∧
      (machine.nextOpcode.flow ≠ .jump ∨ machine.skips = true →
        machine.step.word .pc =
          machine.word .pc + BitVec.ofNat 16 machine.nextOpcode.length) ∧
      machine.step.cpu.stopped = (machine.cpu.stopped || machine.lead == 0x10) ∧
      machine.step.cpu.halted = (machine.cpu.halted || machine.lead == 0x76) ∧
      (machine.nextOpcode.flow = .halt ↔ machine.lead = 0x10 ∨ machine.lead = 0x76) ∧
      machine.step.cpu.interrupts =
        (machine.lead != 0xF3 &&
          (machine.cpu.interrupts || machine.lead == 0xFB || machine.lead == 0xD9)) ∧
      (machine.lead ∈ Opcode.undefinedBytes →
        machine.step = machine.tick.setWord .pc (machine.word .pc + 1)) := by
  have hclock := machine.clock_step
  have hcontrol := machine.control_step
  simp only [control, Opcode.controlAfter, Control.mk.injEq] at hcontrol
  obtain ⟨hstopped, hhalted, hinterrupts⟩ := hcontrol
  refine ⟨?_, ?_, pc_step, hstopped, hhalted, Opcode.flow_inMemory_eq_halt_iff _ _, hinterrupts,
    step_of_undefined⟩
  · rw [stepCycles, hclock, Nat.add_sub_cancel_left]
  · rw [stepCycles, hclock, Nat.add_sub_cancel_left]

end Machine

end Sm83

import Sm83.Machine.Step

/-!
# The clock moves forward

Nothing an instruction does turns the clock back, and fetching an opcode moves it, so every step
takes at least one cycle. This is what makes a run with a budget of cycles end.
-/

namespace Sm83

namespace Machine

variable {width : Nat}

@[simp] theorem clock_mapRegisters (change : Registers → Registers) (machine : Machine) :
    (machine.mapRegisters change).clock = machine.clock := rfl

@[simp] theorem clock_setByte (machine : Machine) (name : ByteRegister) (value : Byte) :
    (machine.setByte name value).clock = machine.clock := rfl

@[simp] theorem clock_setWord (machine : Machine) (name : WordRegister) (value : Word) :
    (machine.setWord name value).clock = machine.clock := rfl

@[simp] theorem clock_setFlags (machine : Machine) (flags : Flags) :
    (machine.setFlags flags).clock = machine.clock := rfl

@[simp] theorem clock_setFlag (machine : Machine) (flag : Flag) (value : Bool) :
    (machine.setFlag flag value).clock = machine.clock := rfl

@[simp] theorem clock_tick (machine : Machine) : machine.tick.clock = machine.clock + 1 := rfl

@[simp] theorem clock_readByte (machine : Machine) (address : Word) :
    (machine.readByte address).machine.clock = machine.clock + 1 := rfl

@[simp] theorem clock_readWord (machine : Machine) (address : Word) :
    (machine.readWord address).machine.clock = machine.clock + 2 := rfl

@[simp] theorem clock_writeByte (machine : Machine) (address : Word) (value : Byte) :
    (machine.writeByte address value).clock = machine.clock + 1 := rfl

@[simp] theorem clock_writeWord (machine : Machine) (address value : Word) :
    (machine.writeWord address value).clock = machine.clock + 2 := rfl

@[simp] theorem clock_fetchByte (machine : Machine) :
    machine.fetchByte.machine.clock = machine.clock + 1 := rfl

@[simp] theorem clock_fetchWord (machine : Machine) :
    machine.fetchWord.machine.clock = machine.clock + 2 := rfl

@[simp] theorem clock_mapCpu_stop (machine : Machine) :
    (machine.mapCpu Cpu.stop).clock = machine.clock := rfl

@[simp] theorem clock_mapCpu_halt (machine : Machine) :
    (machine.mapCpu Cpu.halt).clock = machine.clock := rfl

@[simp] theorem clock_mapCpu_enableInterrupts (machine : Machine) :
    (machine.mapCpu Cpu.enableInterrupts).clock = machine.clock := rfl

@[simp] theorem clock_mapCpu_disableInterrupts (machine : Machine) :
    (machine.mapCpu Cpu.disableInterrupts).clock = machine.clock := rfl

end Machine

@[simp] theorem Base.clock_advance (base : Base) (step : Word) (machine : Machine) :
    (base.advance step machine).clock = machine.clock := by
  cases base <;> rfl

@[simp] theorem Pointer.clock_advance (pointer : Pointer) (machine : Machine) :
    (pointer.advance machine).clock = machine.clock := by
  rw [advance]
  split
  · rfl
  · exact pointer.base.clock_advance _ _

/-- The cycles that finding the address takes. -/
def Base.addressCycles : Base → Nat
  | .nextByte => 1
  | .nextWord => 2
  | .byteRegister _ | .wordRegister _ | .byteConstant _ | .wordConstant _ => 0

@[simp] theorem Base.clock_address (base : Base) (machine : Machine) :
    (base.address machine).machine.clock = machine.clock + base.addressCycles := by
  cases base <;> rfl

/-- The cycles that reading the operand takes. -/
def Operand.readCycles {width : Nat} : Operand width → Nat
  | .byteRegister _ | .wordRegister _ | .constant _ => 0
  | .nextByte => 1
  | .nextWord => 2
  | .byteAt pointer => pointer.base.addressCycles + 1
  | .wordAt pointer => pointer.base.addressCycles + 2
  | .readOnly inner => inner.readCycles

namespace Operand

variable {width : Nat}

@[simp] theorem clock_read (operand : Operand width) (machine : Machine) :
    (operand.read machine).machine.clock = machine.clock + operand.readCycles := by
  induction operand with
  | byteAt pointer | wordAt pointer =>
    simp [read, Pointer.readByte, Pointer.readWord, Pointer.address, readCycles, Nat.add_assoc]
  | readOnly inner ih => exact ih
  | _ => rfl

theorem clock_le_clock_write (operand : Operand width) (value : BitVec width) (machine : Machine) :
    machine.clock ≤ (operand.write value machine).clock := by
  cases operand with
  | byteAt pointer | wordAt pointer =>
    simp [write, Pointer.writeByte, Pointer.writeWord, Pointer.address]
    omega
  | _ => exact Nat.le_refl _

end Operand

namespace Machine

variable {width : Nat}

theorem clock_le_clock_ld (target source : Operand width) (machine : Machine) :
    machine.clock ≤ (machine.ld target source).clock := by
  have hwrite := target.clock_le_clock_write (source.read machine).value (source.read machine).machine
  rw [source.clock_read] at hwrite
  exact Nat.le_trans (Nat.le_add_right _ _) hwrite

theorem clock_le_clock_binary (operation : Binary) (target source : Operand width)
    (machine : Machine) : machine.clock ≤ (machine.binary operation target source).clock := by
  refine Nat.le_trans ?_ (target.clock_le_clock_write _ _)
  simp only [clock_setFlags, Operand.clock_read]
  omega

theorem clock_le_clock_modify (operation : Byte → Outcome 8) (target : Operand 8)
    (machine : Machine) : machine.clock ≤ (machine.modify operation target).clock := by
  refine Nat.le_trans ?_ (target.clock_le_clock_write _ _)
  simp only [clock_setFlags, Operand.clock_read]
  omega

@[simp] theorem clock_push (source : Operand 16) (machine : Machine) :
    (machine.push source).clock = machine.clock + source.readCycles + 3 := by
  simp [push, Pointer.writeWord, Pointer.address, Pointer.push, Base.addressCycles]

theorem clock_le_clock_pop (target : Operand 16) (machine : Machine) :
    machine.clock ≤ (machine.pop target).clock := by
  refine Nat.le_trans ?_ (target.clock_le_clock_write _ _)
  simp [Pointer.readWord, Pointer.address]
  omega

theorem clock_le_clock_ret (condition : Condition) (machine : Machine) :
    machine.clock ≤ (machine.ret condition).clock := by
  have hdecided : machine.clock ≤ (if condition = .always then machine else machine.tick).clock := by
    split
    · exact Nat.le_refl _
    · exact Nat.le_succ _
  simp only [ret]
  generalize (if condition = .always then machine else machine.tick) = decided at hdecided ⊢
  split
  · exact Nat.le_trans hdecided (Nat.le_succ_of_le (clock_le_clock_pop _ _))
  · exact hdecided

end Machine

theorem Instruction.clock_le_clock_execute (instruction : Instruction) (machine : Machine) :
    machine.clock ≤ (instruction.execute machine).clock := by
  cases instruction with
  | ld target source => exact machine.clock_le_clock_ld target source
  | binary operation target source => exact machine.clock_le_clock_binary operation target source
  | inc target =>
    rw [execute, Machine.inc, Machine.clock_setFlag]
    exact machine.clock_le_clock_modify _ target
  | dec target =>
    rw [execute, Machine.dec, Machine.clock_setFlag]
    exact machine.clock_le_clock_modify _ target
  | shift kind target zeroFlag => exact machine.clock_le_clock_modify _ target
  | swap target => exact machine.clock_le_clock_modify _ target
  | bit index source =>
    simp [execute, Machine.bit]
  | set index target | res index target =>
    refine Nat.le_trans ?_ (target.clock_le_clock_write _ _)
    rw [Operand.clock_read]
    omega
  | incWord target | decWord target =>
    refine Nat.le_trans ?_ (target.clock_le_clock_write _ _)
    rw [Machine.clock_tick, Operand.clock_read]
    omega
  | addToHl source =>
    rw [execute, Machine.addToHl, Machine.clock_setFlag, Machine.clock_tick]
    exact Nat.le_succ_of_le (machine.clock_le_clock_binary .add _ source)
  | ldSpHl =>
    rw [execute, Machine.ldSpHl, Machine.clock_tick]
    exact Nat.le_succ_of_le (machine.clock_le_clock_ld _ _)
  | push source =>
    simp only [execute, Machine.clock_push]
    omega
  | pop target => exact machine.clock_le_clock_pop target
  | jp condition target =>
    simp only [execute, Machine.jp]
    split
    · rw [Machine.clock_setWord, Machine.clock_tick, Operand.clock_read]
      omega
    · rw [Operand.clock_read]
      omega
  | jr condition =>
    simp only [execute, Machine.jr]
    split
    · rw [Machine.clock_setWord, Machine.clock_tick, Machine.clock_fetchByte]
      omega
    · rw [Machine.clock_fetchByte]
      omega
  | call condition =>
    simp only [execute, Machine.call]
    split
    · rw [Machine.clock_setWord, Machine.clock_push, Machine.clock_fetchWord]
      omega
    · rw [Machine.clock_fetchWord]
      omega
  | ret condition => exact machine.clock_le_clock_ret condition
  | reti => exact machine.clock_le_clock_ret .always
  | rst target =>
    simp only [execute, Machine.rst, Machine.clock_setWord, Operand.clock_read, Machine.clock_push]
    omega
  | addToSp =>
    simp only [execute, Machine.addToSp, Machine.offsetSp, Machine.clock_setWord, Machine.clock_tick,
      Machine.clock_setFlags, Machine.clock_fetchByte]
    omega
  | ldHlSpOffset =>
    simp only [execute, Machine.ldHlSpOffset, Machine.offsetSp, Machine.clock_setWord,
      Machine.clock_tick, Machine.clock_setFlags, Machine.clock_fetchByte]
    omega
  | stop => simp [execute, Machine.stop]
  | _ => exact Nat.le_refl _

theorem Operation.clock_le_clock_execute (operation : Operation) (machine : Machine) :
    machine.clock ≤ (operation.execute machine).clock := by
  cases operation with
  | instruction single => exact single.clock_le_clock_execute machine
  | extend =>
    exact Nat.le_trans (Nat.le_succ _) (Instruction.clock_le_clock_execute _ machine.fetchByte.machine)

namespace Machine

theorem clock_lt_clock_step (machine : Machine) : machine.clock < machine.step.clock := by
  have hexecute := Operation.clock_le_clock_execute
    (Opcode.base machine.fetchByte.value).operation machine.fetchByte.machine
  rw [clock_fetchByte] at hexecute
  simp only [step]
  omega

end Machine

end Sm83

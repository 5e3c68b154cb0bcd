import Sm83.Machine.Progress

/-!
# What an operand access costs

Reading or writing an operand takes a number of cycles and fetches a number of bytes that the
operand alone determines. `Machine.Advances` states both at once, and such statements compose, which
is how the cost of an instruction is put together from its accesses.

An operand is plain when reaching it leaves the flags alone and moves the program counter only past
the bytes that are fetched. Every operand that an opcode names is plain. The control bits need no
such care: no access touches them. Memory changes only where a pointer leads that is written through.
-/

namespace Sm83

namespace Machine

/-- `after` is `cycles` later than `before`, with the program counter `bytes` further on. -/
structure Advances (before after : Machine) (cycles bytes : Nat) : Prop where
  clock : after.clock = before.clock + cycles
  pc : after.word .pc = before.word .pc + BitVec.ofNat 16 bytes

/-- The bits that decide whether the processor goes on and whether it can be interrupted. -/
structure Control where
  stopped : Bool
  halted : Bool
  interrupts : Bool
  deriving DecidableEq

def control (machine : Machine) : Control :=
  { stopped := machine.cpu.stopped, halted := machine.cpu.halted,
    interrupts := machine.cpu.interrupts }

@[simp] theorem word_pc_setByte (machine : Machine) (name : ByteRegister) (value : Byte) :
    (machine.setByte name value).word .pc = machine.word .pc := by
  cases name <;> rfl

theorem word_pc_setWord {name : WordRegister} (hname : name ≠ .pc) (machine : Machine)
    (value : Word) : (machine.setWord name value).word .pc = machine.word .pc := by
  cases name <;> first | rfl | exact absurd rfl hname

@[simp] theorem word_pc_setWord_self (machine : Machine) (value : Word) :
    (machine.setWord .pc value).word .pc = value := rfl

namespace Advances

variable {first second third : Machine} {cycles cycles' bytes bytes' : Nat}

theorem refl (machine : Machine) : machine.Advances machine 0 0 where
  clock := rfl
  pc := by simp

theorem trans (before : first.Advances second cycles bytes)
    (after : second.Advances third cycles' bytes') :
    first.Advances third (cycles + cycles') (bytes + bytes') where
  clock := by rw [after.clock, before.clock, Nat.add_assoc]
  pc := by rw [after.pc, before.pc, BitVec.ofNat_add, BitVec.add_assoc]

/-- Steps that fetch nothing and keep the program counter. -/
theorem of_pc_eq (hclock : second.clock = first.clock + cycles)
    (hpc : second.word .pc = first.word .pc) : first.Advances second cycles 0 where
  clock := hclock
  pc := by rw [hpc]; simp

theorem cast (advances : first.Advances second cycles bytes) (hcycles : cycles = cycles')
    (hbytes : bytes = bytes') : first.Advances second cycles' bytes' := by
  rw [← hcycles, ← hbytes]
  exact advances

end Advances

theorem advances_tick (machine : Machine) : machine.Advances machine.tick 1 0 :=
  .of_pc_eq rfl rfl

theorem advances_setFlags (machine : Machine) (flags : Flags) :
    machine.Advances (machine.setFlags flags) 0 0 :=
  .of_pc_eq rfl rfl

theorem advances_setFlag (machine : Machine) (flag : Flag) (value : Bool) :
    machine.Advances (machine.setFlag flag value) 0 0 :=
  .of_pc_eq rfl rfl

theorem advances_setByte (machine : Machine) (name : ByteRegister) (value : Byte) :
    machine.Advances (machine.setByte name value) 0 0 :=
  .of_pc_eq rfl (machine.word_pc_setByte name value)

theorem advances_setWord {name : WordRegister} (hname : name ≠ .pc) (machine : Machine)
    (value : Word) : machine.Advances (machine.setWord name value) 0 0 :=
  .of_pc_eq rfl (word_pc_setWord hname machine value)

theorem advances_readByte (machine : Machine) (address : Word) :
    machine.Advances (machine.readByte address).machine 1 0 :=
  .of_pc_eq rfl rfl

theorem advances_readWord (machine : Machine) (address : Word) :
    machine.Advances (machine.readWord address).machine 2 0 :=
  .of_pc_eq rfl rfl

theorem advances_writeByte (machine : Machine) (address : Word) (value : Byte) :
    machine.Advances (machine.writeByte address value) 1 0 :=
  .of_pc_eq rfl rfl

theorem advances_writeWord (machine : Machine) (address value : Word) :
    machine.Advances (machine.writeWord address value) 2 0 :=
  .of_pc_eq rfl rfl

theorem advances_fetchByte (machine : Machine) :
    machine.Advances machine.fetchByte.machine 1 1 where
  clock := rfl
  pc := rfl

theorem advances_fetchWord (machine : Machine) :
    machine.Advances machine.fetchWord.machine 2 2 where
  clock := rfl
  pc := rfl

end Machine

/-! ### Pointers

The base is evaluated once for each access, and what it fetches takes one cycle a byte. -/

/-- Whether an access through the base leaves the flags and the program counter to the fetches. -/
def Base.isPlain : Base → Bool
  | .byteRegister .f | .wordRegister .af | .wordRegister .pc => false
  | _ => true

theorem Base.advances_address (base : Base) (machine : Machine) :
    machine.Advances (base.address machine).machine base.addressCycles base.addressCycles := by
  cases base with
  | nextByte => exact machine.advances_fetchByte
  | nextWord => exact machine.advances_fetchWord
  | byteRegister name => exact .refl machine
  | wordRegister name => exact .refl machine
  | byteConstant value => exact .refl machine
  | wordConstant value => exact .refl machine

theorem Base.advances_advance {base : Base} (hplain : base.isPlain = true) (step : Word)
    (machine : Machine) : machine.Advances (base.advance step machine) 0 0 := by
  cases base with
  | byteRegister name => exact machine.advances_setByte name _
  | wordRegister name =>
    have hname : name ≠ .pc := by
      rintro rfl
      cases hplain
    exact Machine.advances_setWord hname machine _
  | _ => exact .refl machine

namespace Pointer

variable (pointer : Pointer) (hplain : pointer.base.isPlain = true) (machine : Machine)

include hplain

theorem advances_advance : machine.Advances (pointer.advance machine) 0 0 := by
  rw [advance]
  split
  · exact .refl machine
  · exact Base.advances_advance hplain _ machine

theorem advances_readByte :
    machine.Advances (pointer.readByte machine).machine (pointer.base.addressCycles + 1)
      pointer.base.addressCycles :=
  ((pointer.base.advances_address machine).trans (Machine.advances_readByte _ _)).trans
    (pointer.advances_advance hplain _)

theorem advances_readWord :
    machine.Advances (pointer.readWord machine).machine (pointer.base.addressCycles + 2)
      pointer.base.addressCycles :=
  ((pointer.base.advances_address machine).trans (Machine.advances_readWord _ _)).trans
    (pointer.advances_advance hplain _)

theorem advances_writeByte (value : Byte) :
    machine.Advances (pointer.writeByte value machine) (pointer.base.addressCycles + 1)
      pointer.base.addressCycles :=
  ((pointer.base.advances_address machine).trans (Machine.advances_writeByte _ _ _)).trans
    (pointer.advances_advance hplain _)

theorem advances_writeWord (value : Word) :
    machine.Advances (pointer.writeWord value machine) (pointer.base.addressCycles + 2)
      pointer.base.addressCycles :=
  ((pointer.base.advances_address machine).trans (Machine.advances_writeWord _ _ _)).trans
    (pointer.advances_advance hplain _)

end Pointer

/-! ### Operands -/

namespace Operand

variable {width : Nat}

/-- Whether an access to the operand leaves the program counter, and a read the flags, to the
fetches. -/
def isPlain {width : Nat} : Operand width → Bool
  | .wordRegister .pc => false
  | .byteAt pointer | .wordAt pointer => pointer.base.isPlain
  | .readOnly inner => inner.isPlain
  | _ => true

/-- The bytes that reading the operand fetches. A base takes one cycle for each byte it fetches. -/
def readBytes {width : Nat} : Operand width → Nat
  | .nextByte => 1
  | .nextWord => 2
  | .byteAt pointer | .wordAt pointer => pointer.base.addressCycles
  | .readOnly inner => inner.readBytes
  | _ => 0

/-- The bytes that writing the operand fetches. -/
def writeBytes {width : Nat} : Operand width → Nat
  | .byteAt pointer | .wordAt pointer => pointer.base.addressCycles
  | _ => 0

/-- The cycles that writing the operand takes. -/
def writeCycles {width : Nat} : Operand width → Nat
  | .byteAt pointer => pointer.base.addressCycles + 1
  | .wordAt pointer => pointer.base.addressCycles + 2
  | _ => 0

theorem advances_read {operand : Operand width} (hplain : operand.isPlain = true)
    (machine : Machine) :
    machine.Advances (operand.read machine).machine operand.readCycles operand.readBytes := by
  induction operand with
  | byteRegister name => exact .refl machine
  | wordRegister name => exact .refl machine
  | constant value => exact .refl machine
  | nextByte => exact machine.advances_fetchByte
  | nextWord => exact machine.advances_fetchWord
  | byteAt pointer => exact pointer.advances_readByte hplain machine
  | wordAt pointer => exact pointer.advances_readWord hplain machine
  | readOnly inner ih => exact ih hplain

theorem advances_write {operand : Operand width} (hplain : operand.isPlain = true)
    (value : BitVec width) (machine : Machine) :
    machine.Advances (operand.write value machine) operand.writeCycles operand.writeBytes := by
  cases operand with
  | byteRegister name => exact machine.advances_setByte name value
  | wordRegister name =>
    have hname : name ≠ .pc := by
      rintro rfl
      cases hplain
    exact Machine.advances_setWord hname machine value
  | byteAt pointer => exact pointer.advances_writeByte hplain machine value
  | wordAt pointer => exact pointer.advances_writeWord hplain machine value
  | _ => exact .refl machine

end Operand

/-! ### What an access leaves alone -/

namespace Machine

@[simp] theorem control_tick (machine : Machine) : machine.tick.control = machine.control := rfl

@[simp] theorem control_setByte (machine : Machine) (name : ByteRegister) (value : Byte) :
    (machine.setByte name value).control = machine.control := rfl

@[simp] theorem control_setWord (machine : Machine) (name : WordRegister) (value : Word) :
    (machine.setWord name value).control = machine.control := rfl

@[simp] theorem control_setFlags (machine : Machine) (flags : Flags) :
    (machine.setFlags flags).control = machine.control := rfl

@[simp] theorem control_setFlag (machine : Machine) (flag : Flag) (value : Bool) :
    (machine.setFlag flag value).control = machine.control := rfl

end Machine

@[simp] theorem Base.control_address (base : Base) (machine : Machine) :
    (base.address machine).machine.control = machine.control := by
  cases base <;> rfl

@[simp] theorem Base.control_advance (base : Base) (step : Word) (machine : Machine) :
    (base.advance step machine).control = machine.control := by
  cases base <;> rfl

@[simp] theorem Pointer.control_advance (pointer : Pointer) (machine : Machine) :
    (pointer.advance machine).control = machine.control := by
  rw [advance]
  split
  · rfl
  · exact pointer.base.control_advance _ machine

@[simp] theorem Pointer.control_writeWord (pointer : Pointer) (value : Word) (machine : Machine) :
    (pointer.writeWord value machine).control = machine.control :=
  (pointer.control_advance _).trans (pointer.base.control_address machine)

theorem Base.flags_address (base : Base) (machine : Machine) :
    (base.address machine).machine.flags = machine.flags := by
  cases base <;> rfl

theorem Base.flags_advance {base : Base} (hplain : base.isPlain = true) (step : Word)
    (machine : Machine) : (base.advance step machine).flags = machine.flags := by
  cases base with
  | byteRegister name =>
    have hname : .f ≠ name := by
      rintro rfl
      cases hplain
    exact Registers.flags_setByte_of_ne hname _ _
  | wordRegister name =>
    have hname : .af ≠ name := by
      rintro rfl
      cases hplain
    exact Registers.flags_setWord_of_ne hname _ _
  | _ => rfl

theorem Pointer.flags_advance {pointer : Pointer} (hplain : pointer.base.isPlain = true)
    (machine : Machine) : (pointer.advance machine).flags = machine.flags := by
  rw [advance]
  split
  · rfl
  · exact Base.flags_advance hplain _ machine

namespace Operand

variable {width : Nat}

@[simp] theorem control_read (operand : Operand width) (machine : Machine) :
    (operand.read machine).machine.control = machine.control := by
  induction operand with
  | byteAt pointer | wordAt pointer =>
    exact (pointer.control_advance _).trans (pointer.base.control_address machine)
  | readOnly inner ih => exact ih
  | _ => rfl

@[simp] theorem control_write (operand : Operand width) (value : BitVec width)
    (machine : Machine) : (operand.write value machine).control = machine.control := by
  cases operand with
  | byteAt pointer | wordAt pointer =>
    exact (pointer.control_advance _).trans (pointer.base.control_address machine)
  | _ => rfl

theorem flags_read {operand : Operand width} (hplain : operand.isPlain = true)
    (machine : Machine) : (operand.read machine).machine.flags = machine.flags := by
  induction operand with
  | byteAt pointer | wordAt pointer =>
    exact (Pointer.flags_advance hplain _).trans (pointer.base.flags_address machine)
  | readOnly inner ih => exact ih hplain
  | _ => rfl

theorem satisfies_read {operand : Operand width} (hplain : operand.isPlain = true)
    (machine : Machine) (condition : Condition) :
    (operand.read machine).machine.satisfies condition = machine.satisfies condition := by
  rw [Machine.satisfies, Machine.satisfies, flags_read hplain]

end Operand

/-! ### What an access does to memory -/

@[simp] theorem Base.memory_address (base : Base) (machine : Machine) :
    (base.address machine).machine.memory = machine.memory := by
  cases base <;> rfl

@[simp] theorem Base.memory_advance (base : Base) (step : Word) (machine : Machine) :
    (base.advance step machine).memory = machine.memory := by
  cases base <;> rfl

namespace Pointer

@[simp] theorem memory_advance (pointer : Pointer) (machine : Machine) :
    (pointer.advance machine).memory = machine.memory := by
  rw [advance]
  split
  · rfl
  · exact pointer.base.memory_advance _ machine

theorem memory_writeByte (pointer : Pointer) (value : Byte) (machine : Machine) :
    (pointer.writeByte value machine).memory =
      machine.memory.set (pointer.address machine).value value := by
  rw [writeByte, memory_advance]
  change (pointer.base.address machine).machine.memory.set _ _ = _
  rw [Base.memory_address]

theorem memory_writeWord (pointer : Pointer) (value : Word) (machine : Machine) :
    (pointer.writeWord value machine).memory =
      (machine.memory.set (pointer.address machine).value (Word.low value)).set
        ((pointer.address machine).value + 1) (Word.high value) := by
  rw [writeWord, memory_advance]
  change ((pointer.base.address machine).machine.memory.set _ _).set _ _ = _
  rw [Base.memory_address]

end Pointer

@[simp] theorem Operand.memory_read {width : Nat} (operand : Operand width) (machine : Machine) :
    (operand.read machine).machine.memory = machine.memory := by
  induction operand with
  | byteAt pointer | wordAt pointer =>
    exact (pointer.memory_advance _).trans (pointer.base.memory_address machine)
  | readOnly inner ih => exact ih
  | _ => rfl

end Sm83

import Sm83.Machine

/-!
# Operands

What an instruction reads or writes: a register, a byte or word following the opcode, a constant, or
the memory a pointer leads to. Reading or writing one has effects of its own: time passes with every
byte of memory accessed, following bytes move the program counter, and a pointer may move its base
register. The index of `Operand` is the width of its value in bits.
-/

namespace Sm83

/-- Where a pointer starts from. A byte stands for an address in the last page of the address space. -/
inductive Base where
  | byteRegister (name : ByteRegister)
  | wordRegister (name : WordRegister)
  | nextByte
  | nextWord
  | byteConstant (value : Byte)
  | wordConstant (value : Word)

/-- Leads to the address `offset` past its base, and moves its base by `step` after each access. -/
structure Pointer where
  base : Base
  step : Word := 0
  offset : Word := 0

inductive Operand : Nat → Type where
  | byteRegister (name : ByteRegister) : Operand 8
  | wordRegister (name : WordRegister) : Operand 16
  | nextByte : Operand 8
  | nextWord : Operand 16
  | constant {width : Nat} (value : BitVec width) : Operand width
  | byteAt (pointer : Pointer) : Operand 8
  | wordAt (pointer : Pointer) : Operand 16
  /-- Reads as the inner operand does; writes are lost. -/
  | readOnly {width : Nat} (inner : Operand width) : Operand width

/-- The address of a byte of the last page. -/
def Word.ofHighPage (low : Byte) : Word := Word.ofBytes low 0xFF

namespace Base

def address (base : Base) (machine : Machine) : Access 16 :=
  match base with
  | .byteRegister name => ⟨Word.ofHighPage (machine.byte name), machine⟩
  | .wordRegister name => ⟨machine.word name, machine⟩
  | .nextByte =>
    let next := machine.fetchByte
    ⟨Word.ofHighPage next.value, next.machine⟩
  | .nextWord => machine.fetchWord
  | .byteConstant value => ⟨Word.ofHighPage value, machine⟩
  | .wordConstant value => ⟨value, machine⟩

/-- Moves a register by `step`, a byte register by its low byte. What is no register cannot move. -/
def advance (base : Base) (step : Word) (machine : Machine) : Machine :=
  match base with
  | .byteRegister name => machine.setByte name (machine.byte name + Word.low step)
  | .wordRegister name => machine.setWord name (machine.word name + step)
  | .nextByte | .nextWord | .byteConstant _ | .wordConstant _ => machine

end Base

namespace Pointer

def address (pointer : Pointer) (machine : Machine) : Access 16 :=
  let base := pointer.base.address machine
  ⟨base.value + pointer.offset, base.machine⟩

/-- A pointer without a step leaves its base alone. -/
def advance (pointer : Pointer) (machine : Machine) : Machine :=
  if pointer.step = 0 then machine else pointer.base.advance pointer.step machine

def readByte (pointer : Pointer) (machine : Machine) : Access 8 :=
  let target := pointer.address machine
  let read := target.machine.readByte target.value
  ⟨read.value, pointer.advance read.machine⟩

def readWord (pointer : Pointer) (machine : Machine) : Access 16 :=
  let target := pointer.address machine
  let read := target.machine.readWord target.value
  ⟨read.value, pointer.advance read.machine⟩

def writeByte (pointer : Pointer) (value : Byte) (machine : Machine) : Machine :=
  let target := pointer.address machine
  pointer.advance (target.machine.writeByte target.value value)

def writeWord (pointer : Pointer) (value : Word) (machine : Machine) : Machine :=
  let target := pointer.address machine
  pointer.advance (target.machine.writeWord target.value value)

end Pointer

namespace Operand

def read {width : Nat} (operand : Operand width) (machine : Machine) : Access width :=
  match operand with
  | .byteRegister name => ⟨machine.byte name, machine⟩
  | .wordRegister name => ⟨machine.word name, machine⟩
  | .nextByte => machine.fetchByte
  | .nextWord => machine.fetchWord
  | .constant value => ⟨value, machine⟩
  | .byteAt pointer => pointer.readByte machine
  | .wordAt pointer => pointer.readWord machine
  | .readOnly inner => inner.read machine

/-- Writes a value. Following bytes, constants and read-only operands cannot be written. -/
def write {width : Nat} (operand : Operand width) (value : BitVec width) (machine : Machine) :
    Machine :=
  match operand with
  | .byteRegister name => machine.setByte name value
  | .wordRegister name => machine.setWord name value
  | .byteAt pointer => pointer.writeByte value machine
  | .wordAt pointer => pointer.writeWord value machine
  | .nextByte | .nextWord | .constant _ | .readOnly _ => machine

/-- Reading a word register takes no time and moves nothing. -/
theorem read_wordRegister (name : WordRegister) (machine : Machine) :
    (wordRegister name).read machine = ⟨machine.word name, machine⟩ := rfl

/-- A byte that follows the opcode is read through the program counter. -/
theorem read_nextByte (machine : Machine) :
    (nextByte).read machine =
      (byteAt { base := .wordRegister .pc, step := 1 }).read machine := by
  simp [read, Machine.fetchByte, Pointer.readByte, Pointer.address, Pointer.advance, Base.address,
    Base.advance]

theorem read_nextWord (machine : Machine) :
    (nextWord).read machine =
      (wordAt { base := .wordRegister .pc, step := 2 }).read machine := by
  simp [read, Machine.fetchWord, Pointer.readWord, Pointer.address, Pointer.advance, Base.address,
    Base.advance]

end Operand

end Sm83

import Sm83.Cpu
import Sm83.Memory.Stream

/-!
# The machine

The processor together with its memory. Debuggers reach registers and memory without time passing;
instructions reach memory only through `Machine.readByte` and `Machine.writeByte`, which cost one
cycle each, so the clock counts memory accesses plus the cycles an instruction spends on its own.
-/

namespace Sm83

structure Machine where
  cpu : Cpu := {}
  memory : Memory := Memory.zero
  config : Config := {}

/-- A value read from the machine, and the machine after the read. -/
structure Access (width : Nat) where
  value : BitVec width
  machine : Machine

namespace Machine

def initial (config : Config) : Machine := { cpu := Cpu.initial config, config }

/-- Starts over with the configured registers; memory stays as it is. -/
def reset (machine : Machine) : Machine := { machine with cpu := Cpu.initial machine.config }

def byte (machine : Machine) (name : ByteRegister) : Byte := machine.cpu.registers.byte name

def word (machine : Machine) (name : WordRegister) : Word := machine.cpu.registers.word name

def flags (machine : Machine) : Flags := machine.cpu.registers.flags

def clock (machine : Machine) : Nat := machine.cpu.clock

def mapCpu (change : Cpu → Cpu) (machine : Machine) : Machine :=
  { machine with cpu := change machine.cpu }

def mapRegisters (change : Registers → Registers) (machine : Machine) : Machine :=
  machine.mapCpu fun cpu => { cpu with registers := change cpu.registers }

def setByte (machine : Machine) (name : ByteRegister) (value : Byte) : Machine :=
  machine.mapRegisters (·.setByte name value)

def setWord (machine : Machine) (name : WordRegister) (value : Word) : Machine :=
  machine.mapRegisters (·.setWord name value)

def setFlags (machine : Machine) (flags : Flags) : Machine :=
  machine.mapRegisters (·.setFlags flags)

def setFlag (machine : Machine) (flag : Flag) (value : Bool) : Machine :=
  machine.mapRegisters (·.setFlag flag value)

def mapMemory (change : Memory → Memory) (machine : Machine) : Machine :=
  { machine with memory := change machine.memory }

/-- Replaces what is in memory by what a stream delivers. -/
def loadStream (machine : Machine) (stream : Stream) : Machine :=
  machine.mapMemory fun memory => (memory.loadStream stream).memory

/-- Lets one machine cycle pass. -/
def tick (machine : Machine) : Machine := machine.mapCpu Cpu.tick

def readByte (machine : Machine) (address : Word) : Access 8 :=
  ⟨machine.memory.get address, machine.tick⟩

def writeByte (machine : Machine) (address : Word) (value : Byte) : Machine :=
  (machine.mapMemory (·.set address value)).tick

/-- Reads a little-endian word, the low byte first. -/
def readWord (machine : Machine) (address : Word) : Access 16 :=
  let low := machine.readByte address
  let high := low.machine.readByte (address + 1)
  ⟨Word.ofBytes low.value high.value, high.machine⟩

/-- Writes a little-endian word, the low byte first. -/
def writeWord (machine : Machine) (address : Word) (value : Word) : Machine :=
  (machine.writeByte address (Word.low value)).writeByte (address + 1) (Word.high value)

/-- Reads the byte at the program counter and moves the program counter past it. -/
def fetchByte (machine : Machine) : Access 8 :=
  let read := machine.readByte (machine.word .pc)
  ⟨read.value, read.machine.setWord .pc (read.machine.word .pc + 1)⟩

/-- Reads the word at the program counter and moves the program counter past it. -/
def fetchWord (machine : Machine) : Access 16 :=
  let read := machine.readWord (machine.word .pc)
  ⟨read.value, read.machine.setWord .pc (read.machine.word .pc + 2)⟩

end Machine

end Sm83

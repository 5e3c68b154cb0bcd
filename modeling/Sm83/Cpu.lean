import Sm83.Config
import Sm83.Registers

/-!
# The processor's own state

The register file, a clock counting machine cycles since the last reset, and three control bits. The
clock is a number without a bound and stands for a counter of 64 bits, which it equals as long as it
is below 2 ^ 64. `Cpu.initial` is the state a reset returns to, whatever the state before it.
-/

namespace Sm83

structure Cpu where
  registers : Registers := {}
  /-- Machine cycles since the last reset, exact below 2 ^ 64. -/
  clock : Nat := 0
  stopped : Bool := false
  halted : Bool := false
  /-- The interrupt master enable bit. -/
  interrupts : Bool := true
  deriving DecidableEq

namespace Cpu

/-- What the boot program leaves in the registers of the given model. -/
def bootRegisters (model : Model) : Registers :=
  ({} : Registers)
    |>.setByte .f 0xB0
    |>.setWord .bc 0x0013
    |>.setWord .de 0x00D8
    |>.setWord .hl 0x014D
    |>.setWord .sp 0xFFFE
    |>.setWord .pc 0x0100
    |>.setByte .a model.bootAccumulator

def initial (config : Config) : Cpu :=
  if config.postBoot then { registers := bootRegisters config.model } else {}

def get (cpu : Cpu) (name : Register) : Word := cpu.registers.get name

def set (cpu : Cpu) (name : Register) (value : Word) : Cpu :=
  { cpu with registers := cpu.registers.set name value }

def flag (cpu : Cpu) (flag : Flag) : Bool := cpu.registers.flags.get flag

def setFlag (cpu : Cpu) (flag : Flag) (value : Bool) : Cpu :=
  { cpu with registers := cpu.registers.setFlag flag value }

/-- Lets one machine cycle pass. -/
def tick (cpu : Cpu) : Cpu := { cpu with clock := cpu.clock + 1 }

def stop (cpu : Cpu) : Cpu := { cpu with stopped := true }

/-- Waits for an interrupt, which comes from outside. -/
def halt (cpu : Cpu) : Cpu := { cpu with halted := true }

/-- Leaves the stopped and the halted state. -/
def resume (cpu : Cpu) : Cpu := { cpu with stopped := false, halted := false }

def enableInterrupts (cpu : Cpu) : Cpu := { cpu with interrupts := true }

def disableInterrupts (cpu : Cpu) : Cpu := { cpu with interrupts := false }

end Cpu

end Sm83

import Sm83.Instruction

/-!
# The effect of an instruction

One function on machines for each instruction, and `Instruction.execute` choosing among them. The
order of reads and writes is part of the effect: operands may share registers, and a pointer moves
its base on every access. Flags are written before the result, since the result may go to the flags
themselves. Instructions cannot fail.
-/

namespace Sm83

/-- The word below the stack, made the top by writing it. -/
def Pointer.push : Pointer := { base := .wordRegister .sp, step := -2, offset := -2 }

/-- The top of the stack, removed by reading it. -/
def Pointer.pop : Pointer := { base := .wordRegister .sp, step := 2 }

namespace Machine

variable {width : Nat}

def ld (target source : Operand width) (machine : Machine) : Machine :=
  let read := source.read machine
  target.write read.value read.machine

/-- Reads the target, then the source, and puts the outcome into the flags and the target. -/
def binary (operation : Binary) (target source : Operand width) (machine : Machine) : Machine :=
  let left := target.read machine
  let right := source.read left.machine
  let outcome := operation.apply left.value right.value right.machine.flags.carry
  target.write outcome.value (right.machine.setFlags outcome.flags)

/-- Replaces the target by an outcome computed from its value. -/
def modify (operation : Byte → Outcome 8) (target : Operand 8) (machine : Machine) : Machine :=
  let read := target.read machine
  let outcome := operation read.value
  target.write outcome.value (read.machine.setFlags outcome.flags)

/-- The carry flag is put back at the end. -/
def inc (target : Operand 8) (machine : Machine) : Machine :=
  (machine.modify (Outcome.add · 1 false) target).setFlag .carry machine.flags.carry

def dec (target : Operand 8) (machine : Machine) : Machine :=
  (machine.modify (Outcome.sub · 1 false) target).setFlag .carry machine.flags.carry

/-- A shift through the carry uses the flag as it is before the target is read. -/
def shift (kind : Shift) (target : Operand 8) (zeroFlag : Bool) (machine : Machine) : Machine :=
  machine.modify (kind.apply · machine.flags.carry zeroFlag) target

def swap (target : Operand 8) (machine : Machine) : Machine := machine.modify Outcome.swap target

/-- Tells by the zero flag whether a bit is clear. -/
def bit (index : Fin 8) (source : Operand 8) (machine : Machine) : Machine :=
  let read := source.read machine
  read.machine.setFlags
    { read.machine.flags with
      zero := !read.value.getLsbD index, subtract := false, halfCarry := true }

def setBit (index : Fin 8) (target : Operand 8) (machine : Machine) : Machine :=
  let read := target.read machine
  target.write (read.value ||| BitVec.twoPow 8 index) read.machine

def resetBit (index : Fin 8) (target : Operand 8) (machine : Machine) : Machine :=
  let read := target.read machine
  target.write (read.value &&& ~~~BitVec.twoPow 8 index) read.machine

def incWord (target : Operand 16) (machine : Machine) : Machine :=
  let read := target.read machine
  target.write (read.value + 1) read.machine.tick

def decWord (target : Operand 16) (machine : Machine) : Machine :=
  let read := target.read machine
  target.write (read.value - 1) read.machine.tick

/-- The zero flag is put back at the end. -/
def addToHl (source : Operand 16) (machine : Machine) : Machine :=
  (machine.binary .add (.wordRegister .hl) source).tick.setFlag .zero machine.flags.zero

/-- The stack pointer moved by the signed byte that follows, with the flags set accordingly. -/
def offsetSp (machine : Machine) : Access 16 :=
  let distance := machine.fetchByte
  let outcome := Outcome.offset (distance.machine.word .sp) distance.value
  ⟨outcome.value, distance.machine.setFlags outcome.flags⟩

def addToSp (machine : Machine) : Machine :=
  let moved := machine.offsetSp
  moved.machine.tick.tick.setWord .sp moved.value

def ldHlSpOffset (machine : Machine) : Machine :=
  let moved := machine.offsetSp
  moved.machine.tick.setWord .hl moved.value

def ldSpHl (machine : Machine) : Machine :=
  (machine.ld (.wordRegister .sp) (.wordRegister .hl)).tick

def daa (machine : Machine) : Machine :=
  let outcome := Outcome.decimalAdjust (machine.byte .a) machine.flags
  (machine.setFlags outcome.flags).setByte .a outcome.value

def cpl (machine : Machine) : Machine :=
  (machine.setByte .a (~~~machine.byte .a)).setFlags
    { machine.flags with subtract := true, halfCarry := true }

def scf (machine : Machine) : Machine :=
  machine.setFlags { machine.flags with subtract := false, halfCarry := false, carry := true }

def ccf (machine : Machine) : Machine :=
  machine.setFlags
    { machine.flags with
      subtract := false, halfCarry := false, carry := !machine.flags.carry }

def push (source : Operand 16) (machine : Machine) : Machine :=
  let read := source.read machine
  Pointer.push.writeWord read.value read.machine.tick

def pop (target : Operand 16) (machine : Machine) : Machine :=
  let top := Pointer.pop.readWord machine
  target.write top.value top.machine

/-- The target is read whether or not the jump is taken. -/
def jp (condition : Condition) (target : Operand 16) (machine : Machine) : Machine :=
  let read := target.read machine
  if read.machine.satisfies condition then read.machine.tick.setWord .pc read.value
  else read.machine

def jpHl (machine : Machine) : Machine := machine.ld (.wordRegister .pc) (.wordRegister .hl)

/-- The distance counts from the end of the instruction. -/
def jr (condition : Condition) (machine : Machine) : Machine :=
  let distance := machine.fetchByte
  if distance.machine.satisfies condition then
    distance.machine.tick.setWord .pc
      (distance.machine.word .pc + distance.value.signExtend 16)
  else distance.machine

def call (condition : Condition) (machine : Machine) : Machine :=
  let target := machine.fetchWord
  if target.machine.satisfies condition then
    (target.machine.push (.wordRegister .pc)).setWord .pc target.value
  else target.machine

/-- Deciding on a condition takes a cycle; an unconditional return has none to decide on. -/
def ret (condition : Condition) (machine : Machine) : Machine :=
  let decided := if condition = .always then machine else machine.tick
  if decided.satisfies condition then (decided.pop (.wordRegister .pc)).tick else decided

def reti (machine : Machine) : Machine := (machine.ret .always).mapCpu Cpu.enableInterrupts

def rst (target : Operand 16) (machine : Machine) : Machine :=
  let read := target.read (machine.push (.wordRegister .pc))
  read.machine.setWord .pc read.value

/-- Skips the padding byte that follows the opcode. -/
def stop (machine : Machine) : Machine := machine.fetchByte.machine.mapCpu Cpu.stop

end Machine

def Instruction.execute (instruction : Instruction) (machine : Machine) : Machine :=
  match instruction with
  | .nop | .undefined => machine
  | .ld target source => machine.ld target source
  | .binary operation target source => machine.binary operation target source
  | .inc target => machine.inc target
  | .dec target => machine.dec target
  | .shift kind target zeroFlag => machine.shift kind target zeroFlag
  | .swap target => machine.swap target
  | .bit index source => machine.bit index source
  | .set index target => machine.setBit index target
  | .res index target => machine.resetBit index target
  | .incWord target => machine.incWord target
  | .decWord target => machine.decWord target
  | .addToHl source => machine.addToHl source
  | .addToSp => machine.addToSp
  | .ldHlSpOffset => machine.ldHlSpOffset
  | .ldSpHl => machine.ldSpHl
  | .daa => machine.daa
  | .cpl => machine.cpl
  | .scf => machine.scf
  | .ccf => machine.ccf
  | .push source => machine.push source
  | .pop target => machine.pop target
  | .jp condition target => machine.jp condition target
  | .jpHl => machine.jpHl
  | .jr condition => machine.jr condition
  | .call condition => machine.call condition
  | .ret condition => machine.ret condition
  | .reti => machine.reti
  | .rst target => machine.rst target
  | .stop => machine.stop
  | .halt => machine.mapCpu Cpu.halt
  | .ei => machine.mapCpu Cpu.enableInterrupts
  | .di => machine.mapCpu Cpu.disableInterrupts

end Sm83

import Sm83.Opcode

/-!
# Operands as opcodes encode them

An opcode is read in three fields: two bits of group, three of row and three of column. Rows and
columns select operands, register pairs and conditions, each from a fixed list. A slot is such an
operand with its assembler spelling, the bytes it adds to the instruction and the cycles one access
to it costs.
-/

namespace Sm83

structure Slot (width : Nat) where
  name : String
  operand : Operand width
  bytes : Nat := 0
  cycles : Nat := 0

namespace Opcode

def group (opcode : Byte) : Nat := opcode.toNat / 64

def row (opcode : Byte) : Nat := opcode.toNat / 8 % 8

def column (opcode : Byte) : Nat := opcode.toNat % 8

end Opcode

namespace Slot

def byteRegister (name : String) (register : ByteRegister) : Slot 8 :=
  { name, operand := .byteRegister register }

def wordRegister (name : String) (register : WordRegister) : Slot 16 :=
  { name, operand := .wordRegister register }

def byteAt (name : String) (base : Base) (step : Word := 0) : Slot 8 :=
  { name, operand := .byteAt { base, step }, cycles := 1 }

def a : Slot 8 := byteRegister "A" .a

def sp : Slot 16 := wordRegister "SP" .sp

/-- The byte targets, selected by a row or column. -/
def cell : Nat → Slot 8
  | 0 => byteRegister "B" .b
  | 1 => byteRegister "C" .c
  | 2 => byteRegister "D" .d
  | 3 => byteRegister "E" .e
  | 4 => byteRegister "H" .h
  | 5 => byteRegister "L" .l
  | 6 => byteAt "(HL)" (.wordRegister .hl)
  | _ => a

/-- The register pairs, selected by the upper two bits of a row. -/
def pair : Nat → Slot 16
  | 0 => wordRegister "BC" .bc
  | 1 => wordRegister "DE" .de
  | 2 => wordRegister "HL" .hl
  | _ => sp

/-- The register pairs as the stack instructions select them. -/
def stackPair : Nat → Slot 16
  | 3 => wordRegister "AF" .af
  | index => pair index

/-- The memory that the accumulator moves to and from, selected by the upper two bits of a row. -/
def accumulatorCell : Nat → Slot 8
  | 0 => byteAt "(BC)" (.wordRegister .bc)
  | 1 => byteAt "(DE)" (.wordRegister .de)
  | 2 => byteAt "(HL+)" (.wordRegister .hl) 1
  | _ => byteAt "(HL-)" (.wordRegister .hl) (-1)

def byteImmediate : Slot 8 := { name := "d8", operand := .nextByte, bytes := 1, cycles := 1 }

def wordImmediate : Slot 16 := { name := "d16", operand := .nextWord, bytes := 2, cycles := 2 }

/-- A byte of the last page at a place given by the following byte. -/
def highByte : Slot 8 :=
  { name := "(a8)", operand := .byteAt { base := .nextByte }, bytes := 1, cycles := 2 }

/-- A byte of the last page at a place given by register C. -/
def highByteAtC : Slot 8 := byteAt "(C)" (.byteRegister .c)

def absoluteByte : Slot 8 :=
  { name := "(a16)", operand := .byteAt { base := .nextWord }, bytes := 2, cycles := 3 }

def absoluteWord : Slot 16 :=
  { name := "(a16)", operand := .wordAt { base := .nextWord }, bytes := 2, cycles := 4 }

end Slot

/-- The tested conditions with their spelling, selected by the lower two bits of a row. -/
def Condition.select : Nat → String × Condition
  | 0 => ("NZ", .notZero)
  | 1 => ("Z", .zero)
  | 2 => ("NC", .notCarry)
  | _ => ("C", .carry)

end Sm83

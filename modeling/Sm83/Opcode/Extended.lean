import Sm83.Opcode.Slot

/-!
# The extended opcodes

The byte after the prefix 0xCB selects an operation by its group and row and a byte target by its
column. The first group holds the shifts and rotations, the others test, clear and set the bit
numbered by the row.
-/

namespace Sm83

namespace Opcode

/-- The first byte of every extended opcode. -/
def extensionPrefix : Byte := 0xCB

/-- The operations of the first group, selected by the row. -/
def rotation : Nat → String × (Operand 8 → Instruction)
  | 0 => ("RLC ", (.shift .rlc · true))
  | 1 => ("RRC ", (.shift .rrc · true))
  | 2 => ("RL ", (.shift .rl · true))
  | 3 => ("RR ", (.shift .rr · true))
  | 4 => ("SLA ", (.shift .sla · true))
  | 5 => ("SRA ", (.shift .sra · true))
  | 6 => ("SWAP ", .swap)
  | _ => ("SRL ", (.shift .srl · true))

/-- The operation a second byte selects, before its target is chosen. -/
def extension (opcode : Byte) : String × (Operand 8 → Instruction) :=
  let index := Fin.ofNat 8 (row opcode)
  match group opcode with
  | 0 => rotation (row opcode)
  | 1 => (s!"BIT {index.val},", .bit index)
  | 2 => (s!"RES {index.val},", .res index)
  | _ => (s!"SET {index.val},", .set index)

end Opcode

def Instruction.ofExtended (opcode : Byte) : Instruction :=
  (Opcode.extension opcode).2 (Slot.cell (Opcode.column opcode)).operand

/-- The description of an extended opcode. A bit test reads its target, all others write it as well. -/
def Opcode.describeExtended (opcode : Byte) : Opcode :=
  let target := Slot.cell (column opcode)
  let accesses := if group opcode = 1 then 1 else 2
  { mnemonic := (extension opcode).1 ++ target.name
    operation := .instruction (Instruction.ofExtended opcode)
    length := 2
    cycles := 2 + accesses * target.cycles }

/-- Executes what an opcode does, its first byte having been fetched. -/
def Operation.execute (operation : Operation) (machine : Machine) : Machine :=
  match operation with
  | .instruction single => single.execute machine
  | .extend =>
    let next := machine.fetchByte
    (Instruction.ofExtended next.value).execute next.machine

end Sm83

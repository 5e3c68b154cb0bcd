import Sm83.Opcode.Extended

/-!
# The base opcodes

The description of every opcode that is a single byte, group by group. Eleven encodings of the last
group have no meaning of their own; they occupy one byte and pass one cycle.
-/

namespace Sm83

namespace Opcode

/-- An instruction without operands after which execution goes on with the next one. -/
def plain (mnemonic : String) (instruction : Instruction) (length cycles : Nat) : Opcode :=
  { mnemonic, operation := .instruction instruction, length, cycles }

def branch (mnemonic : String) (instruction : Instruction) (length cycles skippedCycles : Nat) :
    Opcode :=
  { mnemonic, operation := .instruction instruction, length, cycles, skippedCycles, flow := .jump }

def halting (mnemonic : String) (instruction : Instruction) (length cycles : Nat) : Opcode :=
  { mnemonic, operation := .instruction instruction, length, cycles, flow := .halt }

def undefined : Opcode := plain "???" .undefined 1 1

def load {width : Nat} (target source : Slot width) (name : String := "LD") : Opcode :=
  plain s!"{name} {target.name},{source.name}" (.ld target.operand source.operand)
    (1 + target.bytes + source.bytes) (1 + target.cycles + source.cycles)

/-- An operation on the accumulator, selected by the row. A comparison is a subtraction not kept. -/
def accumulate (row : Nat) (source : Slot 8) : Opcode :=
  let spelled (name : String) (operation : Binary) (target : Operand 8) : Opcode :=
    plain (name ++ source.name) (.binary operation target source.operand) (1 + source.bytes)
      (1 + source.cycles)
  match row with
  | 0 => spelled "ADD A," .add Slot.a.operand
  | 1 => spelled "ADC A," .adc Slot.a.operand
  | 2 => spelled "SUB " .sub Slot.a.operand
  | 3 => spelled "SBC A," .sbc Slot.a.operand
  | 4 => spelled "AND " .and Slot.a.operand
  | 5 => spelled "XOR " .xor Slot.a.operand
  | 6 => spelled "OR " .or Slot.a.operand
  | _ => spelled "CP " .sub (.readOnly Slot.a.operand)

/-- The short instructions on the accumulator and the flags, selected by the row. -/
def accumulatorShort : Nat → Opcode
  | 0 => plain "RLCA" (.shift .rlc Slot.a.operand false) 1 1
  | 1 => plain "RRCA" (.shift .rrc Slot.a.operand false) 1 1
  | 2 => plain "RLA" (.shift .rl Slot.a.operand false) 1 1
  | 3 => plain "RRA" (.shift .rr Slot.a.operand false) 1 1
  | 4 => plain "DAA" .daa 1 1
  | 5 => plain "CPL" .cpl 1 1
  | 6 => plain "SCF" .scf 1 1
  | _ => plain "CCF" .ccf 1 1

def relativeJump (condition : String × Condition) : Opcode :=
  branch s!"JR {condition.1},r8" (.jr condition.2) 2 3 2

/-- The first group: loads of immediates, word arithmetic, increments and relative jumps. -/
def describeFirst (row column : Nat) : Opcode :=
  let upper := row / 2
  let isOdd := row % 2 = 1
  match column with
  | 0 =>
    match row with
    | 0 => plain "NOP" .nop 1 1
    | 1 => load Slot.absoluteWord Slot.sp
    | 2 => halting "STOP" .stop 2 2
    | 3 => branch "JR r8" (.jr .always) 2 3 3
    | _ => relativeJump (Condition.select (row % 4))
  | 1 =>
    let pair := Slot.pair upper
    if isOdd then plain s!"ADD HL,{pair.name}" (.addToHl pair.operand) 1 2
    else load pair Slot.wordImmediate
  | 2 =>
    let place := Slot.accumulatorCell upper
    if isOdd then load Slot.a place else load place Slot.a
  | 3 =>
    let pair := Slot.pair upper
    if isOdd then plain s!"DEC {pair.name}" (.decWord pair.operand) 1 2
    else plain s!"INC {pair.name}" (.incWord pair.operand) 1 2
  | 4 =>
    let cell := Slot.cell row
    plain s!"INC {cell.name}" (.inc cell.operand) 1 (1 + 2 * cell.cycles)
  | 5 =>
    let cell := Slot.cell row
    plain s!"DEC {cell.name}" (.dec cell.operand) 1 (1 + 2 * cell.cycles)
  | 6 => load (Slot.cell row) Slot.byteImmediate
  | _ => accumulatorShort row

/-- The second group: loads between byte targets. Where both would be memory the processor halts. -/
def describeLoad (row column : Nat) : Opcode :=
  if row = 6 ∧ column = 6 then halting "HALT" .halt 1 1
  else load (Slot.cell row) (Slot.cell column)

/-- The last group: control transfers, the stack, and loads from and to fixed places. -/
def describeLast (row column : Nat) : Opcode :=
  let upper := row / 2
  let isOdd := row % 2 = 1
  let condition := Condition.select (row % 4)
  match column with
  | 0 =>
    match row with
    | 4 => load Slot.highByte Slot.a "LDH"
    | 5 => plain "ADD SP,r8" .addToSp 2 4
    | 6 => load Slot.a Slot.highByte "LDH"
    | 7 => plain "LD HL,SP+r8" .ldHlSpOffset 2 3
    | _ => branch s!"RET {condition.1}" (.ret condition.2) 1 5 2
  | 1 =>
    if isOdd then
      match upper with
      | 0 => branch "RET" (.ret .always) 1 4 4
      | 1 => branch "RETI" .reti 1 4 4
      | 2 => branch "JP (HL)" .jpHl 1 1 1
      | _ => plain "LD SP,HL" .ldSpHl 1 2
    else
      let pair := Slot.stackPair upper
      plain s!"POP {pair.name}" (.pop pair.operand) 1 3
  | 2 =>
    match row with
    | 4 => load Slot.highByteAtC Slot.a
    | 5 => load Slot.absoluteByte Slot.a
    | 6 => load Slot.a Slot.highByteAtC
    | 7 => load Slot.a Slot.absoluteByte
    | _ => branch s!"JP {condition.1},a16" (.jp condition.2 .nextWord) 3 4 3
  | 3 =>
    match row with
    | 0 => branch "JP a16" (.jp .always .nextWord) 3 4 4
    | 1 => { mnemonic := "PREFIX CB", operation := .extend, length := 1, cycles := 1 }
    | 6 => plain "DI" .di 1 1
    | 7 => plain "EI" .ei 1 1
    | _ => undefined
  | 4 =>
    if row < 4 then branch s!"CALL {condition.1},a16" (.call condition.2) 3 6 3 else undefined
  | 5 =>
    if isOdd then
      if upper = 0 then branch "CALL a16" (.call .always) 3 6 6 else undefined
    else
      let pair := Slot.stackPair upper
      plain s!"PUSH {pair.name}" (.push pair.operand) 1 4
  | 6 => accumulate row Slot.byteImmediate
  | _ =>
    let digit := if isOdd then "8" else "0"
    branch s!"RST {upper}{digit}H" (.rst (.constant (BitVec.ofNat 16 (8 * row)))) 1 4 4

def describeBase (opcode : Byte) : Opcode :=
  match group opcode with
  | 0 => describeFirst (row opcode) (column opcode)
  | 1 => describeLoad (row opcode) (column opcode)
  | 2 => accumulate (row opcode) (Slot.cell (column opcode))
  | _ => describeLast (row opcode) (column opcode)

end Opcode

end Sm83

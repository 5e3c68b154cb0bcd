import Sm83.Word

/-!
# Register names

Eight byte registers form four pairs, and the stack pointer and the program counter have no halves:
fourteen names over six words of storage. `Register.index` says which word a name lies in and
`Register.part` which part of it.
-/

namespace Sm83

inductive ByteRegister where
  | a | f | b | c | d | e | h | l
  deriving DecidableEq

inductive WordRegister where
  | af | bc | de | hl | sp | pc
  deriving DecidableEq

inductive Register where
  | byte (name : ByteRegister)
  | word (name : WordRegister)
  deriving DecidableEq

/-- The part of a stored word that a register name covers. -/
inductive Register.Part where
  | whole
  | low
  | high
  deriving DecidableEq

namespace ByteRegister

/-- The pair the register is a half of. -/
def pair : ByteRegister → WordRegister
  | .a | .f => .af
  | .b | .c => .bc
  | .d | .e => .de
  | .h | .l => .hl

def isHigh : ByteRegister → Bool
  | .a | .b | .d | .h => true
  | .f | .c | .e | .l => false

/-- A pair has one upper and one lower half. -/
theorem isHigh_eq_not {name other : ByteRegister} (hpair : other.pair = name.pair)
    (hne : other ≠ name) : other.isHigh = !name.isHigh := by
  revert hpair hne
  cases name <;> cases other <;> decide

end ByteRegister

def WordRegister.index : WordRegister → Nat
  | .af => 0
  | .bc => 1
  | .de => 2
  | .hl => 3
  | .sp => 4
  | .pc => 5

namespace Register

def index : Register → Nat
  | .byte name => name.pair.index
  | .word name => name.index

def part : Register → Part
  | .byte name => if name.isHigh then .high else .low
  | .word _ => .whole

end Register

end Sm83

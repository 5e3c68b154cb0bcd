import Sm83.Flags

/-!
# Arithmetic and logic

What the arithmetic unit computes from values alone: a result together with the flags that describe
it. An addition or subtraction is carried out with one bit to spare. The exclusive or of both inputs
and that wide result has a bit set exactly where a carry, or a borrow, came in, so the carry flag is
its top bit and the half-carry flag the bit four places lower. A shift moves every bit by one place,
lets one bit in at one end and one bit out, into the carry flag, at the other.
-/

namespace Sm83

/-- A computed value and the flags that describe it. -/
@[ext]
structure Outcome (width : Nat) where
  value : BitVec width
  flags : Flags

namespace Outcome

variable {width : Nat}

/-- The outcome of an operation on `left` and `right` carried out with one bit to spare. Adding one
number after the other, each time with a check for overflow, comes to the same
(`Outcome.add_eq_addInTurn`). -/
def ofWide (left right : BitVec width) (wide : BitVec (width + 1)) (subtract : Bool) :
    Outcome width :=
  let value := wide.setWidth width
  let carries := left.setWidth (width + 1) ^^^ right.setWidth (width + 1) ^^^ wide
  { value
    flags :=
      { zero := value == 0
        subtract
        halfCarry := carries.getLsbD (width - 4)
        carry := carries.getLsbD width } }

def add (left right : BitVec width) (carry : Bool) : Outcome width :=
  ofWide left right
    (left.setWidth (width + 1) + right.setWidth (width + 1) +
      (BitVec.ofBool carry).setWidth (width + 1))
    false

def sub (left right : BitVec width) (borrow : Bool) : Outcome width :=
  ofWide left right
    (left.setWidth (width + 1) - right.setWidth (width + 1) -
      (BitVec.ofBool borrow).setWidth (width + 1))
    true

def logic (value : BitVec width) (halfCarry : Bool) : Outcome width :=
  { value, flags := { zero := value == 0, halfCarry } }

end Outcome

/-- The operations on two operands. -/
inductive Binary where
  | add | adc | sub | sbc | and | xor | or
  deriving DecidableEq

/-- The outcome of an operation, `carry` being the carry flag before it. -/
def Binary.apply {width : Nat} (operation : Binary) (left right : BitVec width) (carry : Bool) :
    Outcome width :=
  match operation with
  | .add => .add left right false
  | .adc => .add left right carry
  | .sub => .sub left right false
  | .sbc => .sub left right carry
  | .and => .logic (left &&& right) true
  | .xor => .logic (left ^^^ right) false
  | .or => .logic (left ||| right) false

/-- The rotations and shifts by one place. -/
inductive Shift where
  | rlc | rrc | rl | rr | sla | sra | srl
  deriving DecidableEq

namespace Shift

def isLeft : Shift → Bool
  | .rlc | .rl | .sla => true
  | .rrc | .rr | .sra | .srl => false

/-- The bit let in, `carry` being the carry flag before the shift. -/
def incoming (shift : Shift) (value : Byte) (carry : Bool) : Bool :=
  match shift with
  | .rlc | .sra => value.getLsbD 7
  | .rrc => value.getLsbD 0
  | .rl | .rr => carry
  | .sla | .srl => false

/-- The bit let out. -/
def outgoing (shift : Shift) (value : Byte) : Bool :=
  if shift.isLeft then value.getLsbD 7 else value.getLsbD 0

def result (shift : Shift) (value : Byte) (carry : Bool) : Byte :=
  let bit := BitVec.ofBool (shift.incoming value carry)
  if shift.isLeft then value.extractLsb' 0 7 ++ bit else bit ++ value.extractLsb' 1 7

/-- The short forms on the accumulator clear the zero flag where the others let it tell a zero
result. -/
def apply (shift : Shift) (value : Byte) (carry zeroFlag : Bool) : Outcome 8 :=
  let value' := shift.result value carry
  { value := value'
    flags := { zero := zeroFlag && value' == 0, carry := shift.outgoing value } }

end Shift

namespace Outcome

/-- Exchanges the halves of a byte. -/
def swap (value : Byte) : Outcome 8 := logic (value.extractLsb' 0 4 ++ value.extractLsb' 4 4) false

/-- Corrects a sum or difference of packed decimals to packed decimal again. -/
def decimalAdjust (value : Byte) (flags : Flags) : Outcome 8 :=
  let low := flags.halfCarry || (!flags.subtract && BitVec.ult 0x09 (value &&& 0x0F))
  let high := flags.carry || (!flags.subtract && BitVec.ult 0x99 value)
  let adjustment : Byte := (if low then 0x06 else 0x00) ||| (if high then 0x60 else 0x00)
  let value' := if flags.subtract then value - adjustment else value + adjustment
  { value := value'
    flags := { flags with zero := value' == 0, halfCarry := false, carry := high } }

/-- Moves a stack pointer by a signed byte. The carries are those out of the low byte and its half. -/
def offset (base : Word) (distance : Byte) : Outcome 16 :=
  let distance := distance.signExtend 16
  let value := base + distance
  let carries := base ^^^ distance ^^^ value
  { value
    flags := { halfCarry := carries.getLsbD 4, carry := carries.getLsbD 8 } }

end Outcome

end Sm83

import Sm83.Flags
import Sm83.Register

/-!
# The register file

Six words of storage behind the fourteen register names, with one reader and one writer for each
width. A byte register is a view of half a pair, so writing it shows in the pair, and writing the
pair in both its halves. The low four bits of F have storage but no writer: whatever is written to
F, or to the pair it is in, loses them on the way. The flags are the upper four bits of F, decoded.
The equations below settle every combination of a register written and a register read, and the rest
of the library uses nothing else about storage.
-/

namespace Sm83

structure Registers where
  af : Word := 0
  bc : Word := 0
  de : Word := 0
  hl : Word := 0
  sp : Word := 0
  pc : Word := 0
  deriving DecidableEq

/-- What a byte register keeps of a value written to it. -/
def ByteRegister.kept (name : ByteRegister) (value : Byte) : Byte :=
  match name with
  | .f => value &&& 0xF0
  | _ => value

/-- What a word register keeps of a value written to it. -/
def WordRegister.kept (name : WordRegister) (value : Word) : Word :=
  match name with
  | .af => value &&& 0xFFF0
  | _ => value

namespace Registers

def word (registers : Registers) : WordRegister → Word
  | .af => registers.af
  | .bc => registers.bc
  | .de => registers.de
  | .hl => registers.hl
  | .sp => registers.sp
  | .pc => registers.pc

/-- Replaces one of the words in storage. -/
def store (registers : Registers) (name : WordRegister) (value : Word) : Registers :=
  match name with
  | .af => { registers with af := value }
  | .bc => { registers with bc := value }
  | .de => { registers with de := value }
  | .hl => { registers with hl := value }
  | .sp => { registers with sp := value }
  | .pc => { registers with pc := value }

def setWord (registers : Registers) (name : WordRegister) (value : Word) : Registers :=
  registers.store name (name.kept value)

def byte (registers : Registers) (name : ByteRegister) : Byte :=
  if name.isHigh then Word.high (registers.word name.pair) else Word.low (registers.word name.pair)

def setByte (registers : Registers) (name : ByteRegister) (value : Byte) : Registers :=
  let pair := registers.word name.pair
  registers.store name.pair <|
    if name.isHigh then Word.ofBytes (Word.low pair) (name.kept value)
    else Word.ofBytes (name.kept value) (Word.high pair)

/-- The value of any register, a byte being extended with zeros. -/
def get (registers : Registers) : Register → Word
  | .byte name => (registers.byte name).setWidth 16
  | .word name => registers.word name

/-- Writes any register. A byte register takes the low byte of the value. -/
def set (registers : Registers) (name : Register) (value : Word) : Registers :=
  match name with
  | .byte name => registers.setByte name (Word.low value)
  | .word name => registers.setWord name value

def flags (registers : Registers) : Flags := Flags.ofByte (registers.byte .f)

def setFlags (registers : Registers) (flags : Flags) : Registers :=
  registers.setByte .f flags.toByte

def setFlag (registers : Registers) (flag : Flag) (value : Bool) : Registers :=
  registers.setFlags (registers.flags.set flag value)

/-! ### Words -/

@[simp] theorem word_store_self (registers : Registers) (name : WordRegister) (value : Word) :
    (registers.store name value).word name = value := by
  cases name <;> rfl

theorem word_store_of_ne {name other : WordRegister} (hne : other ≠ name) (registers : Registers)
    (value : Word) : (registers.store name value).word other = registers.word other := by
  cases name <;> cases other <;> first | rfl | exact absurd rfl hne

@[simp] theorem word_setWord_self (registers : Registers) (name : WordRegister) (value : Word) :
    (registers.setWord name value).word name = name.kept value :=
  word_store_self registers name _

theorem word_setWord_of_ne {name other : WordRegister} (hne : other ≠ name)
    (registers : Registers) (value : Word) :
    (registers.setWord name value).word other = registers.word other :=
  word_store_of_ne hne registers _

theorem word_setByte_of_ne {name : ByteRegister} {other : WordRegister} (hne : other ≠ name.pair)
    (registers : Registers) (value : Byte) :
    (registers.setByte name value).word other = registers.word other :=
  word_store_of_ne hne registers _

/-! ### Bytes -/

@[simp] theorem byte_setByte_self (registers : Registers) (name : ByteRegister) (value : Byte) :
    (registers.setByte name value).byte name = name.kept value := by
  rw [setByte, byte, word_store_self]
  split <;> simp

theorem byte_setByte_of_ne {name other : ByteRegister} (hne : other ≠ name)
    (registers : Registers) (value : Byte) :
    (registers.setByte name value).byte other = registers.byte other := by
  by_cases hpair : other.pair = name.pair
  · rw [setByte, byte, byte, hpair, word_store_self, ByteRegister.isHigh_eq_not hpair hne]
    cases name.isHigh <;> simp
  · rw [byte, byte, word_setByte_of_ne hpair]

theorem byte_setWord_of_ne {name : WordRegister} {other : ByteRegister} (hne : other.pair ≠ name)
    (registers : Registers) (value : Word) :
    (registers.setWord name value).byte other = registers.byte other := by
  rw [byte, byte, word_setWord_of_ne hne]

/-! ### Flags -/

@[simp] theorem byte_setFlags_self (registers : Registers) (flags : Flags) :
    (registers.setFlags flags).byte .f = flags.toByte := by
  rw [setFlags, byte_setByte_self]
  exact flags.toByte_and

@[simp] theorem flags_setFlags (registers : Registers) (flags : Flags) :
    (registers.setFlags flags).flags = flags := by
  rw [Registers.flags, byte_setFlags_self, Flags.ofByte_toByte]

theorem flags_setByte_of_ne {name : ByteRegister} (hne : .f ≠ name) (registers : Registers)
    (value : Byte) : (registers.setByte name value).flags = registers.flags := by
  rw [flags, flags, byte_setByte_of_ne hne]

theorem flags_setWord_of_ne {name : WordRegister} (hne : .af ≠ name) (registers : Registers)
    (value : Word) : (registers.setWord name value).flags = registers.flags := by
  have hpair : ByteRegister.f.pair ≠ name := hne
  rw [flags, flags, byte_setWord_of_ne hpair]

end Registers

end Sm83

import Sm83.Word

/-!
# The flags

Four flags describe the last result: zero, subtract, half-carry and carry. They are kept as four
truth values; `Flags.toByte` and `Flags.ofByte` are their encoding in the upper half of a byte. The
lower half means nothing: it is encoded as zero and not looked at when decoding.
-/

namespace Sm83

inductive Flag where
  | zero
  | subtract
  | halfCarry
  | carry
  deriving DecidableEq

/-- The flag's bit position in the encoded byte. -/
def Flag.bit : Flag → Nat
  | .zero => 7
  | .subtract => 6
  | .halfCarry => 5
  | .carry => 4

@[ext]
structure Flags where
  zero : Bool := false
  subtract : Bool := false
  halfCarry : Bool := false
  carry : Bool := false
  deriving DecidableEq

namespace Flags

def get (flags : Flags) : Flag → Bool
  | .zero => flags.zero
  | .subtract => flags.subtract
  | .halfCarry => flags.halfCarry
  | .carry => flags.carry

def set (flags : Flags) (flag : Flag) (value : Bool) : Flags :=
  match flag with
  | .zero => { flags with zero := value }
  | .subtract => { flags with subtract := value }
  | .halfCarry => { flags with halfCarry := value }
  | .carry => { flags with carry := value }

def toByte (flags : Flags) : Byte :=
  BitVec.ofBool flags.zero ++ BitVec.ofBool flags.subtract ++ BitVec.ofBool flags.halfCarry ++
    BitVec.ofBool flags.carry ++ 0#4

def ofByte (value : Byte) : Flags where
  zero := value.getLsbD 7
  subtract := value.getLsbD 6
  halfCarry := value.getLsbD 5
  carry := value.getLsbD 4

@[simp] theorem ofByte_toByte (flags : Flags) : ofByte flags.toByte = flags := by
  obtain ⟨zero, subtract, halfCarry, carry⟩ := flags
  revert zero subtract halfCarry carry
  decide

@[simp] theorem toByte_ofByte (value : Byte) : (ofByte value).toByte = value &&& 0xF0 := by
  revert value
  decide

/-- The encoding keeps clear of the lower half. -/
theorem toByte_and (flags : Flags) : flags.toByte &&& 0xF0 = flags.toByte := by
  rw [← toByte_ofByte, ofByte_toByte]

theorem getLsbD_toByte (flags : Flags) (flag : Flag) :
    flags.toByte.getLsbD flag.bit = flags.get flag := by
  obtain ⟨zero, subtract, halfCarry, carry⟩ := flags
  revert zero subtract halfCarry carry
  cases flag <;> decide

@[simp] theorem get_set_self (flags : Flags) (flag : Flag) (value : Bool) :
    (flags.set flag value).get flag = value := by
  cases flag <;> rfl

theorem get_set_of_ne {flag other : Flag} (hne : other ≠ flag) (flags : Flags) (value : Bool) :
    (flags.set flag value).get other = flags.get other := by
  cases flag <;> cases other <;> first | rfl | exact absurd rfl hne

end Flags

end Sm83

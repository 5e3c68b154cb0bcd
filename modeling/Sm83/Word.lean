/-!
# Bytes and words

The processor moves bytes, and words made of two of them. `Word.ofBytes` joins a low and a high
byte, `Word.low` and `Word.high` take a word apart again, and the three are inverse to each other.
Registers, memory accesses and the stack split and join words only through these names.
-/

namespace Sm83

abbrev Byte := BitVec 8

/-- An address or a sixteen-bit value. Arithmetic on it wraps around the address space. -/
abbrev Word := BitVec 16

namespace Word

def ofBytes (low high : Byte) : Word := high ++ low

def low (w : Word) : Byte := w.extractLsb' 0 8

def high (w : Word) : Byte := w.extractLsb' 8 8

/-- The word in four hexadecimal digits. -/
def hex (w : Word) : String :=
  String.ofList <| [4096, 256, 16, 1].map fun place => Nat.digitChar (w.toNat / place % 16)

theorem getLsbD_ofBytes (low high : Byte) (i : Nat) :
    (ofBytes low high).getLsbD i = if i < 8 then low.getLsbD i else high.getLsbD (i - 8) :=
  BitVec.getLsbD_append

@[simp] theorem low_ofBytes (low high : Byte) : Word.low (ofBytes low high) = low := by
  apply BitVec.eq_of_getLsbD_eq
  intro i hi
  rw [Word.low, BitVec.getLsbD_extractLsb', getLsbD_ofBytes]
  simp [hi]

@[simp] theorem high_ofBytes (low high : Byte) : Word.high (ofBytes low high) = high := by
  apply BitVec.eq_of_getLsbD_eq
  intro i hi
  rw [Word.high, BitVec.getLsbD_extractLsb', getLsbD_ofBytes]
  simp [hi]

@[simp] theorem ofBytes_low_high (w : Word) : ofBytes (Word.low w) (Word.high w) = w := by
  apply BitVec.eq_of_getLsbD_eq
  intro i hi
  rw [getLsbD_ofBytes]
  by_cases hlow : i < 8
  · simp [Word.low, hlow]
  · have hhigh : i - 8 < 8 := by omega
    have hsum : 8 + (i - 8) = i := by omega
    simp [Word.high, hlow, hhigh, hsum]

theorem toNat_ofBytes (low high : Byte) :
    (ofBytes low high).toNat = high.toNat * 256 + low.toNat := by
  have hlow : low.toNat < 2 ^ 8 := low.isLt
  rw [ofBytes, BitVec.toNat_append, ← Nat.shiftLeft_add_eq_or_of_lt hlow, Nat.shiftLeft_eq]

end Word

end Sm83

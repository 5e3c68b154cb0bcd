import Sm83.Word

/-!
# The address space

A flat memory with one byte at each of the 65536 addresses. Addresses are words, so every access is
in range. A memory is determined by its bytes (`Memory.ext`), and a write changes exactly one of
them (`Memory.get_set`); nothing else is used about how the bytes are stored.
-/

namespace Sm83

def addressSpaceSize : Nat := 0x10000

structure Memory where
  bytes : ByteArray
  size_bytes : bytes.size = addressSpaceSize

namespace Memory

private theorem toNat_lt (memory : Memory) (address : Word) : address.toNat < memory.bytes.size := by
  rw [memory.size_bytes]
  exact address.isLt

def get (memory : Memory) (address : Word) : Byte :=
  (memory.bytes.get address.toNat (memory.toNat_lt address)).toBitVec

def set (memory : Memory) (address : Word) (value : Byte) : Memory where
  bytes := memory.bytes.set address.toNat (UInt8.ofBitVec value) (memory.toNat_lt address)
  size_bytes := by
    obtain ⟨⟨bytes⟩, hsize⟩ := memory
    simpa [ByteArray.set, ByteArray.size] using hsize

def zero : Memory where
  bytes := ⟨Array.replicate addressSpaceSize 0⟩
  size_bytes := by simp [ByteArray.size]

instance : Inhabited Memory := ⟨zero⟩

theorem get_set (memory : Memory) (address other : Word) (value : Byte) :
    (memory.set address value).get other = if other = address then value else memory.get other := by
  obtain ⟨⟨bytes⟩, hsize⟩ := memory
  have haddress : address.toNat < bytes.size := by
    change bytes.size = addressSpaceSize at hsize
    rw [hsize]
    exact address.isLt
  have hother : other.toNat < (bytes.set address.toNat (UInt8.ofBitVec value) haddress).size := by
    change bytes.size = addressSpaceSize at hsize
    rw [Array.size_set, hsize]
    exact other.isLt
  change ((bytes.set address.toNat (UInt8.ofBitVec value) haddress)[other.toNat]).toBitVec = _
  rw [Array.getElem_set]
  by_cases heq : other = address
  · rw [if_pos (congrArg BitVec.toNat heq.symm), if_pos heq]
  · rw [if_neg (fun hnat => heq (BitVec.eq_of_toNat_eq hnat.symm)), if_neg heq]
    rfl

@[simp] theorem get_set_self (memory : Memory) (address : Word) (value : Byte) :
    (memory.set address value).get address = value := by
  rw [get_set, if_pos rfl]

theorem get_set_of_ne {address other : Word} (hne : other ≠ address) (memory : Memory)
    (value : Byte) : (memory.set address value).get other = memory.get other := by
  rw [get_set, if_neg hne]

@[ext] theorem ext {left right : Memory} (hget : ∀ address, left.get address = right.get address) :
    left = right := by
  obtain ⟨⟨left⟩, hleft⟩ := left
  obtain ⟨⟨right⟩, hright⟩ := right
  change left.size = addressSpaceSize at hleft
  change right.size = addressSpaceSize at hright
  have hbytes : left = right := by
    apply Array.ext (hleft.trans hright.symm)
    intro i hi _
    have hlt : i < 2 ^ 16 := by rw [hleft] at hi; exact hi
    obtain ⟨address, rfl⟩ : ∃ address : Word, address.toNat = i :=
      ⟨BitVec.ofNat 16 i, by rw [BitVec.toNat_ofNat, Nat.mod_eq_of_lt hlt]⟩
    exact UInt8.toBitVec_inj.mp (hget address)
  subst hbytes
  rfl

@[simp] theorem get_zero (address : Word) : zero.get address = 0 := by
  have hlt : address.toNat < (Array.replicate addressSpaceSize (0 : UInt8)).size := by
    rw [Array.size_replicate]
    exact address.isLt
  change ((Array.replicate addressSpaceSize (0 : UInt8))[address.toNat]).toBitVec = 0
  rw [Array.getElem_replicate]
  rfl

/-- Writing the byte that is there already changes nothing. -/
@[simp] theorem set_get (memory : Memory) (address : Word) :
    memory.set address (memory.get address) = memory := by
  apply ext
  intro other
  rw [get_set]
  split
  · next heq => rw [heq]
  · rfl

end Memory

end Sm83

import Sm83.Memory

/-!
# Runs of bytes in memory

Writing, comparing and reading a run of bytes at consecutive addresses. A run wraps from the last
address to the first, and one longer than the address space overwrites its own beginning. Loading an
image is the exception: it replaces the whole memory, and bytes past the end of the address space
are dropped.
-/

namespace Sm83

namespace Memory

/-- Writes the bytes in order from `address` on. -/
def writeAll (memory : Memory) (address : Word) : List Byte → Memory
  | [] => memory
  | value :: rest => (memory.set address value).writeAll (address + 1) rest

/-- Whether the memory from `address` on holds exactly these bytes. -/
def holds (memory : Memory) (address : Word) : List Byte → Bool
  | [] => true
  | value :: rest => memory.get address == value && memory.holds (address + 1) rest

/-- The `count` bytes from `address` on. -/
def window (memory : Memory) (address : Word) : Nat → List Byte
  | 0 => []
  | count + 1 => memory.get address :: memory.window (address + 1) count

/-- The memory with the same byte everywhere. -/
def fill (memory : Memory) (value : Byte) : Memory where
  bytes := ⟨memory.bytes.data.map fun _ => UInt8.ofBitVec value⟩
  size_bytes := by
    obtain ⟨⟨bytes⟩, hsize⟩ := memory
    simpa [ByteArray.size] using hsize

@[simp] theorem get_fill (memory : Memory) (value : Byte) (address : Word) :
    (memory.fill value).get address = value := by
  obtain ⟨⟨bytes⟩, hsize⟩ := memory
  have hlt : address.toNat < (bytes.map fun _ => UInt8.ofBitVec value).size := by
    change bytes.size = addressSpaceSize at hsize
    rw [Array.size_map, hsize]
    exact address.isLt
  change ((bytes.map fun _ => UInt8.ofBitVec value)[address.toNat]).toBitVec = value
  rw [Array.getElem_map]

/-- The memory filled with an image from address zero on, and with zeros after it. -/
def load (image : List Byte) : Memory := zero.writeAll 0 (image.take addressSpaceSize)

@[simp] theorem length_window (memory : Memory) (address : Word) (count : Nat) :
    (memory.window address count).length = count := by
  induction count generalizing address with
  | zero => rfl
  | succ count ih => simp [window, ih]

theorem holds_window (memory : Memory) (address : Word) (count : Nat) :
    memory.holds address (memory.window address count) = true := by
  induction count generalizing address with
  | zero => rfl
  | succ count ih => simp [window, holds, ih]

/-- What a place holds is what is read from it. -/
theorem holds_iff (memory : Memory) (address : Word) (bytes : List Byte) :
    memory.holds address bytes = true ↔ memory.window address bytes.length = bytes := by
  induction bytes generalizing address with
  | nil => simp [holds, window]
  | cons value rest ih => simp [holds, window, ih]

end Memory

end Sm83

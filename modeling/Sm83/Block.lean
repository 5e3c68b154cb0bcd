import Sm83.Opcode.Table
import Sm83.Memory.Image

/-!
# Basic blocks

A basic block is a run of instructions of which only the last may transfer control or halt. It keeps
the bytes it was made from, together with the instructions they encode, each at its own address.
Addresses wrap around the address space; a block may be longer than it.
-/

namespace Sm83

/-- An instruction of a block: its address, its opcode, and whether a prefix byte precedes the
opcode. -/
structure Decoded where
  address : Word
  opcode : Opcode
  prefixed : Bool

structure Block where
  start : Word
  bytes : List Byte
  instructions : List Decoded

/-- Why bytes are no basic block. -/
inductive BlockError where
  /-- There are no bytes. -/
  | empty (address : Word)
  /-- The bytes end inside the instruction at this address. -/
  | truncated (address : Word)
  /-- A byte at this address follows the instruction that ends the block. -/
  | trailing (address : Word)
  deriving DecidableEq

def BlockError.message : BlockError → String
  | .empty address => s!"empty block at 0x{Word.hex address}"
  | .truncated address => s!"block ends inside the instruction at 0x{Word.hex address}"
  | .trailing address => s!"trailing bytes after the block terminator at 0x{Word.hex address}"

namespace Block

/-- Whether one of the block's bytes lies at the address. -/
def contains (block : Block) (address : Word) : Bool :=
  (address - block.start).toNat < block.bytes.length

/-- The cycles the block takes when every condition holds. -/
def cycles (block : Block) : Nat :=
  block.instructions.foldr (fun decoded cycles => decoded.opcode.cycles + cycles) 0

/-- Whether the block shares an address with the range from `first` to `last`, which may wrap. -/
def overlaps (block : Block) (first last : Word) : Bool :=
  (block.start - first).toNat ≤ (last - first).toNat || block.contains first

end Block

end Sm83

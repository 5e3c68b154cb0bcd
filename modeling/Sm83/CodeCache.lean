import Std.Data.ExtTreeMap
import Sm83.Routine

/-!
# The code cache

Compiled blocks are kept by their start addresses, at most one for each address, together with the
bytes they were compiled from. Whoever calls a routine directly has to drop the blocks whose code is
overwritten; `CodeCache.lookup` needs no such care, since it compares the bytes with memory and
compiles anew what has changed.
-/

namespace Sm83

/-- A block and its compiled form. -/
structure Compiled where
  block : Block
  routine : Routine

structure CodeCache where
  blocks : Std.ExtTreeMap Word Compiled

namespace CodeCache

def empty : CodeCache := { blocks := ∅ }

instance : Inhabited CodeCache := ⟨empty⟩

def size (cache : CodeCache) : Nat := cache.blocks.size

def isEmpty (cache : CodeCache) : Bool := cache.blocks.isEmpty

/-- The cached blocks with their start addresses, in ascending order. -/
def toList (cache : CodeCache) : List (Word × Compiled) := cache.blocks.toList

def get? (cache : CodeCache) (start : Word) : Option Compiled := cache.blocks[start]?

/-- What a request for a routine comes to: the routine, or why there is none, and the cache as the
request leaves it. -/
structure Prepared where
  result : Except BlockError Routine
  cache : CodeCache

/-- Compiles a block and keeps it in the place of one that starts where it does. -/
def insert (cache : CodeCache) (block : Block) : Prepared :=
  let routine := block.compile
  { result := .ok routine
    cache := { blocks := cache.blocks.insert block.start { block, routine } } }

/-- Compiles what was found to be a block. What is none is reported. -/
def accept (cache : CodeCache) : Except BlockError Block → Prepared
  | .ok block => cache.insert block
  | .error error => { result := .error error, cache }

/-- Asks for the routine for these bytes at `start`, which is compiled unless it is cached. -/
def compile (cache : CodeCache) (start : Word) (bytes : List Byte) : Prepared :=
  match (cache.get? start).filter (·.block.bytes == bytes) with
  | some compiled => { result := .ok compiled.routine, cache }
  | none => cache.accept (Block.decode start bytes)

/-- Asks for the routine for the block in memory at the program counter, which is compiled unless it
is cached and its code is unchanged. The machine stays as it is: reading the program counter is no
access to memory (`Operand.read_wordRegister`), and neither is a comparison or a scan. -/
def lookup (cache : CodeCache) (machine : Machine) : Prepared :=
  let start := machine.word .pc
  match (cache.get? start).filter (machine.memory.holds start ·.block.bytes) with
  | some compiled => { result := .ok compiled.routine, cache }
  | none => cache.accept (Block.discover machine.memory start)

/-- Drops the block that starts at the address, and tells whether there was one. -/
def invalidate (cache : CodeCache) (start : Word) : Bool × CodeCache :=
  (cache.blocks.contains start, { blocks := cache.blocks.erase start })

/-- Drops every block that has code in the range from `first` to `last`, which may wrap, and tells
how many there were. -/
def invalidateRange (cache : CodeCache) (first last : Word) : Nat × CodeCache :=
  let kept := cache.blocks.filter fun _ compiled => !compiled.block.overlaps first last
  (cache.blocks.size - kept.size, { blocks := kept })

end CodeCache

end Sm83

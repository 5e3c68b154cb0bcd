import Sm83.Block
import Sm83.Proofs.Memory

/-!
# Blocks and ranges of addresses

A block and a range overlap when some byte of the block lies in the range. Both may wrap around the
address space, and the block may be longer than it; still two comparisons decide the matter, since
two runs of addresses on a circle meet only if one of them starts inside the other. What is written
into a range that a block does not overlap leaves the bytes of the block in place.
-/

namespace Sm83

namespace Block

variable {block : Block} {first last : Word}

/-- If the block starts outside the range and the range outside the block, they share no address. -/
theorem span_lt_of_not_overlaps (hoverlaps : block.overlaps first last = false) {index : Nat}
    (hindex : index < block.bytes.length) :
    (last - first).toNat < (block.start + BitVec.ofNat 16 index - first).toNat := by
  rw [overlaps, Bool.or_eq_false_iff, contains, decide_eq_false_iff_not,
    decide_eq_false_iff_not] at hoverlaps
  obtain ⟨hstart, hfirst⟩ := hoverlaps
  -- The block ends before it comes round to the start of the range again.
  have hsmall : index < 2 ^ 16 := by bv_omega
  bv_omega

theorem overlaps_iff (hbytes : block.bytes ≠ []) :
    block.overlaps first last = true ↔
      ∃ index < block.bytes.length,
        (block.start + BitVec.ofNat 16 index - first).toNat ≤ (last - first).toNat := by
  constructor
  · intro hoverlaps
    rw [overlaps, Bool.or_eq_true, contains, decide_eq_true_iff, decide_eq_true_iff] at hoverlaps
    rcases hoverlaps with hstart | hfirst
    · exact ⟨0, List.length_pos_iff.mpr hbytes, by simpa using hstart⟩
    · refine ⟨(first - block.start).toNat, hfirst, ?_⟩
      bv_omega
  · rintro ⟨index, hindex, hinside⟩
    rw [← Bool.not_eq_false]
    intro hoverlaps
    exact absurd hinside (Nat.not_le.mpr (span_lt_of_not_overlaps hoverlaps hindex))

end Block

/-- The last address that a run of bytes reaches. -/
def Memory.lastWritten (address : Word) (bytes : List Byte) : Word :=
  address + BitVec.ofNat 16 bytes.length - 1

theorem Memory.span_lastWritten {bytes : List Byte} (hsome : 1 ≤ bytes.length)
    (hfits : bytes.length ≤ addressSpaceSize) (address : Word) :
    (lastWritten address bytes - address).toNat + 1 = bytes.length := by
  rw [addressSpaceSize] at hfits
  rw [lastWritten]
  bv_omega

/-- A block stays in memory when bytes are written to a range that it does not overlap. -/
theorem Block.holds_writeAll_of_not_overlaps {block : Block} {memory : Memory} {address : Word}
    {bytes : List Byte} (hsome : 1 ≤ bytes.length) (hfits : bytes.length ≤ addressSpaceSize)
    (hoverlaps : block.overlaps address (Memory.lastWritten address bytes) = false)
    (hholds : memory.holds block.start block.bytes = true) :
    (memory.writeAll address bytes).holds block.start block.bytes = true := by
  rw [Memory.holds_iff_forall_get] at hholds ⊢
  intro index hindex
  have hspan := Memory.span_lastWritten hsome hfits address
  have hafter := span_lt_of_not_overlaps hoverlaps hindex
  rw [Memory.get_writeAll_of_length_le (by omega), hholds index hindex]

end Sm83

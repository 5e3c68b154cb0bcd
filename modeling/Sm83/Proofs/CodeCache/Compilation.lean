import Sm83.Proofs.Block.Cost
import Sm83.Proofs.Block.Grammar
import Sm83.Proofs.CodeCache.History

/-!
# Compiling into a cache

What a cache holds makes no difference to the result of compiling bytes: they are refused for the
reason for which decoding refuses them, and otherwise their block is cached from then on, at its own
address only. This rests on what all caches that can come about have in common, that every cached
block is what decoding makes of its bytes.
-/

namespace Sm83

namespace CodeCache

variable {cache : CodeCache} {start : Word} {bytes : List Byte} {block : Block}

theorem Reachable.insert (hreachable : Reachable cache)
    (hdecode : Block.decode start bytes = .ok block) : Reachable (cache.insert block).cache := by
  rw [← compile_of_decode hreachable.accepted hdecode]
  exact .act hreachable trivial (.compiled cache start bytes)

/-- Whatever is cached, compiling bytes succeeds if and only if they decode, and it fails with the
same error and leaves the cache as it was. A block that was compiled is in the cache with its
routine, nothing else has changed there, and compiling it again changes nothing at all. -/
theorem compile_agrees_with_decode (hreachable : Reachable cache) (start : Word)
    (bytes : List Byte) :
    ((∃ routine, (cache.compile start bytes).result = .ok routine) ↔
        ∃ block, Block.decode start bytes = .ok block) ∧
      (∀ error, Block.decode start bytes = .error error →
        (cache.compile start bytes).result = .error error ∧
          (cache.compile start bytes).cache = cache) ∧
      ∀ block, Block.decode start bytes = .ok block →
        ∃ after, cache.compile start bytes = ⟨.ok block.compile, after⟩ ∧
          after.get? start = some ⟨block, block.compile⟩ ∧
          (∀ other, other ≠ start → after.get? other = cache.get? other) ∧
          after.compile start bytes = ⟨.ok block.compile, after⟩ := by
  have hall := hreachable.accepted
  rw [compile_eq_accept hall]
  refine ⟨?_, ?_, ?_⟩
  · cases Block.decode start bytes with
    | error error => simp [accept]
    | ok block => exact ⟨fun _ => ⟨block, rfl⟩, fun _ => ⟨block.compile, rfl⟩⟩
  · intro error hdecode
    rw [hdecode]
    exact ⟨rfl, rfl⟩
  · intro block hdecode
    obtain ⟨-, hstart, -, -⟩ := Block.decode_eq_ok_iff.mp hdecode
    have hget : (cache.insert block).cache.get? start = some ⟨block, block.compile⟩ := by
      rw [get?_insert, if_pos hstart]
    refine ⟨(cache.insert block).cache, ?_, hget, ?_, ?_⟩
    · rw [hdecode]
      rfl
    · intro other hother
      rw [get?_insert, hstart, if_neg (Ne.symm hother)]
    · rw [compile_of_decode (hreachable.insert hdecode).accepted hdecode]
      exact (Compiled.accepted_of_decode hdecode).insert_block hget

/-- The cache that holds the loop across the end of memory. -/
def withLoop : CodeCache := (empty.insert Block.loopAcrossEnd).cache

theorem reachable_withLoop : Reachable withLoop :=
  Reachable.insert .empty Block.decode_loopAcrossEnd

theorem get?_withLoop :
    withLoop.get? 0xFFFF = some ⟨Block.loopAcrossEnd, Block.loopAcrossEnd.compile⟩ := by
  rw [withLoop, get?_insert]
  rfl

/-- Without its last byte the loop ends inside the jump, which is at address zero. -/
theorem decode_loop_truncated :
    Block.decode 0xFFFF [0x3C, 0x20] = .error (.truncated 0x0000) := by
  have hfirst : Block.InstructionAt [0x3C, 0x20] 0 (Opcode.base 0x3C) false := by
    refine .base rfl (by decide) ?_
    rw [Block.length_countUp]
    decide
  have hboundary : Block.Boundary [0x3C, 0x20] 1 := by
    have hnext := Block.Boundary.next .front hfirst Block.endsBlock_countUp
    rw [Block.length_countUp] at hnext
    exact hnext
  refine Block.decode_eq_truncated_iff.mpr ⟨1, hboundary, ⟨0x20, rfl, ?_⟩, rfl⟩
  rw [Opcode.encodedLength, if_neg (by decide), Opcode.base_eq_describeBase]
  decide

/-- The loop stays cached when a replacement for it is refused, and when it is compiled again. -/
theorem compile_agrees_with_decode_withLoop :
    Reachable withLoop ∧
      (withLoop.compile 0xFFFF [0x3C, 0x20]).result = .error (.truncated 0x0000) ∧
      (withLoop.compile 0xFFFF [0x3C, 0x20]).cache.get? 0xFFFF =
        some ⟨Block.loopAcrossEnd, Block.loopAcrossEnd.compile⟩ ∧
      ∃ after, withLoop.compile 0xFFFF [0x3C, 0x20, 0xFD] =
          ⟨.ok Block.loopAcrossEnd.compile, after⟩ ∧
        after.compile 0xFFFF [0x3C, 0x20, 0xFD] = ⟨.ok Block.loopAcrossEnd.compile, after⟩ := by
  obtain ⟨-, hfails, -⟩ := compile_agrees_with_decode reachable_withLoop 0xFFFF [0x3C, 0x20]
  obtain ⟨-, -, hsucceeds⟩ :=
    compile_agrees_with_decode reachable_withLoop 0xFFFF [0x3C, 0x20, 0xFD]
  obtain ⟨hresult, hcache⟩ := hfails _ decode_loop_truncated
  obtain ⟨after, hcompile, -, -, hagain⟩ := hsucceeds _ Block.decode_loopAcrossEnd
  refine ⟨reachable_withLoop, hresult, ?_, after, hcompile, hagain⟩
  rw [hcache]
  exact get?_withLoop

end CodeCache

end Sm83

import Mathlib.Data.Set.Card
import Sm83.Proofs.Block.Overlap
import Sm83.Proofs.CodeCache.Compilation

/-!
# What the invalidation of a range drops

A range goes from its first address to its last, past the end of the address space where the last
lies before the first. Invalidating it drops the blocks that have a byte in it and leaves all others
alone, wherever blocks and range wrap and however long a block is. The number that is returned is
that of the addresses at which there is no block any more.
-/

namespace Sm83

namespace Word

variable {first last address : Word}

/-- The address is `first`, or one of those that follow up to `last`. -/
def InRange (first last address : Word) : Prop :=
  ∃ distance ≤ (last - first).toNat, address = first + BitVec.ofNat 16 distance

theorem inRange_iff :
    InRange first last address ↔ (address - first).toNat ≤ (last - first).toNat := by
  constructor
  · rintro ⟨distance, hdistance, rfl⟩
    bv_omega
  · intro hle
    exact ⟨(address - first).toNat, hle, by bv_omega⟩

end Word

namespace CodeCache

variable {cache : CodeCache} {first last start : Word} {compiled : Compiled}

/-- The addresses at which the first cache has a block and the second has none. -/
def lost (before after : CodeCache) : Set Word :=
  {start | before.get? start ≠ none ∧ after.get? start = none}

theorem mem_toList_iff : (start, compiled) ∈ cache.toList ↔ cache.get? start = some compiled :=
  Std.ExtTreeMap.mem_toList_iff_getElem?_eq_some

/-- There is no more than one block at an address. -/
theorem nodup_map_fst_toList (cache : CodeCache) : (cache.toList.map Prod.fst).Nodup := by
  rw [toList, Std.ExtTreeMap.map_fst_toList_eq_keys]
  exact Std.ExtTreeMap.nodup_keys

theorem get?_invalidateRange_eq_none_iff (hget : cache.get? start = some compiled) :
    (cache.invalidateRange first last).2.get? start = none ↔
      compiled.block.overlaps first last = true := by
  rw [get?_invalidateRange, hget, Option.filter_some]
  cases compiled.block.overlaps first last <;> simp

theorem fst_invalidateRange (cache : CodeCache) (first last : Word) :
    (cache.invalidateRange first last).1 =
      (cache.toList.filter fun entry => entry.2.block.overlaps first last).length := by
  have hsplit := List.length_eq_length_filter_add (l := cache.toList)
    fun entry => entry.2.block.overlaps first last
  simp only [invalidateRange, ← Std.ExtTreeMap.length_toList, Std.ExtTreeMap.toList_filter]
  rw [toList] at hsplit
  rw [toList]
  omega

theorem lost_invalidateRange (cache : CodeCache) (first last : Word) :
    lost cache (cache.invalidateRange first last).2 =
      ((cache.toList.filter fun entry => entry.2.block.overlaps first last).map
        Prod.fst).toFinset := by
  ext start
  simp only [lost, Set.mem_ofPred_eq, List.coe_toFinset, List.mem_map, List.mem_filter]
  constructor
  · intro hlost
    obtain ⟨hcached, hnone⟩ := hlost
    obtain ⟨compiled, hget⟩ := Option.ne_none_iff_exists'.mp hcached
    exact ⟨(start, compiled),
      ⟨mem_toList_iff.mpr hget, (get?_invalidateRange_eq_none_iff hget).mp hnone⟩, rfl⟩
  · rintro ⟨⟨place, compiled⟩, ⟨hmem, hoverlaps⟩, rfl⟩
    have hget := mem_toList_iff.mp hmem
    refine ⟨?_, (get?_invalidateRange_eq_none_iff hget).mpr hoverlaps⟩
    rw [hget]
    exact Option.some_ne_none _

theorem ncard_lost_invalidateRange (cache : CodeCache) (first last : Word) :
    (lost cache (cache.invalidateRange first last).2).ncard =
      (cache.invalidateRange first last).1 := by
  have hnodup := cache.nodup_map_fst_toList.sublist ((List.filter_sublist
    (p := fun entry : Word × Compiled => entry.2.block.overlaps first last)).map Prod.fst)
  rw [lost_invalidateRange, Set.ncard_coe_finset, List.toFinset_card_of_nodup hnodup,
    List.length_map, fst_invalidateRange]

/-- Of all cached blocks those with a byte in the range are dropped and counted, and no others are
touched. -/
theorem invalidateRange_drops_overlapping (hreachable : Reachable cache) (first last : Word) :
    (∀ start compiled, cache.get? start = some compiled →
        ((cache.invalidateRange first last).2.get? start = none ↔
          ∃ index < compiled.block.bytes.length,
            Word.InRange first last (start + BitVec.ofNat 16 index))) ∧
      (cache.invalidateRange first last).1 =
        (lost cache (cache.invalidateRange first last).2).ncard ∧
      ∀ start, (cache.invalidateRange first last).2.get? start ≠ none →
        (cache.invalidateRange first last).2.get? start = cache.get? start := by
  refine ⟨?_, (ncard_lost_invalidateRange cache first last).symm, ?_⟩
  · intro start compiled hget
    obtain ⟨hdecode, -⟩ := hreachable.accepted start compiled hget
    obtain ⟨hbytes, hstart, -, -⟩ := Block.decode_eq_ok_iff.mp hdecode
    rw [get?_invalidateRange_eq_none_iff hget, Block.overlaps_iff hbytes, hstart]
    simp only [Word.inRange_iff]
  · intro start hkept
    obtain ⟨compiled, hget⟩ := Option.ne_none_iff_exists'.mp hkept
    rw [hget]
    rw [get?_invalidateRange, Option.filter_eq_some_iff] at hget
    exact hget.1.symm

theorem invalidateRange_drops_overlapping_withLoop :
    Reachable withLoop ∧
      withLoop.get? 0xFFFF = some ⟨Block.loopAcrossEnd, Block.loopAcrossEnd.compile⟩ ∧
      (withLoop.invalidateRange 0x0001 0x0001).2.get? 0xFFFF = none ∧
      (withLoop.invalidateRange 0x0002 0xFFFE).2.get? 0xFFFF ≠ none := by
  refine ⟨reachable_withLoop, get?_withLoop, ?_, ?_⟩
  · obtain ⟨hdrops, -, -⟩ := invalidateRange_drops_overlapping reachable_withLoop 0x0001 0x0001
    rw [hdrops _ _ get?_withLoop]
    exact ⟨2, by decide, 0, by decide, by decide⟩
  · obtain ⟨hdrops, -, -⟩ := invalidateRange_drops_overlapping reachable_withLoop 0x0002 0xFFFE
    rw [ne_eq, hdrops _ _ get?_withLoop]
    rintro ⟨index, hindex, hrange⟩
    have hsmall : index < 3 := hindex
    rw [Word.inRange_iff] at hrange
    bv_omega

end CodeCache

end Sm83

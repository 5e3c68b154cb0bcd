import Sm83.CodeCache
import Sm83.Proofs.Block.Discovery

/-!
# What a code cache holds

Every operation on a cache is described by what is cached afterwards at each address. A property
that all cached blocks share (`CodeCache.All`) therefore survives every operation as soon as the
blocks that are compiled have it. Looking up a routine never fails, and the block it belongs to is
cached at the program counter from then on. Where all cached blocks are accepted, finding a block in
the cache comes to the same as compiling it anew (`CodeCache.compile_eq_accept`).
-/

namespace Sm83

namespace CodeCache

variable {cache : CodeCache} {property : Word → Compiled → Prop}

/-! ### The operations, address by address -/

theorem get?_empty (start : Word) : empty.get? start = none := by
  rw [get?, empty]
  exact Std.ExtTreeMap.getElem?_empty

theorem get?_insert (cache : CodeCache) (block : Block) (start : Word) :
    (cache.insert block).cache.get? start =
      if block.start = start then some ⟨block, block.compile⟩ else cache.get? start := by
  simp only [get?, insert, Std.ExtTreeMap.getElem?_insert, Std.compare_eq_iff_eq]

theorem get?_invalidate (cache : CodeCache) (dropped start : Word) :
    (cache.invalidate dropped).2.get? start =
      if dropped = start then none else cache.get? start := by
  simp only [get?, invalidate, Std.ExtTreeMap.getElem?_erase, Std.compare_eq_iff_eq]

theorem get?_invalidateRange (cache : CodeCache) (first last start : Word) :
    (cache.invalidateRange first last).2.get? start =
      (cache.get? start).filter fun compiled => !compiled.block.overlaps first last := by
  simp only [get?, invalidateRange, Std.ExtTreeMap.getElem?_filter']

/-- A cache is what it has at each address. -/
theorem ext_get? {cache cache' : CodeCache} (hget : ∀ start, cache.get? start = cache'.get? start) :
    cache = cache' :=
  congrArg mk (Std.ExtTreeMap.ext_getElem? hget)

/-! ### Properties of all cached blocks -/

/-- Every cached block has the property at its address. -/
def All (cache : CodeCache) (property : Word → Compiled → Prop) : Prop :=
  ∀ start compiled, cache.get? start = some compiled → property start compiled

/-- Every block that can be discovered has the property. -/
def OfDiscovery (property : Word → Compiled → Prop) : Prop :=
  ∀ memory start block, Block.discover memory start = .ok block →
    property start ⟨block, block.compile⟩

theorem all_empty (property : Word → Compiled → Prop) : empty.All property := by
  intro start compiled hget
  rw [get?_empty] at hget
  cases hget

theorem All.insert (hall : cache.All property) {block : Block}
    (hblock : property block.start ⟨block, block.compile⟩) :
    (cache.insert block).cache.All property := by
  intro start compiled hget
  rw [get?_insert] at hget
  by_cases hstart : block.start = start
  · rw [if_pos hstart] at hget
    cases hget
    rw [← hstart]
    exact hblock
  · rw [if_neg hstart] at hget
    exact hall start compiled hget

theorem All.invalidate (hall : cache.All property) (dropped : Word) :
    (cache.invalidate dropped).2.All property := by
  intro start compiled hget
  rw [get?_invalidate] at hget
  by_cases hstart : dropped = start
  · rw [if_pos hstart] at hget
    cases hget
  · rw [if_neg hstart] at hget
    exact hall start compiled hget

theorem All.invalidateRange (hall : cache.All property) (first last : Word) :
    (cache.invalidateRange first last).2.All property := by
  intro start compiled hget
  rw [get?_invalidateRange, Option.filter_eq_some_iff] at hget
  exact hall start compiled hget.1

/-! ### Compiling and looking up -/

theorem compile_cases (cache : CodeCache) (start : Word) (bytes : List Byte) :
    (∃ compiled, cache.get? start = some compiled ∧ compiled.block.bytes = bytes ∧
        cache.compile start bytes = ⟨.ok compiled.routine, cache⟩) ∨
      cache.compile start bytes = cache.accept (Block.decode start bytes) := by
  rw [compile]
  cases hcached : (cache.get? start).filter (·.block.bytes == bytes) with
  | none => exact .inr rfl
  | some compiled =>
    obtain ⟨hget, hbytes⟩ := Option.filter_eq_some_iff.mp hcached
    exact .inl ⟨compiled, hget, beq_iff_eq.mp hbytes, rfl⟩

theorem lookup_cases (cache : CodeCache) (machine : Machine) :
    (∃ compiled, cache.get? (machine.word .pc) = some compiled ∧
        machine.memory.holds (machine.word .pc) compiled.block.bytes = true ∧
        cache.lookup machine = ⟨.ok compiled.routine, cache⟩) ∨
      ∃ block, Block.discover machine.memory (machine.word .pc) = .ok block ∧
        cache.lookup machine = cache.insert block := by
  rw [lookup]
  cases hcached : (cache.get? (machine.word .pc)).filter
      (machine.memory.holds (machine.word .pc) ·.block.bytes) with
  | none =>
    obtain ⟨block, hdiscover⟩ := Block.exists_discover_eq_ok machine.memory (machine.word .pc)
    refine .inr ⟨block, hdiscover, ?_⟩
    simp only [hdiscover]
    rfl
  | some compiled =>
    obtain ⟨hget, hholds⟩ := Option.filter_eq_some_iff.mp hcached
    exact .inl ⟨compiled, hget, hholds, rfl⟩

theorem All.compile (hall : cache.All property) {start : Word} {bytes : List Byte}
    (hdecoded : ∀ block, Block.decode start bytes = .ok block →
      property start ⟨block, block.compile⟩) :
    (cache.compile start bytes).cache.All property := by
  rcases cache.compile_cases start bytes with ⟨compiled, -, -, hcached⟩ | hdecode
  · rw [hcached]
    exact hall
  · rw [hdecode]
    cases hblock : Block.decode start bytes with
    | error error => exact hall
    | ok block =>
      have hstart : block.start = start := (Block.decode_eq_ok_iff.mp hblock).2.1
      apply hall.insert
      rw [hstart]
      exact hdecoded block hblock

/-- A lookup yields the routine of a block whose bytes are in memory at the program counter, and
which is in the cache from then on. -/
theorem All.lookup (hall : cache.All property) (hdiscovered : OfDiscovery property)
    (machine : Machine) :
    ∃ compiled after, cache.lookup machine = ⟨.ok compiled.routine, after⟩ ∧
      after.get? (machine.word .pc) = some compiled ∧
      property (machine.word .pc) compiled ∧
      machine.memory.holds (machine.word .pc) compiled.block.bytes = true ∧
      after.All property := by
  rcases cache.lookup_cases machine with ⟨compiled, hget, hholds, hlookup⟩ | hfound
  · exact ⟨compiled, cache, hlookup, hget, hall _ _ hget, hholds, hall⟩
  · obtain ⟨block, hdiscover, hlookup⟩ := hfound
    have hstart : block.start = machine.word .pc :=
      (Block.decode_eq_ok_iff.mp (Block.decode_of_discover hdiscover)).2.1
    have hblock := hdiscovered _ _ _ hdiscover
    refine ⟨⟨block, block.compile⟩, (cache.insert block).cache, hlookup, ?_, hblock,
      Block.holds_of_discover hdiscover, ?_⟩
    · rw [get?_insert, if_pos hstart]
    · apply hall.insert
      rw [hstart]
      exact hblock

end CodeCache

/-! ### Accepted and discovered blocks -/

/-- The block is accepted at this address, and the routine is what it compiles to. -/
def Compiled.Accepted (start : Word) (compiled : Compiled) : Prop :=
  Block.decode start compiled.block.bytes = .ok compiled.block ∧
    compiled.routine = compiled.block.compile

/-- The block was discovered at this address, and the routine is what it compiles to. -/
def Compiled.Discovered (start : Word) (compiled : Compiled) : Prop :=
  (∃ memory, Block.discover memory start = .ok compiled.block) ∧
    compiled.routine = compiled.block.compile

namespace Compiled

theorem accepted_of_decode {start : Word} {bytes : List Byte} {block : Block}
    (hdecode : Block.decode start bytes = .ok block) : Accepted start ⟨block, block.compile⟩ := by
  have hbytes : block.bytes = bytes := (Block.decode_eq_ok_iff.mp hdecode).2.2.1
  refine ⟨?_, rfl⟩
  rw [hbytes]
  exact hdecode

theorem ofDiscovery_accepted : CodeCache.OfDiscovery Accepted := by
  intro memory start block hdiscover
  exact accepted_of_decode (Block.decode_of_discover hdiscover)

theorem Accepted.steps_ne_nil {start : Word} {compiled : Compiled}
    (haccepted : Accepted start compiled) : compiled.routine.steps ≠ [] := by
  obtain ⟨hdecode, hroutine⟩ := haccepted
  obtain ⟨hbytes, -, -, hencodes⟩ := Block.decode_eq_ok_iff.mp hdecode
  rw [hroutine, Block.compile, ne_eq, List.map_eq_nil_iff]
  exact hencodes.ne_nil hbytes

/-- A block that is cached already need not be inserted. -/
theorem Accepted.insert_block {cache : CodeCache} {start : Word} {compiled : Compiled}
    (haccepted : Accepted start compiled) (hget : cache.get? start = some compiled) :
    cache.insert compiled.block = ⟨.ok compiled.routine, cache⟩ := by
  obtain ⟨hdecode, hroutine⟩ := haccepted
  obtain ⟨-, hstart, -, -⟩ := Block.decode_eq_ok_iff.mp hdecode
  have hsame : (cache.insert compiled.block).cache = cache := by
    apply CodeCache.ext_get?
    intro place
    rw [CodeCache.get?_insert, hstart, ← hroutine]
    split
    · next hplace => rw [← hplace, hget]
    · rfl
  rw [hroutine]
  exact congrArg (CodeCache.Prepared.mk (.ok compiled.block.compile)) hsame

theorem ofDiscovery_discovered : CodeCache.OfDiscovery Discovered := by
  intro memory start block hdiscover
  exact ⟨⟨memory, hdiscover⟩, rfl⟩

/-- Where its bytes are in memory, a block that was discovered once is discovered again. -/
theorem Discovered.discover_eq {start : Word} {compiled : Compiled} {memory : Memory}
    (hdiscovered : Discovered start compiled)
    (hholds : memory.holds start compiled.block.bytes = true) :
    Block.discover memory start = .ok compiled.block := by
  obtain ⟨⟨earlier, hdiscover⟩, -⟩ := hdiscovered
  exact Block.discover_eq_of_holds hdiscover hholds

end Compiled

/-- Compiling decodes the bytes and caches the result, whether it was cached before or not. -/
theorem CodeCache.compile_eq_accept {cache : CodeCache} (hall : cache.All Compiled.Accepted)
    (start : Word) (bytes : List Byte) :
    cache.compile start bytes = cache.accept (Block.decode start bytes) := by
  rcases cache.compile_cases start bytes with ⟨compiled, hget, hbytes, hcompile⟩ | hcompile
  · have haccepted := hall start compiled hget
    have hdecode := haccepted.1
    rw [hbytes] at hdecode
    rw [hcompile, hdecode, ← haccepted.insert_block hget]
    rfl
  · exact hcompile

theorem CodeCache.compile_of_decode {cache : CodeCache} (hall : cache.All Compiled.Accepted)
    {start : Word} {bytes : List Byte} {block : Block}
    (hdecode : Block.decode start bytes = .ok block) :
    cache.compile start bytes = cache.insert block := by
  rw [compile_eq_accept hall, hdecode]
  rfl

end Sm83

import Sm83.Proofs.Block.Overlap
import Sm83.Proofs.CodeCache.Interpretation

/-!
# Calling routines without a lookup

A host that calls cached routines itself, instead of looking them up at every turn, has to see to it
that they are compiled from the code that is in memory. It does so by compiling only what is there,
and by dropping what overlaps a range of addresses each time it has written to them. Kept to in any
order and for any time, this protocol leaves the cache coherent with memory: the bytes of every cached
block are in memory at its start.
-/

namespace Sm83

namespace CodeCache

variable {cache : CodeCache} {memory : Memory}

/-- Every cached block lies in memory as it did when it was compiled. -/
def Coherent (cache : CodeCache) (memory : Memory) : Prop :=
  cache.All fun start compiled => memory.holds start compiled.block.bytes = true

/-- Dropping the blocks that overlap a run of bytes makes up for writing it. -/
theorem Coherent.writeAll (hcoherent : cache.Coherent memory)
    (haccepted : cache.All Compiled.Accepted) {bytes : List Byte} (hsome : 1 ≤ bytes.length)
    (hfits : bytes.length ≤ addressSpaceSize) (address : Word) :
    (cache.invalidateRange address (Memory.lastWritten address bytes)).2.Coherent
      (memory.writeAll address bytes) := by
  intro start compiled hget
  rw [get?_invalidateRange, Option.filter_eq_some_iff, Bool.not_eq_true'] at hget
  obtain ⟨hcached, hoverlaps⟩ := hget
  have hholds := hcoherent start compiled hcached
  have hstart : compiled.block.start = start :=
    (Block.decode_eq_ok_iff.mp (haccepted start compiled hcached).1).2.1
  rw [← hstart] at hholds ⊢
  exact Block.holds_writeAll_of_not_overlaps hsome hfits hoverlaps hholds

/-- What is compiled from memory is coherent with it. -/
theorem Coherent.compile (hcoherent : cache.Coherent memory) {start : Word} {bytes : List Byte}
    (hholds : memory.holds start bytes = true) :
    (cache.compile start bytes).cache.Coherent memory := by
  refine All.compile hcoherent ?_
  intro block hdecode
  rw [(Block.decode_eq_ok_iff.mp hdecode).2.2.1]
  exact hholds

/-! ### The protocol -/

/-- What a host does with a cache and with the memory it is about. -/
inductive HostAction where
  | compile (start : Word) (bytes : List Byte)
  | write (address : Word) (value : Byte)
  | writeAll (address : Word) (bytes : List Byte)
  | load (image : List Byte)
  | invalidate (start : Word)

namespace HostAction

/-- What the protocol asks for beforehand: that what is compiled is in memory, and that a run of
bytes is written to a range of addresses that can be named. -/
def Permitted (action : HostAction) (memory : Memory) : Prop :=
  match action with
  | .compile start bytes => memory.holds start bytes = true
  | .writeAll _ bytes => 1 ≤ bytes.length ∧ bytes.length ≤ addressSpaceSize
  | .write .. | .load _ | .invalidate _ => True

/-- The action together with the invalidation that the protocol asks for afterwards. -/
def perform (action : HostAction) (stage : Stage) : Stage :=
  match action with
  | .compile start bytes => { stage with cache := (stage.cache.compile start bytes).cache }
  | .write address value =>
    { cache := (stage.cache.invalidateRange address address).2
      machine := stage.machine.mapMemory (·.set address value) }
  | .writeAll address bytes =>
    { cache := (stage.cache.invalidateRange address (Memory.lastWritten address bytes)).2
      machine := stage.machine.mapMemory (·.writeAll address bytes) }
  | .load image =>
    { cache := empty
      machine := stage.machine.mapMemory fun _ => Memory.load image }
  | .invalidate start => { stage with cache := (stage.cache.invalidate start).2 }

end HostAction

/-- The stages that a host comes to when it keeps to the protocol from an empty cache on. -/
inductive Hosted : Stage → Prop
  | start (machine : Machine) : Hosted ⟨empty, machine⟩
  | act {stage : Stage} {action : HostAction} (hstage : Hosted stage)
      (hpermitted : action.Permitted stage.machine.memory) : Hosted (action.perform stage)

/-- What the protocol keeps. -/
structure Stage.Sound (stage : Stage) : Prop where
  accepted : stage.cache.All Compiled.Accepted
  coherent : stage.cache.Coherent stage.machine.memory

theorem Stage.Sound.perform {stage : Stage} (hsound : stage.Sound) {action : HostAction}
    (hpermitted : action.Permitted stage.machine.memory) : (action.perform stage).Sound := by
  obtain ⟨haccepted, hcoherent⟩ := hsound
  cases action with
  | compile start bytes =>
    refine ⟨?_, hcoherent.compile hpermitted⟩
    exact haccepted.compile fun block hdecode => Compiled.accepted_of_decode hdecode
  | write address value =>
    -- A single byte is a run of one byte, which ends where it starts.
    have hlast : Memory.lastWritten address [value] = address := BitVec.add_sub_cancel address 1
    have hfits : [value].length ≤ addressSpaceSize := by
      rw [List.length_singleton, addressSpaceSize]
      omega
    have hwritten := hcoherent.writeAll haccepted (Nat.le_refl [value].length) hfits address
    rw [hlast] at hwritten
    exact ⟨haccepted.invalidateRange _ _, hwritten⟩
  | writeAll address bytes =>
    exact ⟨haccepted.invalidateRange _ _,
      hcoherent.writeAll haccepted hpermitted.1 hpermitted.2 address⟩
  | load image => exact ⟨all_empty _, all_empty _⟩
  | invalidate start => exact ⟨haccepted.invalidate start, All.invalidate hcoherent start⟩

theorem Hosted.sound {stage : Stage} (hhosted : Hosted stage) : stage.Sound := by
  induction hhosted with
  | start machine => exact ⟨all_empty _, all_empty _⟩
  | act _ hpermitted ih => exact ih.perform hpermitted

/-- A host that keeps to the protocol calls only routines compiled from what memory holds. -/
theorem hosted_coherent {stage : Stage} (hhosted : Hosted stage) {start : Word}
    {compiled : Compiled} (hget : stage.cache.get? start = some compiled) :
    stage.machine.memory.holds start compiled.block.bytes = true ∧
      Block.decode start (stage.machine.memory.window start compiled.block.bytes.length) =
        .ok compiled.block ∧
      compiled.routine = compiled.block.compile := by
  obtain ⟨haccepted, hcoherent⟩ := hhosted.sound
  have hholds := hcoherent start compiled hget
  obtain ⟨hdecode, hroutine⟩ := haccepted start compiled hget
  refine ⟨hholds, ?_, hroutine⟩
  rw [(Memory.holds_iff _ _ _).mp hholds]
  exact hdecode

/-- A machine that is about to halt. -/
def atHalt : Machine := { memory := Memory.zero.set 0 0x76 }

/-- The block in its memory. -/
def haltBlock : Block :=
  { start := 0, bytes := [0x76], instructions := [⟨0, Opcode.base 0x76, false⟩] }

theorem decode_haltBlock : Block.decode 0 [0x76] = .ok haltBlock := by
  have hends : (Opcode.base 0x76).endsBlock = true := by
    rw [Opcode.base_eq_describeBase]
    rfl
  have hcut : Decoded.cut? 0 [0x76] = some (⟨0, Opcode.base 0x76, false⟩, []) := by
    have hlength : (Opcode.base 0x76).length = 1 := by
      rw [Opcode.base_eq_describeBase]
      rfl
    rw [Decoded.cut?_eq_some_iff, hlength]
    exact ⟨rfl, Nat.le_refl 1, rfl⟩
  exact Block.decode_eq_ok_iff.mpr ⟨List.cons_ne_nil _ _, rfl, rfl, .last hcut hends⟩

/-- The block at address zero is compiled, and then the last bytes of memory are written, right
before it. -/
def hostedAtHalt : Stage :=
  (HostAction.writeAll 0xFFFE [0x18, 0xFE]).perform
    ((HostAction.compile 0 [0x76]).perform ⟨empty, atHalt⟩)

theorem hosted_coherent_at_halt :
    Hosted hostedAtHalt ∧
      hostedAtHalt.cache.get? 0 = some ⟨haltBlock, haltBlock.compile⟩ ∧
      hostedAtHalt.machine.memory.get 0xFFFE = 0x18 ∧
      hostedAtHalt.machine.memory.holds 0 [0x76] = true := by
  have hcompiled : (HostAction.compile 0 [0x76]).perform ⟨empty, atHalt⟩ =
      ⟨(empty.insert haltBlock).cache, atHalt⟩ := by
    rw [HostAction.perform, compile_of_decode (all_empty _) decode_haltBlock]
  have hhosted : Hosted hostedAtHalt := by
    refine .act (.act (.start atHalt) ?_) ⟨by decide, by decide⟩
    rw [HostAction.Permitted, atHalt, Memory.holds, Memory.get_set_self]
    rfl
  have hget : hostedAtHalt.cache.get? 0 = some ⟨haltBlock, haltBlock.compile⟩ := by
    rw [hostedAtHalt, hcompiled]
    simp only [HostAction.perform]
    rw [get?_invalidateRange, get?_insert]
    rfl
  refine ⟨hhosted, hget, ?_, (hosted_coherent hhosted hget).1⟩
  rw [hostedAtHalt, hcompiled]
  exact (Memory.get_set_of_ne (by decide) _ _).trans (Memory.get_set_self _ _ _)

end CodeCache

end Sm83

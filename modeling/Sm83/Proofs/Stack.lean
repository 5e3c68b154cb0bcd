import Sm83.Proofs.Assignment

/-!
# The stack

A push writes a word below the stack pointer, the low byte at the lower address, and moves the
pointer there; a pop reads the word at the pointer and moves the pointer past it. Both wrap around
the address space.
-/

namespace Sm83

namespace Pointer

theorem value_address_push (machine : Machine) :
    (push.address machine).value = machine.word .sp - 2 := by
  have hoffset (value : Word) : value + -2 = value - 2 := by bv_omega
  exact hoffset (machine.word .sp)

theorem advance_push (machine : Machine) :
    push.advance machine = machine.setWord .sp (machine.word .sp - 2) := by
  have hstep (value : Word) : value + -2 = value - 2 := by bv_omega
  rw [← hstep]
  rfl

theorem value_readWord_pop (machine : Machine) :
    (pop.readWord machine).value = machine.memory.word (machine.word .sp) := by
  rw [value_readWord]
  exact congrArg machine.memory.word (BitVec.add_zero (machine.word .sp))

theorem sameData_readWord_pop {before machine : Machine} (hmachine : machine.SameData before) :
    (pop.readWord machine).machine.SameData
      (before.setWord .sp (before.word .sp + 2)) :=
  (pop.sameData_readWord rfl machine).trans (pop.sameData_advance rfl hmachine)

end Pointer

namespace Machine

/-- What pushing a word does. -/
def pushes (machine : Machine) (value : Word) : List Assignment :=
  [.byte (.memory (machine.word .sp - 2)) (Word.low value),
    .byte (.memory (machine.word .sp - 1)) (Word.high value),
    .word .sp (machine.word .sp - 2)]

theorem compatible_pushes (machine : Machine) (value : Word) :
    Assignment.Compatible (machine.pushes value) := by
  have hne : machine.word .sp - 2 ≠ machine.word .sp - 1 := by bv_omega
  have hbytes := Assignment.compatible_memory hne (Word.low value) (Word.high value)
  have hsp : (Assignment.word .sp (machine.word .sp - 2)).IsStorable := ⟨by decide, by decide⟩
  apply hbytes.concat hsp
  rw [List.forall_mem_cons, List.forall_mem_singleton]
  exact ⟨Assignment.spares_word _ _ _ _, Assignment.spares_word _ _ _ _⟩

/-- A push of a source that can be read without other effects. -/
theorem sameData_push {before machine : Machine} (hmachine : machine.SameData before)
    {source : Operand 16} (hread : (source.read machine).machine.SameData machine) :
    (machine.push source).SameData
      (before.assignAll (before.pushes (source.read machine).value)) := by
  have hsame := (SameData.tick (source.read machine).machine).trans (hread.trans hmachine)
  have hsp : (source.read machine).machine.tick.word .sp = before.word .sp :=
    hsame.word .sp (by decide)
  have hhigh : before.word .sp - 2 + 1 = before.word .sp - 1 := by bv_omega
  have hlow := hsame.poke (.memory (before.word .sp - 2)) (Word.low (source.read machine).value)
  have hbytes := hlow.poke (.memory (before.word .sp - 1)) (Word.high (source.read machine).value)
  have hadvance := Pointer.push.sameData_advance rfl hbytes
  have hwrite := Pointer.push.sameData_writeWord rfl (source.read machine).value
    (source.read machine).machine.tick
  rw [Pointer.value_address_push, hsp, hhigh] at hwrite
  rw [Pointer.advance_push (((before.poke _ _).poke _ _))] at hadvance
  exact hwrite.trans hadvance

end Machine

end Sm83

import Mathlib.Algebra.Group.Int.Defs
import Sm83.Operand
import Sm83.Proofs.Memory
import Sm83.Proofs.Registers

/-!
# Pointers that walk through memory

A pointer with a step moves its register after each access, so a run of accesses goes over cells of
memory at equal distances. The register wraps at its own width and the address at that of the address
space: a byte register walks round in the last page, from which the offset may lead away. The cells
are given in integers, with one remainder for the register and one for the address.
-/

namespace Sm83

/-- A pointer on a register, with its step and its offset in integers. -/
structure Walk where
  register : Register
  step : Int
  offset : Int

namespace Register

def width : Register → Nat
  | .byte _ => 8
  | .word _ => 16

/-- The first address that the register can stand for. -/
def page : Register → Int
  | .byte _ => 0xFF00
  | .word _ => 0

def base : Register → Base
  | .byte name => .byteRegister name
  | .word name => .wordRegister name

theorem kept_of_lt {name : Register} (hf : name ≠ .byte .f) (haf : name ≠ .word .af) {value : Word}
    (hlt : value.toNat < 2 ^ name.width) : name.kept value = value := by
  cases name with
  | byte name =>
    have hne : name ≠ .f := fun heq => hf (congrArg _ heq)
    rw [width] at hlt
    rw [← ByteRegister.setWidth_kept, ByteRegister.kept_of_ne hne]
    apply BitVec.eq_of_toNat_eq
    rw [BitVec.toNat_setWidth, Word.toNat_low]
    omega
  | word name =>
    have hne : name ≠ .af := fun heq => haf (congrArg _ heq)
    rw [← WordRegister.kept_eq, WordRegister.kept_of_ne hne]

end Register

namespace Cpu

theorem toNat_get_byte (cpu : Cpu) (name : ByteRegister) :
    (cpu.get (.byte name)).toNat = (cpu.registers.byte name).toNat := by
  have hlt := (cpu.registers.byte name).isLt
  rw [get, Registers.get, BitVec.toNat_setWidth, Nat.mod_eq_of_lt (by omega)]

theorem toNat_get_lt (cpu : Cpu) (name : Register) : (cpu.get name).toNat < 2 ^ name.width := by
  cases name with
  | byte name =>
    rw [toNat_get_byte]
    exact (cpu.registers.byte name).isLt
  | word name => exact (cpu.get (.word name)).isLt

theorem set_get {name : Register} (hf : name ≠ .byte .f) (haf : name ≠ .word .af) (cpu : Cpu) :
    cpu.set name (cpu.get name) = cpu := by
  rw [set, get, Registers.set_get hf haf]

end Cpu

namespace Operand

variable {width : Nat}

/-- Reads a number of times, one after the other. -/
def readMany (operand : Operand width) : Nat → Machine → List (BitVec width) × Machine
  | 0, machine => ([], machine)
  | count + 1, machine =>
    let read := operand.read machine
    let (values, after) := operand.readMany count read.machine
    (read.value :: values, after)

/-- Writes values one after the other. -/
def writeMany (operand : Operand width) : List (BitVec width) → Machine → Machine
  | [], machine => machine
  | value :: values, machine => operand.writeMany values (operand.write value machine)

end Operand

/-- Writes bytes to the addresses that go with them, in order. -/
def Memory.setAll (memory : Memory) : List (Word × Byte) → Memory
  | [] => memory
  | (address, value) :: rest => (memory.set address value).setAll rest

theorem Memory.setAll_append (memory : Memory) (first second : List (Word × Byte)) :
    memory.setAll (first ++ second) = (memory.setAll first).setAll second := by
  induction first generalizing memory with
  | nil => rfl
  | cons write first ih => exact ih _

theorem Memory.get_setAll_of_not_mem {writes : List (Word × Byte)} {address : Word}
    (hnot : address ∉ writes.map Prod.fst) (memory : Memory) :
    (memory.setAll writes).get address = memory.get address := by
  induction writes generalizing memory with
  | nil => rfl
  | cons write rest ih =>
    rw [List.map_cons, List.mem_cons, not_or] at hnot
    rw [setAll, ih hnot.2, get_set_of_ne hnot.1]

/-- No byte is lost where no address is written to twice. -/
theorem Memory.get_setAll_of_mem {writes : List (Word × Byte)}
    (hdistinct : (writes.map Prod.fst).Nodup) {write : Word × Byte} (hmem : write ∈ writes)
    (memory : Memory) : (memory.setAll writes).get write.1 = write.2 := by
  induction writes generalizing memory with
  | nil => cases hmem
  | cons first rest ih =>
    rw [List.map_cons, List.nodup_cons] at hdistinct
    rw [setAll]
    rcases List.mem_cons.mp hmem with rfl | hrest
    · rw [get_setAll_of_not_mem hdistinct.1, get_set_self]
    · exact ih hdistinct.2 hrest _

/-- A byte in memory. -/
def Byte.layout (address : Word) (value : Byte) : List (Word × Byte) := [(address, value)]

/-- A word in memory, the low byte first. -/
def Word.layout (address value : Word) : List (Word × Byte) :=
  [(address, low value), (address + 1, high value)]

namespace Walk

def pointer (walk : Walk) : Pointer where
  base := walk.register.base
  step := BitVec.ofInt 16 walk.step
  offset := BitVec.ofInt 16 walk.offset

/-- What the register holds after `count` accesses. -/
def position (walk : Walk) (start : Word) (count : Nat) : Int :=
  (start.toNat + count * walk.step) % 2 ^ walk.register.width

/-- The address of the access that comes after `count` others. -/
def cell (walk : Walk) (start : Word) (count : Nat) : Word :=
  BitVec.ofInt 16 (walk.register.page + walk.position start count + walk.offset)

/-- The register moved as `count` accesses move it, and the clock. -/
def moved (walk : Walk) (machine : Machine) (count cycles : Nat) : Machine :=
  machine.mapCpu fun cpu =>
    { cpu.set walk.register (BitVec.ofInt 16 (walk.position (cpu.get walk.register) count)) with
      clock := cpu.clock + cycles }

variable (walk : Walk) (start : Word)

theorem toNat_position (count : Nat) :
    ((BitVec.ofInt 16 (walk.position start count)).toNat : Int) = walk.position start count := by
  rw [BitVec.toNat_ofInt, position]
  cases walk.register with
  | byte =>
    rw [Register.width]
    omega
  | word =>
    rw [Register.width]
    omega

theorem position_succ (count : Nat) :
    walk.position (BitVec.ofInt 16 (walk.position start 1)) count =
      walk.position start (count + 1) := by
  rw [position, toNat_position]
  simp only [position, Int.emod_add_emod]
  congr 1
  have hcount : ((count + 1 : Nat) : Int) * walk.step = count * walk.step + walk.step := by
    rw [Int.natCast_add, Int.add_mul, Int.natCast_one, Int.one_mul]
  omega

theorem cell_succ (count : Nat) :
    walk.cell (BitVec.ofInt 16 (walk.position start 1)) count = walk.cell start (count + 1) := by
  rw [cell, position_succ, cell]

theorem toNat_position_lt (count : Nat) :
    (BitVec.ofInt 16 (walk.position start count)).toNat < 2 ^ walk.register.width := by
  have hpositive : (0 : Int) < 2 ^ walk.register.width := Int.pow_pos (by decide)
  have hlt := Int.emod_lt_of_pos (start.toNat + count * walk.step) hpositive
  rw [← position, ← toNat_position] at hlt
  exact_mod_cast hlt

/-! A step in the arithmetic of bytes and words is a step in that of integers, once the remainder is
taken. -/

theorem low_position_one (hwidth : walk.register.width = 8) :
    Word.low start + Word.low (BitVec.ofInt 16 walk.step) =
      Word.low (BitVec.ofInt 16 (walk.position start 1)) := by
  apply BitVec.eq_of_toNat_eq
  rw [BitVec.toNat_add, Word.toNat_low, Word.toNat_low, Word.toNat_low, BitVec.toNat_ofInt,
    BitVec.toNat_ofInt, position, hwidth, Int.natCast_one]
  omega

theorem position_one (hwidth : walk.register.width = 16) :
    start + BitVec.ofInt 16 walk.step = BitVec.ofInt 16 (walk.position start 1) := by
  apply BitVec.eq_of_toNat_eq
  rw [BitVec.toNat_add, BitVec.toNat_ofInt, BitVec.toNat_ofInt, position, hwidth, Int.natCast_one]
  omega

theorem ofHighPage_eq_cell (low : Byte) (hwidth : walk.register.width = 8)
    (hpage : walk.register.page = 0xFF00) :
    Word.ofHighPage low + BitVec.ofInt 16 walk.offset = walk.cell (low.setWidth 16) 0 := by
  have hlow := low.isLt
  have hhigh : (0xFF : Byte).toNat = 255 := rfl
  apply BitVec.eq_of_toNat_eq
  rw [BitVec.toNat_add, Word.ofHighPage, Word.toNat_ofBytes, BitVec.toNat_ofInt, cell, position,
    BitVec.toNat_ofInt, BitVec.toNat_setWidth, hwidth, hpage, Int.natCast_zero]
  omega

theorem add_offset_eq_cell (hwidth : walk.register.width = 16) (hpage : walk.register.page = 0) :
    start + BitVec.ofInt 16 walk.offset = walk.cell start 0 := by
  apply BitVec.eq_of_toNat_eq
  rw [BitVec.toNat_add, BitVec.toNat_ofInt, cell, position, BitVec.toNat_ofInt, hwidth, hpage,
    Int.natCast_zero]
  omega

variable {walk start}

theorem position_zero (hstart : start.toNat < 2 ^ walk.register.width) :
    BitVec.ofInt 16 (walk.position start 0) = start := by
  have hmod : ((start.toNat : Nat) : Int) % 2 ^ walk.register.width = start.toNat :=
    Int.emod_eq_of_lt (Int.natCast_nonneg _) (by exact_mod_cast hstart)
  apply BitVec.eq_of_toNat_eq
  apply Int.ofNat_inj.mp
  rw [toNat_position, position, Int.natCast_zero, Int.zero_mul, Int.add_zero, hmod]

variable (hf : walk.register ≠ .byte .f) (haf : walk.register ≠ .word .af)

include hf haf

theorem get_set_position (registers : Registers) (count : Nat) :
    (registers.set walk.register (BitVec.ofInt 16 (walk.position start count))).get
        walk.register =
      BitVec.ofInt 16 (walk.position start count) := by
  rw [Registers.get_set_self, Register.kept_of_lt hf haf (walk.toNat_position_lt start count)]

theorem get_moved (machine : Machine) (count cycles : Nat) :
    (walk.moved machine count cycles).cpu.get walk.register =
      BitVec.ofInt 16 (walk.position (machine.cpu.get walk.register) count) :=
  get_set_position hf haf machine.cpu.registers count

theorem moved_zero (machine : Machine) : walk.moved machine 0 0 = machine := by
  rw [moved, Machine.mapCpu, position_zero (machine.cpu.toNat_get_lt walk.register),
    Cpu.set_get hf haf]
  rfl

theorem moved_moved (machine : Machine) (count cycles more : Nat) :
    walk.moved (walk.moved machine 1 cycles) count more =
      walk.moved machine (count + 1) (cycles + more) := by
  simp only [moved, Machine.mapCpu, Cpu.get, Cpu.set, get_set_position hf haf, Registers.set_set,
    position_succ, Nat.add_assoc]

omit hf haf in
/-- A register is moved by an integer, whatever its width. -/
theorem advance_base (machine : Machine) :
    walk.register.base.advance (BitVec.ofInt 16 walk.step) machine = walk.moved machine 1 0 := by
  obtain ⟨register, step, offset⟩ := walk
  cases register with
  | byte name =>
    have hvalue := low_position_one ⟨.byte name, step, offset⟩ (machine.cpu.get (.byte name)) rfl
    have hbyte : Word.low (machine.cpu.get (.byte name)) = machine.byte name := Word.low_setWidth _
    rw [hbyte] at hvalue
    simp only [Register.base, Base.advance, hvalue, moved, Machine.setByte, Machine.mapRegisters,
      Machine.mapCpu, Cpu.set, Registers.set, Nat.add_zero]
  | word name =>
    exact congrArg (machine.setWord name)
      (position_one ⟨.word name, step, offset⟩ (machine.word name) rfl)

/-- A pointer without a step does not write to its register, which makes no difference. -/
theorem advance_base_zero (machine : Machine) : walk.register.base.advance 0 machine = machine := by
  obtain ⟨register, step, offset⟩ := walk
  have hsame := Registers.set_get hf haf machine.cpu.registers
  cases register with
  | byte name =>
    rw [Registers.get, Registers.set, Word.low_setWidth] at hsame
    change machine.setByte name (machine.byte name + 0#8) = machine
    rw [BitVec.add_zero]
    exact congrArg (fun registers => machine.mapRegisters fun _ => registers) hsame
  | word name =>
    change machine.setWord name (machine.word name + 0#16) = machine
    rw [BitVec.add_zero]
    exact congrArg (fun registers => machine.mapRegisters fun _ => registers) hsame

theorem advance_pointer (machine : Machine) :
    walk.pointer.advance machine = walk.moved machine 1 0 := by
  rw [Pointer.advance, ← advance_base]
  split
  · next hstep =>
    change BitVec.ofInt 16 walk.step = 0 at hstep
    rw [hstep, advance_base_zero hf haf]
  · rfl

omit hf haf

theorem address_pointer (machine : Machine) :
    walk.pointer.address machine = ⟨walk.cell (machine.cpu.get walk.register) 0, machine⟩ := by
  obtain ⟨register, step, offset⟩ := walk
  cases register with
  | byte name =>
    exact congrArg (fun value => (⟨value, machine⟩ : Access 16))
      (ofHighPage_eq_cell ⟨.byte name, step, offset⟩ (machine.byte name) rfl rfl)
  | word name =>
    exact congrArg (fun value => (⟨value, machine⟩ : Access 16))
      (add_offset_eq_cell ⟨.word name, step, offset⟩ (machine.word name) rfl rfl)

/-! ### Runs of accesses -/

variable {width : Nat} {operand : Operand width}

/-- The bytes that a run of values fills, in the order of writing. -/
def writes (walk : Walk) (layout : Word → BitVec width → List (Word × Byte)) (start : Word)
    (values : List (BitVec width)) : List (Word × Byte) :=
  (values.mapIdx fun index value => layout (walk.cell start index) value).flatten

/-- The operand reads what is in the cell of the walk and moves on. -/
def Reads (walk : Walk) (operand : Operand width) (load : Memory → Word → BitVec width)
    (cycles : Nat) : Prop :=
  ∀ machine : Machine, operand.read machine =
    ⟨load machine.memory (walk.cell (machine.cpu.get walk.register) 0),
      walk.moved machine 1 cycles⟩

/-- The operand writes to the cell of the walk and moves on. -/
def Writes (walk : Walk) (operand : Operand width)
    (layout : Word → BitVec width → List (Word × Byte)) (cycles : Nat) : Prop :=
  ∀ (machine : Machine) (value : BitVec width), operand.write value machine =
    walk.moved
      (machine.mapMemory (·.setAll (layout (walk.cell (machine.cpu.get walk.register) 0) value)))
      1 cycles

section Accesses

variable (hf : walk.register ≠ .byte .f) (haf : walk.register ≠ .word .af)

include hf haf

theorem reads_byteAt : walk.Reads (.byteAt walk.pointer) Memory.get 1 := by
  intro machine
  have hadvance := advance_pointer hf haf machine.tick
  rw [Operand.read, Pointer.readByte, address_pointer]
  exact congrArg (Access.mk _) hadvance

theorem reads_wordAt : walk.Reads (.wordAt walk.pointer) Memory.word 2 := by
  intro machine
  have hadvance := advance_pointer hf haf machine.tick.tick
  rw [Operand.read, Pointer.readWord, address_pointer]
  exact congrArg (Access.mk _) hadvance

theorem writes_byteAt : walk.Writes (.byteAt walk.pointer) Byte.layout 1 := by
  intro machine value
  rw [Operand.write, Pointer.writeByte, address_pointer]
  exact advance_pointer hf haf _

theorem writes_wordAt : walk.Writes (.wordAt walk.pointer) Word.layout 2 := by
  intro machine value
  rw [Operand.write, Pointer.writeWord, address_pointer]
  exact advance_pointer hf haf _

variable {load : Memory → Word → BitVec width} {layout : Word → BitVec width → List (Word × Byte)}
  {cycles : Nat}

theorem Reads.readMany (hreads : walk.Reads operand load cycles) (count : Nat)
    (machine : Machine) :
    operand.readMany count machine =
      ((List.range count).map fun index =>
          load machine.memory (walk.cell (machine.cpu.get walk.register) index),
        walk.moved machine count (cycles * count)) := by
  induction count generalizing machine with
  | zero =>
    rw [Operand.readMany, Nat.mul_zero, moved_zero hf haf]
    rfl
  | succ count ih =>
    have hcycles : cycles + cycles * count = cycles * (count + 1) := by
      rw [Nat.mul_succ, Nat.add_comm]
    rw [Operand.readMany, hreads machine]
    simp only [ih, get_moved hf haf, moved_moved hf haf, hcycles, cell_succ,
      List.range_succ_eq_map, List.map_cons, List.map_map]
    rfl

omit hf haf in
theorem writes_cons (layout : Word → BitVec width → List (Word × Byte)) (start : Word)
    (value : BitVec width) (values : List (BitVec width)) :
    walk.writes layout start (value :: values) =
      layout (walk.cell start 0) value ++
        walk.writes layout (BitVec.ofInt 16 (walk.position start 1)) values := by
  simp only [writes, List.mapIdx_cons, List.flatten_cons, cell_succ]

theorem Writes.writeMany (hwrites : walk.Writes operand layout cycles)
    (values : List (BitVec width)) (machine : Machine) :
    operand.writeMany values machine =
      walk.moved
        (machine.mapMemory
          (·.setAll (walk.writes layout (machine.cpu.get walk.register) values)))
        values.length (cycles * values.length) := by
  induction values generalizing machine with
  | nil =>
    rw [Operand.writeMany, List.length_nil, Nat.mul_zero, moved_zero hf haf]
    rfl
  | cons value values ih =>
    let start := machine.cpu.get walk.register
    let stored := machine.mapMemory (·.setAll (layout (walk.cell start 0) value))
    have hget : (walk.moved stored 1 cycles).cpu.get walk.register =
        BitVec.ofInt 16 (walk.position start 1) :=
      get_moved hf haf stored 1 cycles
    have hcommute (change : Memory → Memory) :
        (walk.moved stored 1 cycles).mapMemory change =
          walk.moved (stored.mapMemory change) 1 cycles := rfl
    have hcycles : cycles + cycles * values.length = cycles * (values.length + 1) := by
      rw [Nat.mul_succ, Nat.add_comm]
    have hstored : stored.mapMemory
          (·.setAll (walk.writes layout (BitVec.ofInt 16 (walk.position start 1)) values)) =
        machine.mapMemory (·.setAll (walk.writes layout start (value :: values))) := by
      simp only [writes_cons, Memory.setAll_append]
      rfl
    rw [Operand.writeMany, hwrites machine value, ih, hget, hcommute, hstored, moved_moved hf haf,
      hcycles, List.length_cons]

/-- What a run of writes has stored is what a run of reads over the same cells finds, if the cells do
not meet. -/
theorem readMany_writeMany (hreads : walk.Reads operand load cycles)
    (hwrites : walk.Writes operand layout cycles)
    (hload : ∀ (memory : Memory) (address : Word) (value : BitVec width),
      (∀ write ∈ layout address value, memory.get write.1 = write.2) → load memory address = value)
    {machine : Machine} {values : List (BitVec width)}
    (hdistinct : ((walk.writes layout (machine.cpu.get walk.register) values).map
      Prod.fst).Nodup) :
    (operand.readMany values.length
      ((operand.writeMany values machine).mapCpu
        (·.set walk.register (machine.cpu.get walk.register)))).1 = values := by
  let start := machine.cpu.get walk.register
  have hrestored (stored : Machine) :
      (stored.mapCpu (·.set walk.register start)).cpu.get walk.register = start := by
    have hkept := Register.kept_of_lt hf haf (machine.cpu.toNat_get_lt walk.register)
    exact (stored.cpu.registers.get_set_self walk.register start).trans hkept
  rw [hwrites.writeMany hf haf, hreads.readMany hf haf, hrestored]
  apply List.ext_getElem
  · rw [List.length_map, List.length_range]
  · intro index hleft hindex
    rw [List.getElem_map, List.getElem_range]
    apply hload
    intro write hwrite
    apply Memory.get_setAll_of_mem hdistinct
    rw [writes, List.mem_flatten]
    exact ⟨_, List.mem_mapIdx.mpr ⟨index, hindex, rfl⟩, hwrite⟩

end Accesses

/-- Reading and writing through a pointer with a step go over the cells of its walk, one after the
other, and change the register, the clock and the cells written, nothing else. -/
theorem streams_memory (hf : walk.register ≠ .byte .f) (haf : walk.register ≠ .word .af)
    (machine : Machine) :
    let start := machine.cpu.get walk.register
    (∀ count, (Operand.byteAt walk.pointer).readMany count machine =
        ((List.range count).map fun index => machine.memory.get (walk.cell start index),
          walk.moved machine count count)) ∧
      (∀ count, (Operand.wordAt walk.pointer).readMany count machine =
        ((List.range count).map fun index => machine.memory.word (walk.cell start index),
          walk.moved machine count (2 * count))) ∧
      (∀ count cycles, (((walk.moved machine count cycles).cpu.get walk.register).toNat : Int) =
        walk.position start count) ∧
      (∀ values, (Operand.byteAt walk.pointer).writeMany values machine =
        walk.moved (machine.mapMemory (·.setAll (walk.writes Byte.layout start values)))
          values.length values.length) ∧
      (∀ values, (Operand.wordAt walk.pointer).writeMany values machine =
        walk.moved (machine.mapMemory (·.setAll (walk.writes Word.layout start values)))
          values.length (2 * values.length)) ∧
      (∀ values, ((walk.writes Byte.layout start values).map Prod.fst).Nodup →
        ((Operand.byteAt walk.pointer).readMany values.length
          (((Operand.byteAt walk.pointer).writeMany values machine).mapCpu
            (·.set walk.register start))).1 = values) ∧
      ∀ values, ((walk.writes Word.layout start values).map Prod.fst).Nodup →
        ((Operand.wordAt walk.pointer).readMany values.length
          (((Operand.wordAt walk.pointer).writeMany values machine).mapCpu
            (·.set walk.register start))).1 = values := by
  refine ⟨?_, ?_, ?_, ?_, ?_, ?_, ?_⟩
  · intro count
    rw [(reads_byteAt hf haf).readMany hf haf, Nat.one_mul]
  · exact fun count => (reads_wordAt hf haf).readMany hf haf count machine
  · intro count cycles
    rw [get_moved hf haf, toNat_position]
  · intro values
    rw [(writes_byteAt hf haf).writeMany hf haf, Nat.one_mul]
  · exact fun values => (writes_wordAt hf haf).writeMany hf haf values machine
  · intro values hdistinct
    refine readMany_writeMany hf haf (reads_byteAt hf haf) (writes_byteAt hf haf) ?_ hdistinct
    intro memory address value hwritten
    exact hwritten (address, value) (List.mem_singleton_self _)
  · intro values hdistinct
    refine readMany_writeMany hf haf (reads_wordAt hf haf) (writes_wordAt hf haf) ?_ hdistinct
    intro memory address value hwritten
    rw [Word.layout, List.forall_mem_cons, List.forall_mem_singleton] at hwritten
    rw [Memory.word, hwritten.1, hwritten.2, Word.ofBytes_low_high]

/-- The offset leads out of the last page, and the register wraps back into it. -/
def aroundLastPage : Walk where
  register := .byte .c
  step := 1
  offset := 2

theorem streams_memory_aroundLastPage :
    (aroundLastPage.writes Byte.layout 0x00FE [1, 2, 3]).map Prod.fst = [0x0000, 0x0001, 0xFF02] ∧
      ((Operand.byteAt aroundLastPage.pointer).readMany 3
        (((Operand.byteAt aroundLastPage.pointer).writeMany [1, 2, 3]
          ((Machine.initial {}).setByte .c 0xFE)).mapCpu (·.set (.byte .c) 0x00FE))).1 =
        [1, 2, 3] ∧
      ((Operand.wordAt aroundLastPage.pointer).readMany 2
        ((Machine.initial {}).setByte .c 0xFE)).2.clock = 4 := by
  have hf : aroundLastPage.register ≠ .byte .f := by decide
  have haf : aroundLastPage.register ≠ .word .af := by decide
  have hcells : (aroundLastPage.writes Byte.layout 0x00FE [1, 2, 3]).map Prod.fst =
      [0x0000, 0x0001, 0xFF02] := by decide
  obtain ⟨-, hwords, -, -, -, hbytes, -⟩ :=
    streams_memory hf haf ((Machine.initial {}).setByte .c 0xFE)
  have hstart : ((Machine.initial {}).setByte .c 0xFE).cpu.get aroundLastPage.register = 0x00FE := by
    decide
  refine ⟨hcells, hbytes [1, 2, 3] ?_, ?_⟩
  · rw [hstart, hcells]
    decide
  · rw [hwords]
    rfl

end Walk

end Sm83

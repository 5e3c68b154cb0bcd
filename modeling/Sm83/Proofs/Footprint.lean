import Sm83.Proofs.Place

/-!
# Memory footprints

Which bytes of memory a change of the machine looks at and which it writes. `Machine.Touches` says
both of a change as carried out in one machine. What is not written stays as it is, and a second
machine that differs in bytes which are not looked at goes through the same change, the bytes that
are written being the same in both afterwards. Such statements compose, and the footprint of an
instruction is put together from those of its accesses: the bytes fetched and the memory cells that
its operands name.
-/

namespace Sm83

namespace Machine

/-- The machine with another memory. -/
def withMemory (memory : Memory) (machine : Machine) : Machine := { machine with memory }

/-- The machines are equal but for the bytes at hidden addresses. -/
structure AgreesOutside (hidden : Word → Prop) (left right : Machine) : Prop where
  cpu : left.cpu = right.cpu
  config : left.config = right.config
  memory : ∀ address, ¬ hidden address → left.memory.get address = right.memory.get address

namespace AgreesOutside

variable {hidden hidden' : Word → Prop} {left right : Machine}

theorem mono (hagree : left.AgreesOutside hidden right)
    (hhidden : ∀ address, hidden address → hidden' address) :
    left.AgreesOutside hidden' right where
  cpu := hagree.cpu
  config := hagree.config
  memory address hshown := hagree.memory address (mt (hhidden address) hshown)

theorem withMemory_eq (hagree : left.AgreesOutside hidden right) :
    withMemory right.memory left = right := by
  obtain ⟨hcpu, hconfig, -⟩ := hagree
  rw [withMemory, hcpu, hconfig]

/-- Machines that nothing is hidden of. -/
theorem eq (hagree : left.AgreesOutside hidden right) (hnone : ∀ address, ¬ hidden address) :
    left = right := by
  have hmemory : left.memory = right.memory :=
    Memory.ext fun address => hagree.memory address (hnone address)
  rw [← hagree.withMemory_eq, ← hmemory]
  rfl

end AgreesOutside

/-- Carried out in this machine, the change depends on no bytes of memory but those read, and puts a
value of its own in each of those written. -/
structure Touches (machine : Machine) (change : Machine → Machine) (reads writes : List Word) :
    Prop where
  keeps : ∀ address, address ∉ writes →
    (change machine).memory.get address = machine.memory.get address
  agrees : ∀ {other : Machine} {hidden : Word → Prop}, machine.AgreesOutside hidden other →
    (∀ address ∈ reads, ¬ hidden address) →
    (change machine).AgreesOutside (fun address => hidden address ∧ address ∉ writes) (change other)

/-- Made in this machine, the access depends on no bytes of memory but those read. It writes none. -/
structure Consults {width : Nat} (machine : Machine) (access : Machine → Access width)
    (reads : List Word) : Prop where
  value : ∀ {other : Machine} {hidden : Word → Prop}, machine.AgreesOutside hidden other →
    (∀ address ∈ reads, ¬ hidden address) → (access machine).value = (access other).value
  touches : machine.Touches (fun before => (access before).machine) reads []

variable {machine : Machine} {width width' : Nat} {reads reads' writes writes' : List Word}

/-- What happens in the processor alone. -/
theorem touches_cpu {change : Machine → Machine}
    (hchange : ∀ before memory,
      change (withMemory memory before) = withMemory memory (change before))
    (machine : Machine) : machine.Touches change [] [] := by
  have hself : change machine = withMemory machine.memory (change machine) :=
    hchange machine machine.memory
  have hmemory : (change machine).memory = machine.memory := by
    rw [hself]
    rfl
  refine ⟨fun address _ => congrArg (·.get address) hmemory, ?_⟩
  intro other hidden hagree _
  rw [← hagree.withMemory_eq, hchange]
  refine ⟨rfl, rfl, ?_⟩
  intro address hshown
  rw [hmemory]
  exact hagree.memory address fun hhidden => hshown ⟨hhidden, List.not_mem_nil⟩

theorem touches_writeByte (machine : Machine) (address : Word) (value : Byte) :
    machine.Touches (·.writeByte address value) [] [address] where
  keeps other hother := Memory.get_set_of_ne (List.ne_of_not_mem_cons hother) _ value
  agrees hagree _ :=
    { cpu := congrArg Cpu.tick hagree.cpu
      config := hagree.config
      memory := by
        intro other hshown
        change (Memory.set _ address value).get other = (Memory.set _ address value).get other
        rw [Memory.get_set, Memory.get_set]
        split
        · rfl
        · next hne =>
          apply hagree.memory other
          intro hhidden
          exact hshown ⟨hhidden, mt List.mem_singleton.mp hne⟩ }

namespace Touches

variable {first second : Machine → Machine}

theorem mono (htouches : machine.Touches first reads writes) (hreads : reads ⊆ reads') :
    machine.Touches first reads' writes where
  keeps := htouches.keeps
  agrees hagree hshown := htouches.agrees hagree fun address hmem => hshown address (hreads hmem)

theorem trans (hfirst : machine.Touches first reads writes)
    (hsecond : (first machine).Touches second reads' writes') :
    machine.Touches (fun before => second (first before)) (reads ++ reads')
      (writes ++ writes') where
  keeps address hmem := by
    rw [List.mem_append, not_or] at hmem
    exact (hsecond.keeps address hmem.2).trans (hfirst.keeps address hmem.1)
  agrees hagree hshown := by
    rw [List.forall_mem_append] at hshown
    -- What the first change writes is the same in both machines from then on.
    have hbetween := hfirst.agrees hagree hshown.1
    have hafter := hsecond.agrees hbetween fun address hmem hhidden =>
      hshown.2 address hmem hhidden.1
    apply hafter.mono
    rintro address ⟨⟨hhidden, hmem⟩, hmem'⟩
    exact ⟨hhidden, List.not_mem_append hmem hmem'⟩

/-- A change that depends on the state of the processor. -/
theorem ofCpu {α : Type} (get : Cpu → α) (change : α → Machine → Machine)
    (htouches : machine.Touches (change (get machine.cpu)) reads writes) :
    machine.Touches (fun before => change (get before.cpu) before) reads writes where
  keeps := htouches.keeps
  agrees hagree hshown := by
    have hchange := htouches.agrees hagree hshown
    rw [hagree.cpu] at hchange ⊢
    exact hchange

theorem thenCpu (htouches : machine.Touches first reads writes) (next : Machine → Machine)
    (hnext : ∀ before memory, next (withMemory memory before) = withMemory memory (next before)) :
    machine.Touches (fun before => next (first before)) reads writes := by
  have hthen := htouches.trans (touches_cpu hnext _)
  rw [List.append_nil, List.append_nil] at hthen
  exact hthen

end Touches

namespace Consults

variable {access : Machine → Access width}

/-- A change that uses the value of an access made before it. -/
theorem bind (hconsults : machine.Consults access reads)
    (next : BitVec width → Machine → Machine)
    (hnext : (access machine).machine.Touches (next (access machine).value) reads' writes) :
    machine.Touches (fun before => next (access before).value (access before).machine)
      (reads ++ reads') writes where
  keeps := (hconsults.touches.trans hnext).keeps
  agrees hagree hshown := by
    have hvalue := hconsults.value hagree (List.forall_mem_append.mp hshown).1
    have hafter := (hconsults.touches.trans hnext).agrees hagree hshown
    rw [hvalue] at hafter ⊢
    exact hafter

theorem bindCpu (hconsults : machine.Consults access reads)
    (next : BitVec width → Machine → Machine)
    (hnext : ∀ value before memory,
      next value (withMemory memory before) = withMemory memory (next value before)) :
    machine.Touches (fun before => next (access before).value (access before).machine)
      reads [] := by
  have hbind := hconsults.bind next (touches_cpu (hnext _) _)
  rw [List.append_nil] at hbind
  exact hbind

/-- An access that uses the value of another one made before it. -/
theorem andThen (hconsults : machine.Consults access reads)
    (next : BitVec width → Machine → Access width')
    (hnext : (access machine).machine.Consults (next (access machine).value) reads') :
    machine.Consults (fun before => next (access before).value (access before).machine)
      (reads ++ reads') where
  value hagree hshown := by
    rw [List.forall_mem_append] at hshown
    have hvalue := hconsults.value hagree hshown.1
    have hbetween := hconsults.touches.agrees hagree hshown.1
    have hafter := hnext.value hbetween fun address hmem hhidden => hshown.2 address hmem hhidden.1
    rw [hvalue] at hafter ⊢
    exact hafter
  touches := hconsults.bind (fun value before => (next value before).machine) hnext.touches

theorem map (hconsults : machine.Consults access reads) (change : BitVec width → BitVec width') :
    machine.Consults (fun before => ⟨change (access before).value, (access before).machine⟩)
      reads where
  value hagree hshown := congrArg change (hconsults.value hagree hshown)
  touches := hconsults.touches

theorem thenCpu (hconsults : machine.Consults access reads) (next : Machine → Machine)
    (hnext : ∀ before memory, next (withMemory memory before) = withMemory memory (next before)) :
    machine.Consults (fun before => ⟨(access before).value, next (access before).machine⟩)
      reads where
  value := hconsults.value
  touches := hconsults.touches.thenCpu next hnext

/-- An access that depends on the state of the processor. -/
theorem ofCpu {α : Type} (get : Cpu → α) (change : α → Machine → Access width)
    (hconsults : machine.Consults (change (get machine.cpu)) reads) :
    machine.Consults (fun before => change (get before.cpu) before) reads where
  value hagree hshown := by
    have hvalue := hconsults.value hagree hshown
    rw [hagree.cpu] at hvalue ⊢
    exact hvalue
  touches := Touches.ofCpu get (fun key before => (change key before).machine) hconsults.touches

end Consults

theorem consults_readByte (machine : Machine) (address : Word) :
    machine.Consults (·.readByte address) [address] where
  value hagree hshown := hagree.memory address (hshown address List.mem_cons_self)
  touches := (touches_cpu (fun _ _ => rfl) machine).mono (List.nil_subset _)

theorem consults_readWord (machine : Machine) (address : Word) :
    machine.Consults (·.readWord address) [address, address + 1] :=
  (machine.consults_readByte address).andThen
    (fun low before =>
      ⟨Word.ofBytes low (before.readByte (address + 1)).value,
        (before.readByte (address + 1)).machine⟩)
    ((consults_readByte _ (address + 1)).map _)

theorem touches_writeWord (machine : Machine) (address value : Word) :
    machine.Touches (·.writeWord address value) [] [address, address + 1] :=
  (machine.touches_writeByte address (Word.low value)).trans
    (touches_writeByte _ (address + 1) (Word.high value))

/-- The addresses of the bytes that are fetched next. -/
def ahead (machine : Machine) (count : Nat) : List Word :=
  (List.range count).map fun index => machine.word .pc + BitVec.ofNat 16 index

theorem Advances.ahead_add {before after : Machine} {cycles bytes : Nat}
    (hadvances : before.Advances after cycles bytes) (more : Nat) :
    before.ahead (bytes + more) = before.ahead bytes ++ after.ahead more := by
  have hindex (index : Nat) : before.word .pc + BitVec.ofNat 16 (bytes + index) =
      after.word .pc + BitVec.ofNat 16 index := by
    rw [hadvances.pc, BitVec.ofNat_add, BitVec.add_assoc]
  simp only [ahead, List.range_add, List.map_append, List.map_map, Function.comp_def, hindex]

theorem consults_fetchByte (machine : Machine) :
    machine.Consults fetchByte (machine.ahead 1) := by
  have hahead : machine.ahead 1 = [machine.word .pc] := by simp [ahead]
  rw [hahead]
  exact .ofCpu (·.registers.word .pc)
    (fun address before =>
      ⟨(before.readByte address).value,
        (before.readByte address).machine.setWord .pc
          ((before.readByte address).machine.word .pc + 1)⟩)
    ((machine.consults_readByte (machine.word .pc)).thenCpu
      (fun before => before.setWord .pc (before.word .pc + 1)) (fun _ _ => rfl))

theorem consults_fetchWord (machine : Machine) :
    machine.Consults fetchWord (machine.ahead 2) := by
  have hahead : machine.ahead 2 = [machine.word .pc, machine.word .pc + 1] := by
    simp [ahead, List.range_succ]
  rw [hahead]
  exact .ofCpu (·.registers.word .pc)
    (fun address before =>
      ⟨(before.readWord address).value,
        (before.readWord address).machine.setWord .pc
          ((before.readWord address).machine.word .pc + 2)⟩)
    ((machine.consults_readWord (machine.word .pc)).thenCpu
      (fun before => before.setWord .pc (before.word .pc + 2)) (fun _ _ => rfl))

/-- What only looks at the processor. -/
theorem consults_cpu {access : Machine → Access width}
    (haccess : ∀ before memory, access (withMemory memory before) =
      ⟨(access before).value, withMemory memory (access before).machine⟩)
    (machine : Machine) : machine.Consults access [] where
  value hagree _ := by
    rw [← hagree.withMemory_eq, haccess]
  touches :=
    touches_cpu (fun before memory => congrArg Access.machine (haccess before memory)) machine

end Machine

/-! ### Operands -/

/-- A byte of memory that an operand names: so far behind what a base leads to. -/
structure Cell where
  base : Base
  offset : Word := 0
  deriving DecidableEq

/-- Where the cell is when the operand is reached. -/
def Cell.address (machine : Machine) (cell : Cell) : Word :=
  (cell.base.address machine).value + cell.offset

theorem Base.consults_address (base : Base) (machine : Machine) :
    machine.Consults base.address (machine.ahead base.addressCycles) := by
  cases base with
  | nextByte => exact machine.consults_fetchByte.map Word.ofHighPage
  | nextWord => exact machine.consults_fetchWord
  | _ => exact Machine.consults_cpu (fun _ _ => rfl) machine

namespace Pointer

variable (pointer : Pointer) (machine : Machine)

def byteCells : List Cell := [{ base := pointer.base, offset := pointer.offset }]

def wordCells : List Cell :=
  [{ base := pointer.base, offset := pointer.offset },
    { base := pointer.base, offset := pointer.offset + 1 }]

theorem advance_withMemory (before : Machine) (memory : Memory) :
    pointer.advance (.withMemory memory before) = .withMemory memory (pointer.advance before) := by
  rw [advance, advance]
  split
  · rfl
  · cases pointer.base <;> rfl

theorem map_address_wordCells :
    pointer.wordCells.map (Cell.address machine) =
      [(pointer.address machine).value, (pointer.address machine).value + 1] := by
  simp [wordCells, Cell.address, address, BitVec.add_assoc]

/-- The cells of a pointer that starts from a register stay where they are if it does. -/
theorem map_address_cells_of_word_eq {name : WordRegister}
    (hbase : pointer.base = .wordRegister name) {before after : Machine}
    (hword : after.word name = before.word name) :
    pointer.byteCells.map (Cell.address after) = pointer.byteCells.map (Cell.address before) ∧
      pointer.wordCells.map (Cell.address after) = pointer.wordCells.map (Cell.address before) := by
  simp [byteCells, wordCells, Cell.address, hbase, Base.address, hword]

theorem consults_readByte :
    machine.Consults pointer.readByte
      (machine.ahead pointer.base.addressCycles ++
        pointer.byteCells.map (Cell.address machine)) :=
  (pointer.base.consults_address machine).andThen
    (fun base before =>
      ⟨(before.readByte (base + pointer.offset)).value,
        pointer.advance (before.readByte (base + pointer.offset)).machine⟩)
    ((Machine.consults_readByte _ _).thenCpu pointer.advance pointer.advance_withMemory)

theorem consults_readWord :
    machine.Consults pointer.readWord
      (machine.ahead pointer.base.addressCycles ++
        pointer.wordCells.map (Cell.address machine)) := by
  rw [map_address_wordCells]
  exact (pointer.base.consults_address machine).andThen
    (fun base before =>
      ⟨(before.readWord (base + pointer.offset)).value,
        pointer.advance (before.readWord (base + pointer.offset)).machine⟩)
    ((Machine.consults_readWord _ _).thenCpu pointer.advance pointer.advance_withMemory)

theorem touches_writeByte (value : Byte) :
    machine.Touches (pointer.writeByte value) (machine.ahead pointer.base.addressCycles)
      (pointer.byteCells.map (Cell.address machine)) := by
  have hwrite := (pointer.base.consults_address machine).bind
    (fun base before => pointer.advance (before.writeByte (base + pointer.offset) value))
    ((Machine.touches_writeByte _ _ value).thenCpu pointer.advance pointer.advance_withMemory)
  rw [List.append_nil] at hwrite
  exact hwrite

theorem touches_writeWord (value : Word) :
    machine.Touches (pointer.writeWord value) (machine.ahead pointer.base.addressCycles)
      (pointer.wordCells.map (Cell.address machine)) := by
  have hwrite := (pointer.base.consults_address machine).bind
    (fun base before => pointer.advance (before.writeWord (base + pointer.offset) value))
    ((Machine.touches_writeWord _ _ value).thenCpu pointer.advance pointer.advance_withMemory)
  rw [List.append_nil] at hwrite
  rw [map_address_wordCells]
  exact hwrite

end Pointer

namespace Operand

variable {width : Nat}

/-- The memory that reading the operand looks at, besides the bytes it fetches. -/
def readCells {width : Nat} : Operand width → List Cell
  | .byteAt pointer => pointer.byteCells
  | .wordAt pointer => pointer.wordCells
  | .readOnly inner => inner.readCells
  | _ => []

def writeCells : Operand width → List Cell
  | .byteAt pointer => pointer.byteCells
  | .wordAt pointer => pointer.wordCells
  | _ => []

theorem consults_read (operand : Operand width) (machine : Machine) :
    machine.Consults operand.read
      (machine.ahead operand.readBytes ++ operand.readCells.map (Cell.address machine)) := by
  induction operand with
  | nextByte => exact machine.consults_fetchByte
  | nextWord => exact machine.consults_fetchWord
  | byteAt pointer => exact pointer.consults_readByte machine
  | wordAt pointer => exact pointer.consults_readWord machine
  | readOnly inner ih => exact ih
  | _ => exact Machine.consults_cpu (fun _ _ => rfl) machine

theorem touches_write (operand : Operand width) (value : BitVec width) (machine : Machine) :
    machine.Touches (operand.write value) (machine.ahead operand.writeBytes)
      (operand.writeCells.map (Cell.address machine)) := by
  cases operand with
  | byteAt pointer => exact pointer.touches_writeByte machine value
  | wordAt pointer => exact pointer.touches_writeWord machine value
  | _ => exact Machine.touches_cpu (fun _ _ => rfl) machine

end Operand

end Sm83

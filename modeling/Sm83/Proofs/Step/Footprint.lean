import Sm83.Proofs.Footprint.Instruction
import Sm83.Proofs.Step.Extended
import Sm83.Proofs.Step.Transfer

/-!
# The memory footprint of a step

Which bytes of memory a step reads besides those of its instruction, and which it writes, by its
opcode. Most opcodes do neither. A step changes nothing that it does not write, and whatever it does
not read makes no difference to it.
-/

namespace Sm83

namespace Opcode

/-- The two bytes on top of the stack. -/
def stackTop : List Cell :=
  [{ base := .wordRegister .sp }, { base := .wordRegister .sp, offset := 1 }]

/-- The two bytes that a push makes the top of the stack. -/
def stackBelow : List Cell :=
  [{ base := .wordRegister .sp, offset := -2 }, { base := .wordRegister .sp, offset := -1 }]

/-- The cells that a single-byte opcode reads, `taken` telling whether the condition in it holds. -/
def reads (opcode : Byte) (taken : Bool) : List Cell :=
  match opcode with
  | 0x0A => [{ base := .wordRegister .bc }]
  | 0x1A => [{ base := .wordRegister .de }]
  | 0x2A | 0x3A | 0x34 | 0x35 | 0x46 | 0x4E | 0x56 | 0x5E | 0x66 | 0x6E | 0x7E | 0x86 | 0x8E | 0x96
  | 0x9E | 0xA6 | 0xAE | 0xB6 | 0xBE => [{ base := .wordRegister .hl }]
  | 0xF0 => [{ base := .nextByte }]
  | 0xF2 => [{ base := .byteRegister .c }]
  | 0xFA => [{ base := .nextWord }]
  | 0xC1 | 0xD1 | 0xE1 | 0xF1 | 0xC9 | 0xD9 => stackTop
  | 0xC0 | 0xC8 | 0xD0 | 0xD8 => if taken then stackTop else []
  | _ => []

/-- The cells that a single-byte opcode writes. -/
def writes (opcode : Byte) (taken : Bool) : List Cell :=
  match opcode with
  | 0x02 => [{ base := .wordRegister .bc }]
  | 0x12 => [{ base := .wordRegister .de }]
  | 0x22 | 0x32 | 0x34 | 0x35 | 0x36 | 0x70 | 0x71 | 0x72 | 0x73 | 0x74 | 0x75 | 0x77 =>
    [{ base := .wordRegister .hl }]
  | 0xE0 => [{ base := .nextByte }]
  | 0xE2 => [{ base := .byteRegister .c }]
  | 0xEA => [{ base := .nextWord }]
  | 0x08 => [{ base := .nextWord }, { base := .nextWord, offset := 1 }]
  | 0xC5 | 0xD5 | 0xE5 | 0xF5 | 0xC7 | 0xCF | 0xD7 | 0xDF | 0xE7 | 0xEF | 0xF7 | 0xFF | 0xCD =>
    stackBelow
  | 0xC4 | 0xCC | 0xD4 | 0xDC => if taken then stackBelow else []
  | _ => []

/-- The cells that an extended opcode reads, told from its second byte. -/
def extendedReads (second : Byte) : List Cell :=
  if second.toNat % 8 = 6 then [{ base := .wordRegister .hl }] else []

/-- The cells that an extended opcode writes. Testing a bit writes nothing. -/
def extendedWrites (second : Byte) : List Cell :=
  if second.toNat % 8 = 6 ∧ ¬ (0x40 ≤ second ∧ second ≤ 0x7F) then [{ base := .wordRegister .hl }]
  else []

/-! ### What the tables hold -/

/-- The instruction reaches these cells and lets them be told beforehand. -/
structure Reaches (single : Instruction) (taken : Bool) (reads writes : List Cell) : Prop where
  isSettled : single.isSettled = true
  readCells : single.readCells taken = reads
  writeCells : single.writeCells taken = writes
  isPlain : ∀ cell ∈ reads ++ writes, cell.base.isPlain = true

instance (single : Instruction) (taken : Bool) (reads writes : List Cell) :
    Decidable (Reaches single taken reads writes) :=
  decidable_of_iff
    (single.isSettled = true ∧ single.readCells taken = reads ∧ single.writeCells taken = writes ∧
      ∀ cell ∈ reads ++ writes, cell.base.isPlain = true)
    ⟨fun ⟨hsettled, hreads, hwrites, hplain⟩ => ⟨hsettled, hreads, hwrites, hplain⟩,
      fun ⟨hsettled, hreads, hwrites, hplain⟩ => ⟨hsettled, hreads, hwrites, hplain⟩⟩

/-- The comparison of the lists above with an operation. -/
def reachesOwn (operation : Operation) (opcode : Byte) (taken : Bool) : Bool :=
  match operation with
  | .instruction single =>
    if single.condition = .always then
      decide (Reaches single true (reads opcode taken) (writes opcode taken))
    else
      single.condition == (Condition.select (row opcode % 4)).2 &&
        decide (Reaches single taken (reads opcode taken) (writes opcode taken))
  | .extend => false

private theorem reachesOwn_describeBase : ∀ opcode : Byte, opcode ≠ extensionPrefix →
    ∀ taken : Bool, reachesOwn (describeBase opcode).operation opcode taken = true := by
  decide +kernel

private theorem reaches_ofExtended : ∀ second : Byte,
    (Instruction.ofExtended second).condition = .always ∧
      Reaches (.ofExtended second) true (extendedReads second) (extendedWrites second) := by
  decide +kernel

theorem exists_reaches {opcode : Byte} (hopcode : opcode ≠ extensionPrefix) (flags : Flags) :
    ∃ single, (base opcode).operation = .instruction single ∧
      Reaches single (single.condition.holds flags) (reads opcode (conditionHolds opcode flags))
        (writes opcode (conditionHolds opcode flags)) := by
  have hown := reachesOwn_describeBase opcode hopcode (conditionHolds opcode flags)
  rw [← base_eq_describeBase] at hown
  unfold reachesOwn at hown
  split at hown
  · next single hoperation =>
    refine ⟨single, hoperation, ?_⟩
    -- An instruction without a condition has the same cells whatever its opcode's bits say.
    split at hown
    · next hcondition =>
      have hholds : single.condition.holds flags = true := by
        rw [hcondition]
        rfl
      rw [hholds]
      exact of_decide_eq_true hown
    · obtain ⟨hcondition, hreaches⟩ := Bool.and_eq_true_iff.mp hown
      rw [eq_of_beq hcondition, holds_select]
      exact of_decide_eq_true hreaches
  · cases hown

end Opcode

namespace Machine

/-- Where a cell lies for the instruction whose opcode is at the program counter. -/
def locate (machine : Machine) (cell : Cell) : Word := cell.base.origin machine + cell.offset

/-- The bytes of memory that the next step looks at besides its instruction. -/
def consulted (machine : Machine) : List Word :=
  if machine.lead = Opcode.extensionPrefix then
    (Opcode.extendedReads machine.second).map machine.locate
  else
    (Opcode.reads machine.lead (Opcode.conditionHolds machine.lead machine.flags)).map
      machine.locate

/-- The bytes of memory that the next step writes. -/
def written (machine : Machine) : List Word :=
  if machine.lead = Opcode.extensionPrefix then
    (Opcode.extendedWrites machine.second).map machine.locate
  else
    (Opcode.writes machine.lead (Opcode.conditionHolds machine.lead machine.flags)).map
      machine.locate

theorem map_address_fetchByte {cells : List Cell}
    (hplain : ∀ cell ∈ cells, cell.base.isPlain = true) (machine : Machine) :
    cells.map (Cell.address machine.fetchByte.machine) = cells.map machine.locate := by
  apply List.map_congr_left
  intro cell hcell
  rw [Cell.address, Base.value_address_fetchByte (hplain cell hcell)]
  rfl

theorem nextOpcode_of_ne {machine : Machine} (hlead : machine.lead ≠ Opcode.extensionPrefix) :
    machine.nextOpcode = Opcode.base machine.lead :=
  if_neg hlead

/-- What a step touches after its first byte has been fetched. -/
theorem touches_step_of_operation {machine : Machine} {reads writes : List Word}
    (hoperation : machine.fetchByte.machine.Touches (Opcode.base machine.lead).operation.execute
      reads writes) :
    machine.Touches step (machine.ahead 1 ++ reads) writes :=
  machine.consults_fetchByte.bind
    (fun first before => (Opcode.base first).operation.execute before) hoperation

theorem touches_step_of_base {machine : Machine} (hlead : machine.lead ≠ Opcode.extensionPrefix) :
    machine.Touches step (machine.ahead machine.nextOpcode.length ++ machine.consulted)
      machine.written := by
  obtain ⟨single, hoperation, hreaches⟩ := Opcode.exists_reaches hlead machine.flags
  obtain ⟨single', hdescribes⟩ := Opcode.exists_describes_base hlead
  obtain rfl : single = single' :=
    Operation.instruction.inj (hoperation.symm.trans hdescribes.operation)
  obtain ⟨hreads, hwrites⟩ := List.forall_mem_append.mp hreaches.isPlain
  have hexecute := Instruction.touches_execute hdescribes.isPlain hreaches.isSettled
    machine.fetchByte.machine
  have hholds : machine.fetchByte.machine.satisfies single.condition =
      single.condition.holds machine.flags := rfl
  rw [hholds, hreaches.readCells, hreaches.writeCells, map_address_fetchByte hreads,
    map_address_fetchByte hwrites] at hexecute
  have hlength : machine.nextOpcode.length = 1 + single.bytes := by
    rw [nextOpcode_of_ne hlead]
    exact hdescribes.length
  rw [consulted, written, if_neg hlead, if_neg hlead, hlength,
    machine.advances_fetchByte.ahead_add, List.append_assoc]
  apply touches_step_of_operation
  rw [hoperation]
  exact hexecute

theorem touches_step_of_extended {machine : Machine}
    (hlead : machine.lead = Opcode.extensionPrefix) :
    machine.Touches step (machine.ahead machine.nextOpcode.length ++ machine.consulted)
      machine.written := by
  obtain ⟨hcondition, hreaches⟩ := Opcode.reaches_ofExtended machine.second
  obtain ⟨single, hdescribes⟩ := Opcode.exists_describes_extended machine.second
  obtain rfl : .ofExtended machine.second = single := by
    have hoperation := hdescribes.operation
    rw [Opcode.extended_eq_describeExtended] at hoperation
    exact Operation.instruction.inj hoperation
  have hexecute := Instruction.touches_execute hdescribes.isPlain hreaches.isSettled
    machine.fetchByte.machine.fetchByte.machine
  have hholds : machine.fetchByte.machine.fetchByte.machine.satisfies
      (Instruction.ofExtended machine.second).condition = true := by
    rw [hcondition]
    rfl
  -- Both lists hold at most the byte at HL, which fetching does not move.
  have hcells {condition : Prop} [Decidable condition] :
      (if condition then [({ base := .wordRegister .hl } : Cell)] else []).map
          (Cell.address machine.fetchByte.machine.fetchByte.machine) =
        (if condition then [({ base := .wordRegister .hl } : Cell)] else []).map
          machine.locate := by
    split <;> rfl
  rw [hholds, hreaches.readCells, hreaches.writeCells, Opcode.extendedReads,
    Opcode.extendedWrites, hcells, hcells] at hexecute
  have hextend := machine.fetchByte.machine.consults_fetchByte.bind
    (fun second before => (Instruction.ofExtended second).execute before) hexecute
  have hlength : machine.nextOpcode.length =
      1 + (1 + (Instruction.ofExtended machine.second).bytes) := by
    have hnext : machine.nextOpcode = Opcode.extended machine.second := if_pos hlead
    rw [hnext, hdescribes.length]
    omega
  have hextends : (Opcode.base machine.lead).operation = .extend := by
    rw [hlead, Opcode.base_eq_describeBase]
    rfl
  rw [consulted, written, if_pos hlead, if_pos hlead, hlength,
    machine.advances_fetchByte.ahead_add,
    machine.fetchByte.machine.advances_fetchByte.ahead_add, List.append_assoc, List.append_assoc]
  apply touches_step_of_operation
  rw [hextends]
  exact hextend

theorem touches_step (machine : Machine) :
    machine.Touches step (machine.ahead machine.nextOpcode.length ++ machine.consulted)
      machine.written := by
  by_cases hlead : machine.lead = Opcode.extensionPrefix
  · exact touches_step_of_extended hlead
  · exact touches_step_of_base hlead

/-- In every state, a step changes memory only where its opcode says, and a byte that is neither in
its instruction nor in what the opcode says it looks at makes no difference to it. -/
theorem step_keeps_to_footprint (machine : Machine) :
    (∀ address, address ∉ machine.written →
      machine.step.memory.get address = machine.memory.get address) ∧
    ∀ (other : Machine) (address : Word),
      machine.AgreesOutside (· = address) other →
      address ∉ machine.ahead machine.nextOpcode.length → address ∉ machine.consulted →
        machine.step.AgreesOutside (· = address) other.step ∧
          (address ∈ machine.written → machine.step = other.step) := by
  have htouches := machine.touches_step
  refine ⟨htouches.keeps, ?_⟩
  intro other address hagree hfetched hconsulted
  have hsteps := htouches.agrees hagree (by
    rintro _ hread rfl
    exact (List.mem_append.mp hread).elim hfetched hconsulted)
  refine ⟨hsteps.mono fun _ hhidden => hhidden.1, ?_⟩
  intro hwritten
  apply hsteps.eq
  rintro _ ⟨rfl, hkept⟩
  exact hkept hwritten

/-- B is about to be stored over a byte. -/
def beforeOverwrite (value : Byte) : Machine where
  cpu := { registers := { hl := 0x8000 } }
  memory := (Memory.zero.set 0 0x70).set 0x8000 value

theorem step_keeps_to_footprint_beforeOverwrite :
    (beforeOverwrite 1).step = (beforeOverwrite 2).step ∧
      (beforeOverwrite 1).step.memory.get 0 = 0x70 := by
  have hagree : (beforeOverwrite 1).AgreesOutside (· = 0x8000) (beforeOverwrite 2) := by
    refine ⟨rfl, rfl, ?_⟩
    intro address hshown
    exact (Memory.get_set_of_ne hshown _ 1).trans (Memory.get_set_of_ne hshown _ 2).symm
  have hlead : (beforeOverwrite 1).lead = 0x70 := rfl
  have hbase : (beforeOverwrite 1).lead ≠ Opcode.extensionPrefix := by
    rw [hlead]
    decide
  have hlength : (beforeOverwrite 1).nextOpcode.length = 1 := by
    rw [nextOpcode_of_ne hbase, hlead, Opcode.base_eq_describeBase]
    rfl
  have hwritten : (beforeOverwrite 1).written = [0x8000] := by
    rw [written, if_neg hbase, hlead]
    rfl
  have hconsulted : (beforeOverwrite 1).consulted = [] := by
    rw [consulted, if_neg hbase, hlead]
    rfl
  obtain ⟨hkeeps, hagrees⟩ := step_keeps_to_footprint (beforeOverwrite 1)
  rw [hwritten] at hkeeps hagrees
  rw [hlength, hconsulted] at hagrees
  refine ⟨(hagrees _ 0x8000 hagree ?_ List.not_mem_nil).2 (List.mem_singleton_self _), ?_⟩
  · show (0x8000 : Word) ∉ [0]
    decide
  · exact hkeeps 0 (by decide)

end Machine

end Sm83

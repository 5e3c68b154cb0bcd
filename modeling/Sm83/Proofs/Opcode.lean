import Sm83.Block.Decode
import Sm83.Proofs.Instruction

/-!
# What the opcode tables declare

Length, cycles and flow of an opcode are written down in the tables apart from the instruction they
belong to. Here they are compared with what the instruction costs (`Opcode.Describes`), once for all
512 entries, and the opcodes that change a control bit or have no meaning of their own are listed by
their first byte. Nothing after this module looks into the tables again.
-/

namespace Sm83

/-- Where execution goes on after the instruction. -/
def Instruction.flow : Instruction → Flow
  | .stop | .halt => .halt
  | instruction => if instruction.transfers then .jump else .next

/-- The control bits after the operation. No extended instruction touches them. -/
def Operation.control (operation : Operation) (before : Machine.Control) : Machine.Control :=
  match operation with
  | .instruction single => single.control before
  | .extend => before

def Operation.isUndefined : Operation → Bool
  | .instruction .undefined => true
  | _ => false

namespace Opcode

/-- The bytes that tell an instruction, the prefix among them. -/
def leadBytes (first : Byte) : Nat := if first = extensionPrefix then 2 else 1

/-- The condition that the opcode's instruction depends on. -/
def condition (opcode : Opcode) : Condition :=
  match opcode.operation with
  | .instruction single => single.condition
  | .extend => .always

/-- The opcode declares what its instruction does after `fetched` bytes have been read. -/
structure Describes (opcode : Opcode) (fetched : Nat) (single : Instruction) : Prop where
  operation : opcode.operation = .instruction single
  isPlain : single.isPlain = true
  length : opcode.length = fetched + single.bytes
  cycles : opcode.cycles = fetched + single.cycles true
  skippedCycles : opcode.isConditional = true →
    opcode.skippedCycles = fetched + single.cycles false
  isConditional : opcode.isConditional = decide (single.condition ≠ .always)
  flow : opcode.flow = single.flow

/-- The comparison that `Describes` states, as a computation on a table entry. -/
def describesOwn (opcode : Opcode) (fetched : Nat) : Bool :=
  match opcode.operation with
  | .instruction single =>
    single.isPlain && opcode.length == fetched + single.bytes &&
      opcode.cycles == fetched + single.cycles true &&
      (!opcode.isConditional || opcode.skippedCycles == fetched + single.cycles false) &&
      opcode.isConditional == decide (single.condition ≠ .always) && opcode.flow == single.flow
  | .extend => false

theorem exists_describes {opcode : Opcode} {fetched : Nat}
    (hown : opcode.describesOwn fetched = true) : ∃ single, opcode.Describes fetched single := by
  rw [describesOwn] at hown
  split at hown
  · next single hoperation =>
    simp only [Bool.and_eq_true, Bool.or_eq_true, Bool.not_eq_true', beq_iff_eq] at hown
    obtain ⟨⟨⟨⟨⟨hplain, hlength⟩, hcycles⟩, hskipped⟩, hconditional⟩, hflow⟩ := hown
    refine ⟨single, hoperation, hplain, hlength, hcycles, ?_, hconditional, hflow⟩
    intro hdepends
    rcases hskipped with hnot | hskipped
    · rw [hdepends] at hnot
      cases hnot
    · exact hskipped
  · cases hown

/-- The most cycles that an opcode declares. Only calls take six, and a call ends a block. -/
def maxCycles (opcode : Opcode) : Nat := if opcode.endsBlock then 6 else 5

/-- The control bits after a step whose first byte is `first`. -/
def controlAfter (first : Byte) (before : Machine.Control) : Machine.Control where
  stopped := before.stopped || first == 0x10
  halted := before.halted || first == 0x76
  interrupts := first != 0xF3 && (before.interrupts || first == 0xFB || first == 0xD9)

/-- The first bytes that have no meaning of their own. -/
def undefinedBytes : List Byte :=
  [0xD3, 0xDB, 0xDD, 0xE3, 0xE4, 0xEB, 0xEC, 0xED, 0xF4, 0xFC, 0xFD]

/-- What an entry of the base table is compared with, `first` being the byte it stands for. -/
structure IsEntry (opcode : Opcode) (first : Byte) : Prop where
  describesOwn : first ≠ extensionPrefix → opcode.describesOwn 1 = true
  length_pos : 0 < opcode.length
  length_le : opcode.length ≤ 3
  cycles_le : opcode.cycles ≤ opcode.maxCycles
  control : ∀ stopped halted interrupts : Bool,
    opcode.operation.control ⟨stopped, halted, interrupts⟩ =
      controlAfter first ⟨stopped, halted, interrupts⟩
  isUndefined : opcode.operation.isUndefined = undefinedBytes.contains first
  flow : first ≠ extensionPrefix → (opcode.flow = .halt ↔ first = 0x10 ∨ first = 0x76)

instance (opcode : Opcode) (first : Byte) : Decidable (opcode.IsEntry first) :=
  decidable_of_iff
    ((first ≠ extensionPrefix → opcode.describesOwn 1 = true) ∧ 0 < opcode.length ∧
      opcode.length ≤ 3 ∧ opcode.cycles ≤ opcode.maxCycles ∧
      (∀ stopped halted interrupts : Bool,
        opcode.operation.control ⟨stopped, halted, interrupts⟩ =
          controlAfter first ⟨stopped, halted, interrupts⟩) ∧
      opcode.operation.isUndefined = undefinedBytes.contains first ∧
      (first ≠ extensionPrefix → (opcode.flow = .halt ↔ first = 0x10 ∨ first = 0x76)))
    ⟨fun ⟨hown, hpos, hlength, hcycles, hcontrol, hundefined, hflow⟩ =>
        ⟨hown, hpos, hlength, hcycles, hcontrol, hundefined, hflow⟩,
      fun ⟨hown, hpos, hlength, hcycles, hcontrol, hundefined, hflow⟩ =>
        ⟨hown, hpos, hlength, hcycles, hcontrol, hundefined, hflow⟩⟩

-- One pass over each table for all that is read off it: the kernel computes an entry only once.
private theorem isEntry_describeBase : ∀ first : Byte, (describeBase first).IsEntry first := by
  decide +kernel

theorem isEntry_base (first : Byte) : (base first).IsEntry first := by
  rw [base_eq_describeBase]
  exact isEntry_describeBase first

private theorem describeExtended_checked : ∀ second : Byte,
    (describeExtended second).describesOwn 2 = true ∧
      (describeExtended second).cycles ≤ (describeExtended second).maxCycles := by
  decide +kernel

theorem exists_describes_base {first : Byte} (hfirst : first ≠ extensionPrefix) :
    ∃ single, (base first).Describes 1 single :=
  exists_describes ((isEntry_base first).describesOwn hfirst)

theorem exists_describes_extended (second : Byte) :
    ∃ single, (extended second).Describes 2 single := by
  rw [extended_eq_describeExtended]
  exact exists_describes (describeExtended_checked second).1

theorem exists_describes_inMemory (memory : Memory) (address : Word) :
    ∃ single, (inMemory memory address).Describes (leadBytes (memory.get address)) single := by
  simp only [inMemory, leadBytes]
  split
  · exact exists_describes_extended _
  · next hfirst => exact exists_describes_base hfirst

/-! ### Bounds -/

theorem cycles_extended_le (second : Byte) :
    (extended second).cycles ≤ (extended second).maxCycles := by
  rw [extended_eq_describeExtended]
  exact (describeExtended_checked second).2

theorem cycles_inMemory_le (memory : Memory) (address : Word) :
    (inMemory memory address).cycles ≤ 6 := by
  have hle (opcode : Opcode) : opcode.maxCycles ≤ 6 := by
    rw [maxCycles]
    split <;> omega
  rw [inMemory]
  split
  · exact Nat.le_trans (cycles_extended_le _) (hle _)
  · exact Nat.le_trans (isEntry_base _).cycles_le (hle _)

/-! ### Single opcodes

Which opcodes have effects that the figures do not tell. -/

theorem control_base (first : Byte) (before : Machine.Control) :
    (base first).operation.control before = controlAfter first before :=
  (isEntry_base first).control before.stopped before.halted before.interrupts

theorem control_ofExtended (second : Byte) (before : Machine.Control) :
    (Instruction.ofExtended second).control before = before := by
  rw [Instruction.ofExtended, extension]
  split
  · unfold rotation
    split <;> rfl
  · rfl
  · rfl
  · rfl

theorem operation_base_of_mem {first : Byte} (hfirst : first ∈ undefinedBytes) :
    (base first).operation = .instruction .undefined := by
  have hundefined : (base first).operation.isUndefined = true :=
    (isEntry_base first).isUndefined.trans (List.contains_iff_mem.mpr hfirst)
  generalize (base first).operation = operation at hundefined ⊢
  match operation with
  | .instruction .undefined => rfl

theorem operation_base_stop : (base 0x10).operation = .instruction .stop := by
  rw [base_eq_describeBase]
  rfl

theorem operation_base_halt : (base 0x76).operation = .instruction .halt := by
  rw [base_eq_describeBase]
  rfl

theorem flow_inMemory_eq_halt_iff (memory : Memory) (address : Word) :
    (inMemory memory address).flow = .halt ↔
      memory.get address = 0x10 ∨ memory.get address = 0x76 := by
  simp only [inMemory]
  split
  · next hextends =>
    rw [hextends, extended_eq_describeExtended]
    simp [describeExtended, extensionPrefix]
  · next hfirst => exact (isEntry_base _).flow hfirst

end Opcode

theorem Operation.control_execute (operation : Operation) (machine : Machine) :
    (operation.execute machine).control = operation.control machine.control := by
  cases operation with
  | instruction single => exact single.control_execute machine
  | extend =>
    simp only [execute]
    rw [Instruction.control_execute, Opcode.control_ofExtended]
    rfl

end Sm83

import Sm83.Proofs.Place

/-!
# The extended opcodes field by field

The second byte of an extended opcode names a byte target in its column, and in its group and row
what becomes of it: a rotation or shift, a bit tested, cleared or set. In every state a step does
just that and leaves everything else alone. The four short rotations of the accumulator differ from
their extended forms in the zero flag alone.
-/

namespace Sm83

namespace Opcode

/-- The first group on numbers: what the row makes of a byte and the carry, and the bit let out. -/
def rotated (row value carry : Nat) : Nat × Nat :=
  match row with
  | 0 => (value * 2 % 256 + value / 128, value / 128)
  | 1 => (value / 2 + value % 2 * 128, value % 2)
  | 2 => (value * 2 % 256 + carry, value / 128)
  | 3 => (value / 2 + carry * 128, value % 2)
  | 4 => (value * 2 % 256, value / 128)
  | 5 => (value / 2 + value / 128 * 128, value % 2)
  | 6 => (value % 16 * 16 + value / 16, 0)
  | _ => (value / 2, value % 2)

/-- The outcome is that of the rotation or shift that a row selects. -/
structure Rotates (row : Nat) (input : Byte) (before : Bool) (outcome : Outcome 8) : Prop where
  value : outcome.value.toNat = (rotated row input.toNat before.toNat).1
  zero : outcome.flags.zero = true ↔ outcome.value = 0
  subtract : outcome.flags.subtract = false
  halfCarry : outcome.flags.halfCarry = false
  carry : outcome.flags.carry = true ↔ (rotated row input.toNat before.toNat).2 = 1

end Opcode

namespace Shift

/-- The row that selects the shift. -/
def row : Shift → Nat
  | .rlc => 0
  | .rrc => 1
  | .rl => 2
  | .rr => 3
  | .sla => 4
  | .sra => 5
  | .srl => 7

private theorem rotated_row (shift : Shift) : ∀ (value : Byte) (carry : Bool),
    Opcode.rotated shift.row value.toNat carry.toNat =
      ((shift.result value carry).toNat, (shift.outgoing value).toNat) := by
  cases shift <;> decide +kernel

theorem rotates_apply (shift : Shift) (value : Byte) (carry : Bool) :
    Opcode.Rotates shift.row value carry (shift.apply value carry true) where
  value := (congrArg Prod.fst (shift.rotated_row value carry)).symm
  zero := beq_iff_eq
  subtract := rfl
  halfCarry := rfl
  carry := by
    rw [rotated_row]
    exact Bool.toNat_eq_one.symm

end Shift

private theorem Outcome.toNat_swap (value : Byte) :
    (swap value).value.toNat = value.toNat % 16 * 16 + value.toNat / 16 := by
  have hvalue := value.isLt
  change (value.extractLsb' 0 4 ++ value.extractLsb' 4 4).toNat = _
  rw [BitVec.toNat_append, BitVec.extractLsb'_toNat, BitVec.extractLsb'_toNat, Nat.shiftRight_zero,
    Nat.shiftRight_eq_div_pow, ← Nat.shiftLeft_add_eq_or_of_lt (by omega), Nat.shiftLeft_eq]
  omega

theorem Outcome.rotates_swap (value : Byte) (carry : Bool) :
    Opcode.Rotates 6 value carry (swap value) where
  value := toNat_swap value
  zero := beq_iff_eq
  subtract := rfl
  halfCarry := rfl
  carry := iff_of_false Bool.false_ne_true Nat.zero_ne_one

namespace Opcode

/-- Every operation of the first group computes its target anew. -/
theorem exists_execute_rotation (row : Nat) (target : Operand 8) (machine : Machine) :
    ∃ operation : Byte → Outcome 8,
      (∀ value, Rotates row value machine.flags.carry (operation value)) ∧
      ((rotation row).2 target).execute machine = machine.modify operation target := by
  match row with
  | 0 => exact ⟨_, fun value => Shift.rlc.rotates_apply value _, rfl⟩
  | 1 => exact ⟨_, fun value => Shift.rrc.rotates_apply value _, rfl⟩
  | 2 => exact ⟨_, fun value => Shift.rl.rotates_apply value _, rfl⟩
  | 3 => exact ⟨_, fun value => Shift.rr.rotates_apply value _, rfl⟩
  | 4 => exact ⟨_, fun value => Shift.sla.rotates_apply value _, rfl⟩
  | 5 => exact ⟨_, fun value => Shift.sra.rotates_apply value _, rfl⟩
  | 6 => exact ⟨_, fun value => Outcome.rotates_swap value _, rfl⟩
  | _ + 7 => exact ⟨_, fun value => { Shift.srl.rotates_apply value _ with }, rfl⟩

/-- The numbers leave nothing open. -/
theorem Rotates.unique {row : Nat} {input : Byte} {before : Bool} {outcome other : Outcome 8}
    (hrotates : Rotates row input before outcome) (hother : Rotates row input before other) :
    outcome = other := by
  have hvalue : outcome.value = other.value :=
    BitVec.eq_of_toNat_eq (hrotates.value.trans hother.value.symm)
  have hzero : outcome.flags.zero = other.flags.zero := by
    rw [Bool.eq_iff_iff, hrotates.zero, hother.zero, hvalue]
  have hcarry : outcome.flags.carry = other.flags.carry := by
    rw [Bool.eq_iff_iff, hrotates.carry, hother.carry]
  apply Outcome.ext hvalue
  exact Flags.ext hzero (hrotates.subtract.trans hother.subtract.symm)
    (hrotates.halfCarry.trans hother.halfCarry.symm) hcarry

/-- A byte with one of its bits replaced. -/
def ReplacesBit (row : Nat) (bit : Bool) (value result : Byte) : Prop :=
  ∀ index < 8, result.getLsbD index = if index = row then bit else value.getLsbD index

theorem replacesBit_or (index : Fin 8) (value : Byte) :
    ReplacesBit index true value (value ||| BitVec.twoPow 8 index) := by
  intro other _
  rw [BitVec.getLsbD_or, BitVec.getLsbD_twoPow, decide_eq_true index.isLt]
  split
  · next heq => simp [heq]
  · next hne => simp [Ne.symm hne]

theorem replacesBit_and (index : Fin 8) (value : Byte) :
    ReplacesBit index false value (value &&& ~~~BitVec.twoPow 8 index) := by
  intro other hother
  rw [BitVec.getLsbD_and, BitVec.getLsbD_not, BitVec.getLsbD_twoPow, decide_eq_true index.isLt]
  split
  · next heq => simp [heq]
  · next hne => simp [Ne.symm hne, hother]

/-- What the fields of the second byte say of a step, `place` being the target they name. -/
def Extends (second : Byte) (place : Place) (before after : Machine) : Prop :=
  match group second with
  | 0 =>
    ∃ outcome, Rotates (row second) (before.peek place) before.flags.carry outcome ∧
      before.Stores place outcome.value after ∧ after.flags = outcome.flags
  | 1 =>
    before.Stores place (before.peek place) after ∧
      after.flags =
        { before.flags with
          zero := !(before.peek place).getLsbD (row second), subtract := false, halfCarry := true }
  | 2 =>
    ∃ result, ReplacesBit (row second) false (before.peek place) result ∧
      before.Stores place result after ∧ after.byte .f = before.byte .f
  | _ =>
    ∃ result, ReplacesBit (row second) true (before.peek place) result ∧
      before.Stores place result after ∧ after.byte .f = before.byte .f

/-- The row as the number of a bit. -/
theorem val_ofNat_row (opcode : Byte) : (Fin.ofNat 8 (row opcode)).val = row opcode :=
  Nat.mod_mod (opcode.toNat / 8) 8

end Opcode

namespace Machine

/-- The place that the second byte names. -/
def extendedTarget (machine : Machine) : Place := machine.target (Opcode.column machine.second)

theorem step_of_extends {machine : Machine} (hlead : machine.lead = Opcode.extensionPrefix) :
    machine.step =
      (Instruction.ofExtended machine.second).execute machine.fetchOpcode := by
  have hfetched : machine.fetchOpcode = machine.fetchByte.machine.fetchByte.machine := by
    rw [fetchOpcode, if_pos hlead]
  change (Opcode.base machine.lead).operation.execute machine.fetchByte.machine = _
  rw [hlead, Opcode.base_eq_describeBase, hfetched]
  rfl

theorem stores_rotation {before machine : Machine} (hmachine : machine.SameData before)
    (row index : Nat) :
    ∃ outcome,
      Opcode.Rotates row (before.peek (before.target index)) before.flags.carry outcome ∧
      before.Stores (before.target index) outcome.value
        (((Opcode.rotation row).2 (Slot.cell index).operand).execute machine) ∧
      (((Opcode.rotation row).2 (Slot.cell index).operand).execute machine).flags =
        outcome.flags := by
  obtain ⟨operation, hrotates, hexecute⟩ :=
    Opcode.exists_execute_rotation row (Slot.cell index).operand machine
  rw [hmachine.flags] at hrotates
  refine ⟨operation (before.peek (before.target index)), hrotates _, ?_⟩
  rw [hexecute]
  have hmodify := machine.sameData_modify_cell operation index
  rw [hmachine.target, hmachine.peek] at hmodify
  exact (hmodify.trans ((hmachine.setFlags _).poke _ _)).stores (before.target_ne_f index)

/-- The effect of testing a bit. -/
theorem stores_bit {before machine : Machine} (hmachine : machine.SameData before)
    (bit : Fin 8) (index : Nat) :
    before.Stores (before.target index) (before.peek (before.target index))
        (machine.bit bit (Slot.cell index).operand) ∧
      (machine.bit bit (Slot.cell index).operand).flags =
        { before.flags with
          zero := !(before.peek (before.target index)).getLsbD bit, subtract := false,
          halfCarry := true } := by
  have hread := (Slot.sameData_read_cell index machine).trans hmachine
  rw [Machine.bit, Slot.value_read_cell, hmachine.target, hmachine.peek, hread.flags]
  exact (hread.setFlags _).keeps (before.target_ne_f index)

/-- The effect of writing a target without setting flags. -/
theorem stores_write_read_cell {before machine : Machine} (hmachine : machine.SameData before)
    (index : Nat) (value : Byte) :
    before.Stores (before.target index) value
        ((Slot.cell index).operand.write value
          ((Slot.cell index).operand.read machine).machine) ∧
      ((Slot.cell index).operand.write value
        ((Slot.cell index).operand.read machine).machine).byte .f = before.byte .f := by
  have hne := before.target_ne_f index
  have hwrite := machine.sameData_write_read_cell index value
  rw [hmachine.target] at hwrite
  have hsame := hwrite.trans (hmachine.poke _ value)
  refine ⟨hsame.stores_trans (stores_poke hne before value), ?_⟩
  exact (hsame.byte .f).trans (peek_poke_of_ne hne.symm before value)

theorem stores_setBit {before machine : Machine} (hmachine : machine.SameData before)
    (bit : Fin 8) (index : Nat) :
    ∃ result, Opcode.ReplacesBit bit true (before.peek (before.target index)) result ∧
      before.Stores (before.target index) result
        (machine.setBit bit (Slot.cell index).operand) ∧
      (machine.setBit bit (Slot.cell index).operand).byte .f = before.byte .f := by
  refine ⟨_, Opcode.replacesBit_or bit _, ?_⟩
  rw [Machine.setBit, Slot.value_read_cell, hmachine.target, hmachine.peek]
  exact stores_write_read_cell hmachine index _

theorem stores_resetBit {before machine : Machine} (hmachine : machine.SameData before)
    (bit : Fin 8) (index : Nat) :
    ∃ result, Opcode.ReplacesBit bit false (before.peek (before.target index)) result ∧
      before.Stores (before.target index) result
        (machine.resetBit bit (Slot.cell index).operand) ∧
      (machine.resetBit bit (Slot.cell index).operand).byte .f = before.byte .f := by
  refine ⟨_, Opcode.replacesBit_and bit _, ?_⟩
  rw [Machine.resetBit, Slot.value_read_cell, hmachine.target, hmachine.peek]
  exact stores_write_read_cell hmachine index _

theorem extends_step {machine : Machine} (hlead : machine.lead = Opcode.extensionPrefix) :
    Opcode.Extends machine.second machine.extendedTarget machine machine.step := by
  have hfetch := SameData.fetchOpcode machine
  have hrow := Opcode.val_ofNat_row machine.second
  rw [step_of_extends hlead, extendedTarget, Instruction.ofExtended]
  generalize Opcode.column machine.second = index
  simp only [Opcode.Extends, Opcode.extension]
  generalize Opcode.group machine.second = group
  rcases group with _ | _ | _ | _
  · exact stores_rotation hfetch _ index
  · have hbit := stores_bit hfetch (Fin.ofNat 8 (Opcode.row machine.second)) index
    rw [hrow] at hbit
    exact hbit
  · have hreset := stores_resetBit hfetch (Fin.ofNat 8 (Opcode.row machine.second)) index
    rw [hrow] at hreset
    exact hreset
  · have hset := stores_setBit hfetch (Fin.ofNat 8 (Opcode.row machine.second)) index
    rw [hrow] at hset
    exact hset

end Machine

/-! ### The short rotations -/

namespace Opcode

/-- The opcodes of the short rotations. -/
def shortRotations : List Byte := [0x07, 0x0F, 0x17, 0x1F]

/-- A short rotation is an extended one of the accumulator. -/
theorem exists_shift_of_mem_shortRotations {opcode : Byte} (hshort : opcode ∈ shortRotations) :
    group opcode = 0 ∧ column opcode = 7 ∧ ∃ shift : Shift, row opcode = shift.row ∧
      (base opcode).operation = .instruction (.shift shift (Slot.cell 7).operand false) := by
  rw [base_eq_describeBase]
  simp only [shortRotations, List.mem_cons, List.not_mem_nil, or_false] at hshort
  rcases hshort with rfl | rfl | rfl | rfl
  · exact ⟨rfl, rfl, .rlc, rfl, rfl⟩
  · exact ⟨rfl, rfl, .rrc, rfl, rfl⟩
  · exact ⟨rfl, rfl, .rl, rfl, rfl⟩
  · exact ⟨rfl, rfl, .rr, rfl, rfl⟩

end Opcode

namespace Machine

/-- A short rotation computes what the extended one does, but never sets the zero flag. -/
theorem step_of_mem_shortRotations {machine : Machine}
    (hshort : machine.lead ∈ Opcode.shortRotations) :
    ∃ outcome,
      Opcode.Rotates (Opcode.row machine.lead) (machine.byte .a) machine.flags.carry outcome ∧
      machine.Stores (.register .a) outcome.value machine.step ∧
      machine.step.flags = { outcome.flags with zero := false } := by
  obtain ⟨-, -, shift, hrow, hoperation⟩ := Opcode.exists_shift_of_mem_shortRotations hshort
  have hfetch := SameData.fetchByte machine
  have hstep : machine.step = machine.fetchByte.machine.modify
      (shift.apply · machine.flags.carry false) (Slot.cell 7).operand := by
    rw [step_of_operation_eq hoperation, ← hfetch.flags]
    rfl
  have hmodify := machine.fetchByte.machine.sameData_modify_cell
    (shift.apply · machine.flags.carry false) 7
  rw [hrow, hstep]
  refine ⟨_, shift.rotates_apply (machine.byte .a) machine.flags.carry, ?_⟩
  exact (hmodify.trans ((hfetch.setFlags _).poke (.register .a) _)).stores (by decide)

/-- In every state, an extended opcode does what its fields say, and a short rotation does to the
accumulator what the extended opcode of the same number does, the zero flag apart. -/
theorem step_follows_fields {machine : Machine} (hlead : machine.lead = Opcode.extensionPrefix) :
    Opcode.Extends machine.second machine.extendedTarget machine machine.step ∧
      ∀ short : Machine, short.lead = machine.second → short.lead ∈ Opcode.shortRotations →
        short.byte .a = machine.byte .a → short.flags.carry = machine.flags.carry →
        short.step.byte .a = machine.step.byte .a ∧
          short.step.flags = { machine.step.flags with zero := false } := by
  have hextends := extends_step hlead
  refine ⟨hextends, ?_⟩
  intro short hsecond hshort haccumulator hcarry
  obtain ⟨outcome, hrotates, hstores, hflags⟩ := step_of_mem_shortRotations hshort
  obtain ⟨hgroup, hcolumn, -⟩ := Opcode.exists_shift_of_mem_shortRotations hshort
  rw [hsecond] at hgroup hcolumn hrotates
  rw [haccumulator, hcarry] at hrotates
  rw [Opcode.Extends, hgroup, extendedTarget, hcolumn] at hextends
  obtain ⟨outcome', hrotates', hstores', hflags'⟩ := hextends
  have hsame : outcome = outcome' := hrotates.unique hrotates'
  constructor
  · exact hstores.target.trans ((congrArg Outcome.value hsame).trans hstores'.target.symm)
  · rw [hflags, hflags', hsame]

/-- The accumulator is about to be rotated by way of the carry. -/
def beforeRotation (first second : Byte) : Machine where
  cpu := { registers := (({} : Registers).setFlag .carry true).setByte .a 0x80 }
  memory := (Memory.zero.set 0 first).set 1 second

theorem step_follows_fields_beforeRotation :
    (beforeRotation 0xCB 0x17).lead = Opcode.extensionPrefix ∧
      (beforeRotation 0x17 0x00).lead ∈ Opcode.shortRotations ∧
      (beforeRotation 0x17 0x00).step.byte .a = (beforeRotation 0xCB 0x17).step.byte .a ∧
      (beforeRotation 0x17 0x00).step.flags =
        { (beforeRotation 0xCB 0x17).step.flags with zero := false } := by
  have hne : (0 : Word) ≠ 1 := by decide
  have hlead (first second : Byte) : (beforeRotation first second).lead = first :=
    (Memory.get_set_of_ne hne _ _).trans (Memory.get_set_self _ _ _)
  have hsecond (first second : Byte) : (beforeRotation first second).second = second :=
    Memory.get_set_self _ _ _
  have hshort : (beforeRotation 0x17 0x00).lead ∈ Opcode.shortRotations := by
    rw [hlead]
    decide
  have hsame : (beforeRotation 0x17 0x00).lead = (beforeRotation 0xCB 0x17).second :=
    (hlead _ _).trans (hsecond _ _).symm
  exact ⟨hlead _ _, hshort,
    (step_follows_fields (hlead 0xCB 0x17)).2 (beforeRotation 0x17 0x00) hsame hshort rfl rfl⟩

end Machine

end Sm83

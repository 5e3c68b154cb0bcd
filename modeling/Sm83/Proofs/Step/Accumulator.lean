import Sm83.Proofs.Place
import Sm83.Proofs.Arithmetic

/-!
# Arithmetic and logic on the accumulator

Seventy-two opcodes combine the accumulator with a byte: those of the third group with one of the
byte targets, those of the last column but one of the fourth with the byte that follows. The row
selects what is computed, a comparison being a subtraction whose result is dropped. In every state
the result and the flags are those of integer arithmetic, and nothing else changes.
-/

namespace Sm83

namespace Opcode

/-- The opcodes that combine the accumulator with the following byte. -/
def immediateAccumulations : List Byte := [0xC6, 0xCE, 0xD6, 0xDE, 0xE6, 0xEE, 0xF6, 0xFE]

/-- The opcode combines the accumulator with a byte. -/
def IsAccumulation (opcode : Byte) : Prop :=
  0x80 ≤ opcode ∧ opcode ≤ 0xBF ∨ opcode ∈ immediateAccumulations

instance (opcode : Byte) : Decidable (IsAccumulation opcode) :=
  inferInstanceAs (Decidable (_ ∧ _ ∨ _))

/-- The operation that a row selects, as integer arithmetic has it. -/
def Accumulates (row : Nat) (left right : Byte) (carry : Bool) (outcome : Outcome 8) : Prop :=
  match row with
  | 0 => outcome.IsSum left right false
  | 1 => outcome.IsSum left right carry
  | 2 => outcome.IsDifference left right false
  | 3 => outcome.IsDifference left right carry
  | 4 => outcome.IsBitwise (· && ·) left right true
  | 5 => outcome.IsBitwise (· ^^ ·) left right false
  | 6 => outcome.IsBitwise (· || ·) left right false
  | _ => outcome.IsDifference left right false

/-- The operation that a row selects. -/
def accumulation : Nat → Binary
  | 0 => .add
  | 1 => .adc
  | 2 => .sub
  | 3 => .sbc
  | 4 => .and
  | 5 => .xor
  | 6 => .or
  | _ => .sub

/-- Where the result goes. That of a comparison is dropped. -/
def accumulationTarget (row : Nat) : Operand 8 :=
  if row < 7 then .byteRegister .a else .readOnly (.byteRegister .a)

theorem accumulates_accumulation (row : Nat) (left right : Byte) (carry : Bool) :
    Accumulates row left right carry ((accumulation row).apply left right carry) := by
  match row with
  | 0 => exact Outcome.isSum_add left right false
  | 1 => exact Outcome.isSum_add left right carry
  | 2 => exact Outcome.isDifference_sub left right false
  | 3 => exact Outcome.isDifference_sub left right carry
  | 4 => exact Outcome.isBitwise_logic (fun _ _ => BitVec.getLsbD_and) true
  | 5 => exact Outcome.isBitwise_logic (fun _ _ => BitVec.getLsbD_xor) false
  | 6 => exact Outcome.isBitwise_logic (fun _ _ => BitVec.getLsbD_or) false
  | _ + 7 => exact Outcome.isDifference_sub left right false

theorem operation_accumulate (row : Nat) (source : Slot 8) :
    (accumulate row source).operation =
      .instruction (.binary (accumulation row) (accumulationTarget row) source.operand) := by
  match row with
  | 0 | 1 | 2 | 3 | 4 | 5 | 6 => rfl
  | row + 7 =>
    have hrow : ¬ row + 7 < 7 := by omega
    rw [accumulationTarget, if_neg hrow]
    rfl

private theorem group_of_isAccumulation {opcode : Byte} (haccumulation : IsAccumulation opcode) :
    if opcode ∈ immediateAccumulations then group opcode = 3 ∧ column opcode = 6
    else group opcode = 2 := by
  split
  · next himmediate =>
    have hall : ∀ opcode ∈ immediateAccumulations, group opcode = 3 ∧ column opcode = 6 := by
      decide
    exact hall opcode himmediate
  · next himmediate =>
    obtain ⟨hfirst, hlast⟩ := haccumulation.resolve_right himmediate
    rw [group]
    bv_omega

/-- The byte that an accumulation combines with the accumulator. -/
def accumulationSource (opcode : Byte) : Operand 8 :=
  if opcode ∈ immediateAccumulations then .nextByte else (Slot.cell (column opcode)).operand

theorem operation_of_isAccumulation {opcode : Byte} (haccumulation : IsAccumulation opcode) :
    (base opcode).operation =
      .instruction (.binary (accumulation (row opcode)) (accumulationTarget (row opcode))
        (accumulationSource opcode)) := by
  have hgroup := group_of_isAccumulation haccumulation
  rw [base_eq_describeBase, describeBase, accumulationSource]
  split at hgroup
  · next himmediate =>
    obtain ⟨hgroup, hcolumn⟩ := hgroup
    rw [hgroup, hcolumn, if_pos himmediate]
    exact operation_accumulate (row opcode) Slot.byteImmediate
  · next himmediate =>
    rw [hgroup, if_neg himmediate]
    exact operation_accumulate (row opcode) (Slot.cell (column opcode))

end Opcode

namespace Machine

/-- The byte that an accumulation combines with the accumulator. -/
def accumulated (machine : Machine) : Byte :=
  if machine.lead ∈ Opcode.immediateAccumulations then machine.memory.get (machine.word .pc + 1)
  else machine.peek (machine.target (Opcode.column machine.lead))

theorem sameData_read_accumulationSource (opcode : Byte) (machine : Machine) :
    ((Opcode.accumulationSource opcode).read machine).machine.SameData machine := by
  rw [Opcode.accumulationSource]
  split
  · exact .fetchByte machine
  · exact Slot.sameData_read_cell _ machine

theorem value_read_accumulationSource (machine : Machine) :
    ((Opcode.accumulationSource machine.lead).read machine.fetchByte.machine).value =
      machine.accumulated := by
  have hfetch := SameData.fetchByte machine
  rw [Opcode.accumulationSource, accumulated]
  split
  · rfl
  · rw [Slot.value_read_cell, hfetch.peek, hfetch.target]

/-- The effect of an operation on the accumulator. -/
theorem stores_binary (row : Nat) {source : Operand 8} {before machine : Machine}
    (hmachine : machine.SameData before) (hread : (source.read machine).machine.SameData machine) :
    ∃ outcome,
      Opcode.Accumulates row (before.byte .a) (source.read machine).value before.flags.carry
        outcome ∧
      before.Stores (.register .a) (if row < 7 then outcome.value else before.byte .a)
        (machine.binary (Opcode.accumulation row) (Opcode.accumulationTarget row) source) ∧
      (machine.binary (Opcode.accumulation row) (Opcode.accumulationTarget row) source).flags =
        outcome.flags := by
  have hsame := hread.trans hmachine
  have haccumulates := Opcode.accumulates_accumulation row (before.byte .a)
    (source.read machine).value before.flags.carry
  generalize houtcome : (Opcode.accumulation row).apply (before.byte .a)
    (source.read machine).value before.flags.carry = outcome at haccumulates
  have hne : Place.register .a ≠ .register .f := by decide
  refine ⟨outcome, haccumulates, ?_⟩
  rw [← hmachine.byte .a, ← hsame.flags] at houtcome
  rw [Opcode.accumulationTarget]
  split
  · have hresult : (machine.binary (Opcode.accumulation row) (.byteRegister .a) source).SameData
        ((before.setFlags outcome.flags).poke (.register .a) outcome.value) := by
      rw [← houtcome]
      exact (hsame.setFlags _).setByte .a _
    exact hresult.stores hne
  · have hresult : (machine.binary (Opcode.accumulation row) (.readOnly (.byteRegister .a))
        source).SameData (before.setFlags outcome.flags) := by
      rw [← houtcome]
      exact hsame.setFlags _
    exact hresult.keeps hne

/-- In every state, an operation on the accumulator is that of integer arithmetic. -/
theorem step_accumulates {machine : Machine} (hlead : Opcode.IsAccumulation machine.lead) :
    ∃ outcome,
      Opcode.Accumulates (Opcode.row machine.lead) (machine.byte .a) machine.accumulated
        machine.flags.carry outcome ∧
      machine.Stores (.register .a)
        (if Opcode.row machine.lead < 7 then outcome.value else machine.byte .a) machine.step ∧
      machine.step.flags = outcome.flags := by
  have hstep : machine.step =
      machine.fetchByte.machine.binary (Opcode.accumulation (Opcode.row machine.lead))
        (Opcode.accumulationTarget (Opcode.row machine.lead))
        (Opcode.accumulationSource machine.lead) :=
    step_of_operation_eq (Opcode.operation_of_isAccumulation hlead)
  rw [hstep, ← value_read_accumulationSource]
  exact stores_binary _ (.fetchByte machine) (sameData_read_accumulationSource machine.lead _)

/-- The largest byte and the carry are about to be added to the accumulator. -/
def beforeAdc : Machine where
  cpu := { registers := (({} : Registers).setFlag .carry true).setByte .a 0x0F }
  memory := (Memory.zero.set 0 0xCE).set 1 0xFF

theorem step_accumulates_beforeAdc :
    Opcode.IsAccumulation beforeAdc.lead ∧ beforeAdc.step.byte .a = 0x0F ∧
      beforeAdc.step.flags.halfCarry = true ∧ beforeAdc.step.flags.carry = true := by
  have hlead : beforeAdc.lead = 0xCE :=
    (Memory.get_set_of_ne (by decide) _ _).trans (Memory.get_set_self _ _ _)
  have haccumulation : Opcode.IsAccumulation beforeAdc.lead := by
    rw [hlead]
    decide
  obtain ⟨outcome, hsum, hstores, hflags⟩ := step_accumulates haccumulation
  have haccumulated : beforeAdc.accumulated = 0xFF := by
    rw [accumulated, hlead, if_pos (by decide)]
    exact Memory.get_set_self _ _ _
  have hresult := hstores.target
  rw [haccumulated] at hsum
  rw [hlead] at hsum hresult
  refine ⟨haccumulation, hresult.trans (BitVec.eq_of_toNat_eq hsum.value), ?_, ?_⟩
  · rw [hflags]
    exact hsum.halfCarry.mpr (by decide)
  · rw [hflags]
    exact hsum.carry.mpr (by decide)

end Machine

end Sm83

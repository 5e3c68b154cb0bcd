import Sm83.Proofs.Stack

/-!
# Control transfers

Jumps, calls, returns and restarts load the program counter, and those of them that have a condition
read it from two bits of the opcode. Where one goes, what it does to the stack and what it leaves
alone is told here from the state before the step, so that a call that overwrites its own bytes goes
where they led when it was fetched, and returns to behind them.
-/

namespace Sm83

/-- The condition in bits 3 and 4 of an opcode. -/
def Opcode.conditionHolds (opcode : Byte) (flags : Flags) : Bool :=
  match opcode.toNat / 8 % 4 with
  | 0 => !flags.zero
  | 1 => flags.zero
  | 2 => !flags.carry
  | _ => flags.carry

theorem Opcode.holds_select (opcode : Byte) (flags : Flags) :
    (Condition.select (row opcode % 4)).2.holds flags = conditionHolds opcode flags := by
  have hrow : row opcode % 4 = opcode.toNat / 8 % 4 := by
    rw [row]
    omega
  rw [hrow, conditionHolds]
  generalize opcode.toNat / 8 % 4 = selector
  match selector with
  | 0 => exact Bool.xor_true flags.zero
  | 1 => exact Bool.xor_false flags.zero
  | 2 => exact Bool.xor_true flags.carry
  | _ + 3 => exact Bool.xor_false flags.carry

/-- The kinds of control transfers. -/
inductive Transfer where
  | jp
  | jr
  | call
  | ret
  | reti
  | rst
  | jpHl

namespace Transfer

/-- The opcodes of a kind that have a condition. -/
def conditional : Transfer → List Byte
  | .jp => [0xC2, 0xCA, 0xD2, 0xDA]
  | .jr => [0x20, 0x28, 0x30, 0x38]
  | .call => [0xC4, 0xCC, 0xD4, 0xDC]
  | .ret => [0xC0, 0xC8, 0xD0, 0xD8]
  | .reti | .rst | .jpHl => []

def unconditional : Transfer → List Byte
  | .jp => [0xC3]
  | .jr => [0x18]
  | .call => [0xCD]
  | .ret => [0xC9]
  | .reti => [0xD9]
  | .rst => [0xC7, 0xCF, 0xD7, 0xDF, 0xE7, 0xEF, 0xF7, 0xFF]
  | .jpHl => [0xE9]

def isTaken (transfer : Transfer) (machine : Machine) : Bool :=
  transfer.unconditional.contains machine.lead ||
    Opcode.conditionHolds machine.lead machine.flags

/-- The bytes of an opcode of the kind with what follows it. -/
def length : Transfer → Nat
  | .jp | .call => 3
  | .jr => 2
  | .ret | .reti | .rst | .jpHl => 1

/-- The address of what comes after the transfer in memory. -/
def next (transfer : Transfer) (machine : Machine) : Word :=
  machine.word .pc + BitVec.ofNat 16 transfer.length

/-- Where a transfer goes if it is taken. -/
def destination (transfer : Transfer) (machine : Machine) : Word :=
  match transfer with
  | .jp | .call => machine.following
  | .jr => machine.word .pc + 2 + machine.second.signExtend 16
  | .ret | .reti => machine.memory.word (machine.word .sp)
  | .rst => BitVec.ofNat 16 (8 * Opcode.row machine.lead)
  | .jpHl => machine.word .hl

/-- What a transfer does besides if it is taken. -/
def assignments (transfer : Transfer) (machine : Machine) : List Assignment :=
  match transfer with
  | .call | .rst => machine.pushes (transfer.next machine)
  | .ret => [.word .sp (machine.word .sp + 2)]
  | .reti => [.word .sp (machine.word .sp + 2), .enableInterrupts]
  | .jp | .jr | .jpHl => []

/-! ### What the tables hold -/

/-- The instruction that an opcode of the kind stands for. -/
def instruction (transfer : Transfer) (condition : Condition) (opcode : Byte) : Instruction :=
  match transfer with
  | .jp => .jp condition .nextWord
  | .jr => .jr condition
  | .call => .call condition
  | .ret => .ret condition
  | .reti => .reti
  | .rst => .rst (.constant (BitVec.ofNat 16 (8 * Opcode.row opcode)))
  | .jpHl => .jpHl

theorem operation_of_mem_conditional {transfer : Transfer} {opcode : Byte}
    (hopcode : opcode ∈ transfer.conditional) :
    (Opcode.base opcode).operation =
      .instruction (transfer.instruction (Condition.select (Opcode.row opcode % 4)).2 opcode) := by
  rw [Opcode.base_eq_describeBase]
  cases transfer with
  | jp | jr | call | ret =>
    simp only [conditional, List.mem_cons, List.not_mem_nil, or_false] at hopcode
    rcases hopcode with rfl | rfl | rfl | rfl <;> rfl
  | reti | rst | jpHl => cases hopcode

theorem operation_of_mem_unconditional {transfer : Transfer} {opcode : Byte}
    (hopcode : opcode ∈ transfer.unconditional) :
    (Opcode.base opcode).operation =
      .instruction (transfer.instruction .always opcode) := by
  rw [Opcode.base_eq_describeBase]
  cases transfer with
  | rst =>
    simp only [unconditional, List.mem_cons, List.not_mem_nil, or_false] at hopcode
    rcases hopcode with rfl | rfl | rfl | rfl | rfl | rfl | rfl | rfl <;> rfl
  | jp | jr | call | ret | reti | jpHl =>
    rw [List.mem_singleton.mp hopcode]
    rfl

end Transfer

/-! ### Taken and not -/

namespace Machine

section Decided

variable {machine : Machine} {condition : Condition}

theorem jp_of_satisfies (hholds : machine.satisfies condition = true) :
    machine.jp condition .nextWord =
      machine.fetchWord.machine.tick.setWord .pc machine.fetchWord.value :=
  if_pos hholds

theorem jp_of_not_satisfies (hholds : ¬ machine.satisfies condition = true) :
    machine.jp condition .nextWord = machine.fetchWord.machine :=
  if_neg hholds

theorem jr_of_satisfies (hholds : machine.satisfies condition = true) :
    machine.jr condition =
      machine.fetchByte.machine.tick.setWord .pc
        (machine.word .pc + 1 + machine.fetchByte.value.signExtend 16) :=
  if_pos hholds

theorem jr_of_not_satisfies (hholds : ¬ machine.satisfies condition = true) :
    machine.jr condition = machine.fetchByte.machine :=
  if_neg hholds

theorem call_of_satisfies (hholds : machine.satisfies condition = true) :
    machine.call condition =
      (machine.fetchWord.machine.push (.wordRegister .pc)).setWord .pc machine.fetchWord.value :=
  if_pos hholds

theorem call_of_not_satisfies (hholds : ¬ machine.satisfies condition = true) :
    machine.call condition = machine.fetchWord.machine :=
  if_neg hholds

end Decided

/-- A return that is taken. Deciding on its condition only costs time. -/
theorem ret_of_satisfies {before machine : Machine} (hmachine : machine.SameData before)
    {condition : Condition} (hholds : machine.satisfies condition = true) :
    (machine.ret condition).SameData (before.setWord .sp (before.word .sp + 2)) ∧
      (machine.ret condition).word .pc = before.memory.word (before.word .sp) := by
  simp only [ret]
  generalize hdecided : (if condition = .always then machine else machine.tick) = decided
  have hsame : decided.SameData before := by
    rw [← hdecided]
    split
    · exact hmachine
    · exact (SameData.tick machine).trans hmachine
  have htaken : decided.satisfies condition = true := by
    rw [← hdecided]
    split <;> exact hholds
  have hsp : decided.word .sp = before.word .sp := hsame.word .sp (by decide)
  have hvalue := Pointer.value_readWord_pop decided
  rw [hsame.memory, hsp] at hvalue
  have hpop := Pointer.sameData_readWord_pop hsame
  rw [if_pos htaken]
  exact ⟨(SameData.tick _).trans ((SameData.setPc _ _).trans hpop), hvalue⟩

theorem ret_of_not_satisfies {machine : Machine} {condition : Condition}
    (hholds : ¬ machine.satisfies condition = true) : machine.ret condition = machine.tick := by
  have hcondition : condition ≠ .always := by
    rintro rfl
    exact hholds rfl
  simp only [ret, if_neg hcondition]
  exact if_neg hholds

/-- The return address goes onto the stack. -/
theorem sameData_push_pc {before machine : Machine} (hmachine : machine.SameData before) :
    (machine.push (.wordRegister .pc)).SameData
      (before.assignAll (before.pushes (machine.word .pc))) :=
  sameData_push hmachine (.refl machine)

end Machine

/-! ### The effect -/

namespace Transfer

variable {transfer : Transfer} {condition : Condition} {machine : Machine}

theorem execute_of_satisfies (hholds : machine.satisfies condition = true) :
    ((transfer.instruction condition machine.lead).execute machine.fetchByte.machine).SameData
        (machine.assignAll (transfer.assignments machine)) ∧
      ((transfer.instruction condition machine.lead).execute machine.fetchByte.machine).word .pc =
        transfer.destination machine := by
  have hfetch := Machine.SameData.fetchByte machine
  have hsecond := (Machine.SameData.fetchByte machine.fetchByte.machine).trans hfetch
  have hfollowing := (Machine.SameData.fetchWord machine.fetchByte.machine).trans hfetch
  have hfetched : machine.fetchByte.machine.satisfies condition = true := hholds
  cases transfer with
  | jp =>
    rw [instruction, Instruction.execute, Machine.jp_of_satisfies hfetched]
    exact ⟨(Machine.SameData.setPc _ _).trans ((Machine.SameData.tick _).trans hfollowing), rfl⟩
  | jr =>
    have hlength : machine.word .pc + 1 + 1 = machine.word .pc + 2 :=
      Word.add_one_add_ofNat _ 1
    rw [instruction, Instruction.execute, Machine.jr_of_satisfies hfetched, destination, ← hlength]
    exact ⟨(Machine.SameData.setPc _ _).trans ((Machine.SameData.tick _).trans hsecond), rfl⟩
  | call =>
    -- The destination is read before the push that may overwrite it.
    have hreturn : machine.fetchByte.machine.fetchWord.machine.word .pc = next .call machine :=
      Word.add_one_add_ofNat _ 2
    have hpush := Machine.sameData_push_pc hfollowing
    rw [hreturn] at hpush
    rw [instruction, Instruction.execute, Machine.call_of_satisfies hfetched]
    exact ⟨(Machine.SameData.setPc _ _).trans hpush, rfl⟩
  | ret => exact Machine.ret_of_satisfies hfetch hfetched
  | reti =>
    have halways : machine.fetchByte.machine.satisfies .always = true := rfl
    obtain ⟨hsame, hpc⟩ := Machine.ret_of_satisfies hfetch halways
    exact ⟨hsame.enableInterrupts, hpc⟩
  | rst => exact ⟨(Machine.SameData.setPc _ _).trans (Machine.sameData_push_pc hfetch), rfl⟩
  | jpHl => exact ⟨(Machine.SameData.setPc _ _).trans hfetch, rfl⟩

/-- A transfer that is not taken goes on behind its operands. -/
theorem execute_of_not_satisfies (hlead : machine.lead ∈ transfer.conditional)
    (hholds : ¬ machine.satisfies condition = true) :
    ((transfer.instruction condition machine.lead).execute machine.fetchByte.machine).SameData
        machine ∧
      ((transfer.instruction condition machine.lead).execute machine.fetchByte.machine).word .pc =
        transfer.next machine := by
  have hfetch := Machine.SameData.fetchByte machine
  have hsecond := (Machine.SameData.fetchByte machine.fetchByte.machine).trans hfetch
  have hfollowing := (Machine.SameData.fetchWord machine.fetchByte.machine).trans hfetch
  have hfetched : ¬ machine.fetchByte.machine.satisfies condition = true := hholds
  cases transfer with
  | jp =>
    rw [instruction, Instruction.execute, Machine.jp_of_not_satisfies hfetched]
    exact ⟨hfollowing, Word.add_one_add_ofNat _ 2⟩
  | jr =>
    rw [instruction, Instruction.execute, Machine.jr_of_not_satisfies hfetched]
    exact ⟨hsecond, Word.add_one_add_ofNat _ 1⟩
  | call =>
    rw [instruction, Instruction.execute, Machine.call_of_not_satisfies hfetched]
    exact ⟨hfollowing, Word.add_one_add_ofNat _ 2⟩
  | ret =>
    rw [instruction, Instruction.execute, Machine.ret_of_not_satisfies hfetched]
    exact ⟨(Machine.SameData.tick _).trans hfetch, rfl⟩
  | reti | rst | jpHl => cases hlead

theorem compatible_assignments (transfer : Transfer) (machine : Machine) :
    Assignment.Compatible (transfer.assignments machine) := by
  have hsp : (Assignment.word .sp (machine.word .sp + 2)).IsStorable := ⟨by decide, by decide⟩
  cases transfer with
  | call | rst => exact machine.compatible_pushes _
  | ret => exact Assignment.compatible_singleton hsp
  | reti =>
    have hinterrupts : Assignment.enableInterrupts.IsStorable := trivial
    exact Assignment.compatible_pair hsp hinterrupts not_false
  | jp | jr | jpHl => exact Assignment.compatible_nil

private theorem not_mem_unconditional {opcode : Byte} (hopcode : opcode ∈ transfer.conditional) :
    opcode ∉ transfer.unconditional := by
  have hall : ∀ opcode ∈ transfer.conditional, opcode ∉ transfer.unconditional := by
    cases transfer <;> decide
  exact hall opcode hopcode

/-- The condition of the instruction tells whether the transfer is taken. -/
theorem exists_condition (hlead : machine.lead ∈ transfer.conditional ++ transfer.unconditional) :
    ∃ condition,
      (Opcode.base machine.lead).operation =
        .instruction (transfer.instruction condition machine.lead) ∧
      machine.satisfies condition = transfer.isTaken machine ∧
      (transfer.isTaken machine = true ∨ machine.lead ∈ transfer.conditional) := by
  rcases List.mem_append.mp hlead with hconditional | hunconditional
  · refine ⟨_, operation_of_mem_conditional hconditional, ?_, .inr hconditional⟩
    have hnot : transfer.unconditional.contains machine.lead = false :=
      Bool.eq_false_iff.mpr (mt List.contains_iff_mem.mp (not_mem_unconditional hconditional))
    rw [isTaken, hnot, Bool.false_or]
    exact Opcode.holds_select machine.lead machine.flags
  · have htaken : transfer.isTaken machine = true := by
      rw [isTaken, List.contains_iff_mem.mpr hunconditional, Bool.true_or]
    exact ⟨.always, operation_of_mem_unconditional hunconditional, htaken.symm, .inl htaken⟩

end Transfer

namespace Machine

/-- In every state, a control transfer goes where its encoding says, a taken one to its destination
and one that is not to the next instruction, and changes nothing else but the stack. -/
theorem step_transfers {transfer : Transfer} {machine : Machine}
    (hlead : machine.lead ∈ transfer.conditional ++ transfer.unconditional) :
    machine.step.word .pc =
        (if transfer.isTaken machine then transfer.destination machine
          else transfer.next machine) ∧
      machine.Assigns (if transfer.isTaken machine then transfer.assignments machine else [])
        machine.step := by
  obtain ⟨condition, hoperation, hsatisfies, htaken⟩ := Transfer.exists_condition hlead
  rw [step_of_operation_eq hoperation]
  split
  · next hholds =>
    rw [hholds] at hsatisfies
    obtain ⟨hsame, hpc⟩ := Transfer.execute_of_satisfies hsatisfies
    exact ⟨hpc, hsame.assigns (transfer.compatible_assignments machine)⟩
  · next hholds =>
    rw [← hsatisfies] at hholds htaken
    obtain ⟨hsame, hpc⟩ := Transfer.execute_of_not_satisfies (htaken.resolve_left hholds) hholds
    exact ⟨hpc, SameData.assigns hsame Assignment.compatible_nil⟩

/-- A call to 0x1234 is about to put its return address over its own operand. -/
def beforeCall : Machine where
  cpu := { registers := { sp := 3 } }
  memory := ((Memory.zero.set 0 0xCD).set 1 0x34).set 2 0x12

theorem step_transfers_beforeCall :
    beforeCall.lead ∈ Transfer.call.conditional ++ Transfer.call.unconditional ∧
      beforeCall.step.word .pc = 0x1234 ∧ beforeCall.step.word .sp = 1 ∧
      beforeCall.step.memory.get 1 = 0x03 ∧ beforeCall.step.memory.get 2 = 0x00 := by
  have hlead : beforeCall.lead = 0xCD := rfl
  have hcall : beforeCall.lead ∈ Transfer.call.conditional ++ Transfer.call.unconditional := by
    rw [hlead]
    decide
  obtain ⟨hpc, hassigns⟩ := step_transfers hcall
  have htaken : Transfer.call.isTaken beforeCall = true := by
    rw [Transfer.isTaken, hlead]
    decide
  rw [if_pos htaken] at hpc hassigns
  have hmade := hassigns.made
  rw [Transfer.assignments, pushes, List.forall_mem_cons, List.forall_mem_cons,
    List.forall_mem_singleton] at hmade
  exact ⟨hcall, hpc, hmade.2.2, hmade.1, hmade.2.1⟩

end Machine

end Sm83

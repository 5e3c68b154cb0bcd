import Sm83.Proofs.Assignment

/-!
# Loads

More than ninety opcodes move a value and do nothing else. The byte targets, the register pairs and
the values that follow an opcode are named by its fields; the accumulator moves to and from seven
places in memory, two of which move HL along. In every state a load makes just the assignments that
its encoding names, also where it writes to its own bytes.
-/

namespace Sm83

/-- The kinds of loads. -/
inductive Load where
  /-- From one byte target to another. -/
  | move
  | byteImmediate
  | wordImmediate
  /-- From the accumulator to memory. -/
  | store
  /-- From memory to the accumulator. -/
  | fetch
  | storeSp
  | copyHl

namespace Load

/-- The opcodes of a kind. -/
def Encodes (load : Load) (opcode : Byte) : Prop :=
  match load with
  | .move => 0x40 ≤ opcode ∧ opcode ≤ 0x7F ∧ opcode ≠ 0x76
  | .byteImmediate => Opcode.group opcode = 0 ∧ Opcode.column opcode = 6
  | .wordImmediate =>
    Opcode.group opcode = 0 ∧ Opcode.column opcode = 1 ∧ Opcode.row opcode % 2 = 0
  | .store => opcode ∈ [0x02, 0x12, 0x22, 0x32, 0xE0, 0xE2, 0xEA]
  | .fetch => opcode ∈ [0x0A, 0x1A, 0x2A, 0x3A, 0xF0, 0xF2, 0xFA]
  | .storeSp => opcode = 0x08
  | .copyHl => opcode = 0xF9

/-- What leads to the accumulator's place in memory. -/
def base (opcode : Byte) : Base :=
  match opcode with
  | 0x02 | 0x0A => .wordRegister .bc
  | 0x12 | 0x1A => .wordRegister .de
  | 0x22 | 0x2A | 0x32 | 0x3A => .wordRegister .hl
  | 0xE0 | 0xF0 => .nextByte
  | 0xE2 | 0xF2 => .byteRegister .c
  | _ => .nextWord

/-- How far HL moves. -/
def distance (opcode : Byte) : Word :=
  match opcode with
  | 0x22 | 0x2A => 1
  | 0x32 | 0x3A => -1
  | _ => 0

def moves (opcode : Byte) (machine : Machine) : List Assignment :=
  if distance opcode = 0 then [] else [.word .hl (machine.word .hl + distance opcode)]

/-- What a load does in a machine that has its opcode at the program counter. -/
def assignments (load : Load) (machine : Machine) : List Assignment :=
  let opcode := machine.lead
  let target := machine.target (Opcode.row opcode)
  let address := (base opcode).origin machine
  match load with
  | .move => [.byte target (machine.peek (machine.target (Opcode.column opcode)))]
  | .byteImmediate => [.byte target machine.second]
  | .wordImmediate => [.word (.ofPair (Opcode.row opcode / 2)) machine.following]
  | .store => .byte (.memory address) (machine.byte .a) :: moves opcode machine
  | .fetch => moves opcode machine ++ [.byte (.register .a) (machine.memory.get address)]
  | .storeSp =>
    [.byte (.memory machine.following) (Word.low (machine.word .sp)),
      .byte (.memory (machine.following + 1)) (Word.high (machine.word .sp))]
  | .copyHl => [.word .sp (machine.word .hl)]

/-! ### What the tables hold -/

def pointer (opcode : Byte) : Pointer := { base := base opcode, step := distance opcode }

/-- The instruction that an opcode of the kind stands for. -/
def instruction (load : Load) (opcode : Byte) : Instruction :=
  let target := (Slot.cell (Opcode.row opcode)).operand
  match load with
  | .move => .ld target (Slot.cell (Opcode.column opcode)).operand
  | .byteImmediate => .ld target .nextByte
  | .wordImmediate => .ld (.wordRegister (.ofPair (Opcode.row opcode / 2))) .nextWord
  | .store => .ld (.byteAt (pointer opcode)) (.byteRegister .a)
  | .fetch => .ld (.byteRegister .a) (.byteAt (pointer opcode))
  | .storeSp => .ld (.wordAt { base := .nextWord }) (.wordRegister .sp)
  | .copyHl => .ldSpHl

private theorem fields_of_move {opcode : Byte} (hmove : Encodes .move opcode) :
    Opcode.group opcode = 1 ∧ ¬ (Opcode.row opcode = 6 ∧ Opcode.column opcode = 6) := by
  rw [Encodes] at hmove
  rw [Opcode.group, Opcode.row, Opcode.column]
  bv_omega

theorem operation_of_encodes {load : Load} {opcode : Byte} (hencodes : load.Encodes opcode) :
    (Opcode.base opcode).operation = .instruction (load.instruction opcode) := by
  rw [Opcode.base_eq_describeBase]
  cases load with
  | move =>
    obtain ⟨hgroup, hhalt⟩ := fields_of_move hencodes
    rw [Opcode.describeBase, hgroup, Opcode.describeLoad, if_neg hhalt]
    rfl
  | byteImmediate =>
    obtain ⟨hgroup, hcolumn⟩ := hencodes
    rw [Opcode.describeBase, hgroup, hcolumn]
    rfl
  | wordImmediate =>
    obtain ⟨hgroup, hcolumn, hrow⟩ := hencodes
    have hodd : ¬ Opcode.row opcode % 2 = 1 := by omega
    rw [Opcode.describeBase, hgroup, hcolumn]
    simp only [Opcode.describeFirst, if_neg hodd, instruction, ← Slot.operand_pair]
    rfl
  | store =>
    simp only [Encodes, List.mem_cons, List.not_mem_nil, or_false] at hencodes
    rcases hencodes with rfl | rfl | rfl | rfl | rfl | rfl | rfl <;> rfl
  | fetch =>
    simp only [Encodes, List.mem_cons, List.not_mem_nil, or_false] at hencodes
    rcases hencodes with rfl | rfl | rfl | rfl | rfl | rfl | rfl <;> rfl
  | storeSp =>
    cases hencodes
    rfl
  | copyHl =>
    cases hencodes
    rfl

/-! ### The effect -/

theorem isPlain_base (opcode : Byte) : (base opcode).isPlain = true := by
  unfold base
  split <;> rfl

private theorem base_eq_hl {opcode : Byte} (hmoves : distance opcode ≠ 0) :
    base opcode = .wordRegister .hl := by
  unfold distance at hmoves
  split at hmoves <;> first | rfl | exact absurd rfl hmoves

theorem advance_pointer (opcode : Byte) (machine : Machine) :
    (pointer opcode).advance machine = machine.assignAll (moves opcode machine) := by
  change (if distance opcode = 0 then machine
    else (base opcode).advance (distance opcode) machine) = _
  rw [moves]
  split
  · rfl
  · next hmoves =>
    rw [base_eq_hl hmoves]
    rfl

theorem sameData_advance_pointer {left right : Machine} (hsame : left.SameData right)
    (opcode : Byte) :
    ((pointer opcode).advance left).SameData (right.assignAll (moves opcode right)) := by
  rw [← advance_pointer]
  exact Pointer.sameData_advance (isPlain_base opcode) hsame

theorem value_address_pointer (opcode : Byte) (machine : Machine) :
    ((pointer opcode).address machine.fetchByte.machine).value =
      (base opcode).origin machine :=
  (BitVec.add_zero _).trans (Base.value_address_fetchByte (isPlain_base opcode) machine)

/-- A load to a byte target. -/
theorem sameData_ld_cell {before machine : Machine} (hmachine : machine.SameData before)
    {source : Operand 8} (hread : (source.read machine).machine.SameData machine) (index : Nat) :
    (machine.ld (Slot.cell index).operand source).SameData
      (before.poke (before.target index) (source.read machine).value) := by
  have hsame := hread.trans hmachine
  have hwrite := Slot.sameData_write_cell index (source.read machine).value
    (source.read machine).machine
  rw [hsame.target] at hwrite
  exact hwrite.trans (hsame.poke _ _)

theorem sameData_execute (load : Load) (machine : Machine) :
    ((load.instruction machine.lead).execute machine.fetchByte.machine).SameData
      (machine.assignAll (load.assignments machine)) := by
  have hfetch := Machine.SameData.fetchByte machine
  have hplain := isPlain_base machine.lead
  cases load with
  | move =>
    have hread := Slot.sameData_read_cell (Opcode.column machine.lead) machine.fetchByte.machine
    have hload := sameData_ld_cell hfetch hread (Opcode.row machine.lead)
    rw [Slot.value_read_cell, hfetch.target, hfetch.peek] at hload
    exact hload
  | byteImmediate =>
    have hread : ((Operand.nextByte).read machine.fetchByte.machine).machine.SameData
        machine.fetchByte.machine := .fetchByte machine.fetchByte.machine
    exact sameData_ld_cell hfetch hread (Opcode.row machine.lead)
  | wordImmediate => exact ((Machine.SameData.fetchWord _).trans hfetch).setWord _ machine.following
  | store =>
    have hwrite := (pointer machine.lead).sameData_writeByte hplain
      (machine.fetchByte.machine.byte .a) machine.fetchByte.machine
    rw [value_address_pointer, hfetch.byte .a] at hwrite
    exact hwrite.trans (sameData_advance_pointer (hfetch.poke _ _) machine.lead)
  | fetch =>
    have hread := (pointer machine.lead).sameData_readByte hplain machine.fetchByte.machine
    have hvalue := (pointer machine.lead).value_readByte machine.fetchByte.machine
    rw [value_address_pointer] at hvalue
    have hmoved := hread.trans (sameData_advance_pointer hfetch machine.lead)
    change (((pointer machine.lead).readByte machine.fetchByte.machine).machine.setByte .a
      ((pointer machine.lead).readByte machine.fetchByte.machine).value).SameData
        (machine.assignAll (moves machine.lead machine ++ _))
    rw [Machine.assignAll_append, hvalue]
    exact hmoved.setByte .a _
  | storeSp =>
    have hwrite := ({ base := .nextWord } : Pointer).sameData_writeWord rfl (machine.word .sp)
      machine.fetchByte.machine
    have haddress : (({ base := .nextWord } : Pointer).address machine.fetchByte.machine).value =
        machine.following := BitVec.add_zero machine.following
    have hlow := hfetch.poke (.memory machine.following) (Word.low (machine.word .sp))
    rw [haddress] at hwrite
    exact hwrite.trans (hlow.poke (.memory (machine.following + 1)) (Word.high (machine.word .sp)))
  | copyHl => exact (Machine.SameData.tick _).trans (hfetch.setWord .sp (machine.word .hl))

theorem eq_word_of_mem_moves {opcode : Byte} {machine : Machine} {assignment : Assignment}
    (hmem : assignment ∈ moves opcode machine) : ∃ value, assignment = .word .hl value := by
  rw [moves] at hmem
  split at hmem
  · cases hmem
  · exact ⟨_, List.mem_singleton.mp hmem⟩

theorem compatible_moves (opcode : Byte) (machine : Machine) :
    Assignment.Compatible (moves opcode machine) := by
  rw [moves]
  split
  · exact Assignment.compatible_nil
  · exact Assignment.compatible_singleton ⟨by decide, by decide⟩

theorem compatible_assignments (load : Load) (machine : Machine) :
    Assignment.Compatible (load.assignments machine) := by
  cases load with
  | move => exact Assignment.compatible_singleton (machine.target_ne_f _)
  | byteImmediate => exact Assignment.compatible_singleton (machine.target_ne_f _)
  | wordImmediate => exact Assignment.compatible_singleton (WordRegister.ofPair_ne _)
  | store =>
    apply (compatible_moves machine.lead machine).cons (Assignment.isStorable_memory _ _)
    intro later hlater
    obtain ⟨value, rfl⟩ := eq_word_of_mem_moves hlater
    exact Assignment.spares_word _ _ _ _
  | fetch =>
    have hne : Place.register .a ≠ .register .f := by decide
    refine (compatible_moves machine.lead machine).concat hne ?_
    intro earlier hearlier
    obtain ⟨value, rfl⟩ := eq_word_of_mem_moves hearlier
    show WordRegister.af ≠ .hl
    decide
  | storeSp =>
    have hne : machine.following ≠ machine.following + 1 := by bv_omega
    exact Assignment.compatible_memory hne _ _
  | copyHl => exact Assignment.compatible_singleton ⟨by decide, by decide⟩

end Load

namespace Machine

/-- In every state, a load assigns what its encoding names and changes nothing else. -/
theorem step_loads {load : Load} {machine : Machine} (hencodes : load.Encodes machine.lead) :
    machine.Assigns (load.assignments machine) machine.step := by
  have hstep : machine.step =
      (load.instruction machine.lead).execute machine.fetchByte.machine :=
    step_of_operation_eq (Load.operation_of_encodes hencodes)
  rw [hstep]
  exact (load.sameData_execute machine).assigns (load.compatible_assignments machine)

/-- The accumulator is about to be stored over the opcode, and HL to move below zero. -/
def beforeStore : Machine where
  cpu := { registers := ({} : Registers).setByte .a 0x5A }
  memory := Memory.zero.set 0 0x32

theorem step_loads_beforeStore :
    Load.store.Encodes beforeStore.lead ∧ beforeStore.step.memory.get 0 = 0x5A ∧
      beforeStore.step.word .hl = 0xFFFF ∧ beforeStore.step.flags = beforeStore.flags := by
  have hlead : beforeStore.lead = 0x32 := Memory.get_set_self _ _ _
  have hencodes : Load.store.Encodes beforeStore.lead := by
    rw [hlead, Load.Encodes]
    decide
  have hassignments : Load.store.assignments beforeStore =
      [.byte (.memory 0) 0x5A, .word .hl 0xFFFF] := by
    simp only [Load.assignments, hlead]
    rfl
  have hloads := step_loads hencodes
  rw [hassignments] at hloads
  have hmade := hloads.made
  rw [List.forall_mem_cons, List.forall_mem_singleton] at hmade
  have hflags := hloads.places (.register .f)
  rw [List.forall_mem_cons, List.forall_mem_singleton] at hflags
  refine ⟨hencodes, hmade.1, hmade.2, congrArg Flags.ofByte (hflags ⟨nofun, ?_⟩)⟩
  rintro ⟨half, hpair, heq⟩
  cases heq
  cases hpair

end Machine

end Sm83

import Sm83.Proofs.Arithmetic
import Sm83.Proofs.Assignment

/-!
# Counting and word arithmetic

The byte targets and the register pairs are counted up and down, HL has a pair added to it, and the
stack pointer is moved by a signed byte. One adder serves all but the last of these, and the flags
that an instruction does not set are put back after it. In every state the results and the flags are
those of integer arithmetic, and nothing else changes.
-/

namespace Sm83

/-! ### In integers -/

theorem Word.add_one_eq_ofNat (value : Word) :
    value + 1 = BitVec.ofNat 16 (value.toNat + 1) := by
  rw [BitVec.ofNat_add, BitVec.ofNat_toNat, BitVec.setWidth_eq]
  rfl

theorem Word.sub_one_eq_ofInt (value : Word) :
    value - 1 = BitVec.ofInt 16 (value.toNat - 1) := by
  rw [BitVec.sub_eq_add_neg, Int.sub_eq_add_neg, BitVec.ofInt_add, BitVec.ofInt_natCast,
    BitVec.ofNat_toNat, BitVec.setWidth_eq]
  rfl

namespace Outcome

/-- A byte counted up. -/
def countUp (value : Byte) (carry : Bool) : Outcome 8 :=
  let result := BitVec.ofNat 8 (value.toNat + 1)
  { value := result
    flags := { zero := result = 0, halfCarry := value.toNat % 16 = 15, carry } }

/-- A byte counted down. -/
def countDown (value : Byte) (carry : Bool) : Outcome 8 :=
  let result := BitVec.ofInt 8 (value.toNat - 1)
  { value := result
    flags := { zero := result = 0, subtract := true, halfCarry := value.toNat % 16 = 0, carry } }

/-- The sum of two words. -/
def wordSum (left right : Word) (zero : Bool) : Outcome 16 where
  value := BitVec.ofNat 16 (left.toNat + right.toNat)
  flags :=
    { zero
      halfCarry := 4096 ≤ left.toNat % 4096 + right.toNat % 4096
      carry := 65536 ≤ left.toNat + right.toNat }

/-- A word moved by a signed byte. The flags tell of the low bytes, which are added unsigned. -/
def displaced (base : Word) (distance : Byte) : Outcome 16 where
  value := BitVec.ofInt 16 (base.toNat + distance.toInt)
  flags :=
    { halfCarry := 16 ≤ base.toNat % 16 + distance.toNat % 16
      carry := 256 ≤ base.toNat % 256 + distance.toNat }

private theorem eq_decide {flag : Bool} {condition : Prop} [Decidable condition]
    (hiff : flag = true ↔ condition) : flag = decide condition := by
  rw [Bool.eq_iff_iff, hiff, decide_eq_true_iff]

theorem add_one (value : Byte) (carry : Bool) :
    (add value 1 false).value = (countUp value carry).value ∧
      (add value 1 false).flags.set .carry carry = (countUp value carry).flags := by
  have hsum := isSum_add value 1 false
  have hvalue : (add value 1 false).value = BitVec.ofNat 8 (value.toNat + 1) :=
    BitVec.eq_of_toNat_eq (hsum.value.trans (BitVec.toNat_ofNat _ _).symm)
  have hzero := hsum.zero
  rw [hvalue] at hzero
  have hhalf : 2 ^ 4 ≤ value.toNat % 2 ^ 4 + 1 % 2 ^ 4 + 0 ↔ value.toNat % 16 = 15 := by omega
  exact ⟨hvalue, Flags.ext (eq_decide hzero) hsum.subtract
    (eq_decide (hsum.halfCarry.trans hhalf)) rfl⟩

theorem sub_one (value : Byte) (carry : Bool) :
    (sub value 1 false).value = (countDown value carry).value ∧
      (sub value 1 false).flags.set .carry carry = (countDown value carry).flags := by
  have hdifference := isDifference_sub value 1 false
  have hvalue : (sub value 1 false).value = BitVec.ofInt 8 (value.toNat - 1) := by
    apply BitVec.eq_of_toNat_eq
    have hnumber := congrArg Int.toNat hdifference.value
    rw [BitVec.toNat_ofInt]
    exact hnumber.trans (congrArg (fun number : Int => (number % 2 ^ 8).toNat) (Int.sub_zero _))
  have hzero := hdifference.zero
  rw [hvalue] at hzero
  have hhalf : value.toNat % 2 ^ 4 < 1 % 2 ^ 4 + 0 ↔ value.toNat % 16 = 0 := by omega
  exact ⟨hvalue, Flags.ext (eq_decide hzero) hdifference.subtract
    (eq_decide (hdifference.halfCarry.trans hhalf)) rfl⟩

theorem add_word (left right : Word) (zero : Bool) :
    (add left right false).value = (wordSum left right zero).value ∧
      (add left right false).flags.set .zero zero = (wordSum left right zero).flags := by
  have hsum := isSum_add left right false
  have hvalue := hsum.value.trans (BitVec.toNat_ofNat _ 16).symm
  exact ⟨BitVec.eq_of_toNat_eq hvalue,
    Flags.ext rfl hsum.subtract (eq_decide hsum.halfCarry) (eq_decide hsum.carry)⟩

private theorem mod_signExtend (distance : Byte) :
    (distance.signExtend 16).toNat % 2 ^ 8 = distance.toNat := by
  have hdistance := distance.isLt
  rw [BitVec.toNat_signExtend, BitVec.toNat_setWidth]
  split <;> omega

/-- A sign extension does not show in the low byte. -/
theorem offset_eq_displaced (base : Word) (distance : Byte) :
    offset base distance = displaced base distance := by
  have hcarries {index : Nat} (hindex : index < 16) :=
    getLsbD_carries hindex base (distance.signExtend 16) false
  have hadd : base + distance.signExtend 16 + (BitVec.ofBool false).setWidth 16 =
      base + distance.signExtend 16 := BitVec.add_zero _
  rw [hadd] at hcarries
  -- The carries are those of a sum of words, of which only the lower eight bits matter.
  have hbyte := mod_signExtend distance
  have hnibble : (distance.signExtend 16).toNat % 2 ^ 4 = distance.toNat % 2 ^ 4 := by omega
  have hhalf : (offset base distance).flags.halfCarry = _ := @hcarries 4 (by decide)
  have hcarry : (offset base distance).flags.carry = _ := @hcarries 8 (by decide)
  rw [hnibble] at hhalf
  rw [hbyte] at hcarry
  have hvalue : (offset base distance).value = BitVec.ofInt 16 (base.toNat + distance.toInt) := by
    rw [BitVec.ofInt_add, BitVec.ofInt_natCast, BitVec.ofNat_toNat, BitVec.setWidth_eq]
    rfl
  exact Outcome.ext hvalue (Flags.ext rfl rfl hhalf hcarry)

end Outcome

/-! ### The opcodes -/

/-- The kinds of increments, decrements and word arithmetic. -/
inductive Count where
  | inc
  | dec
  | incWord
  | decWord
  | addToHl
  | addToSp
  | ldHlSpOffset

namespace Count

/-- The opcodes of a kind. -/
def Encodes (count : Count) (opcode : Byte) : Prop :=
  match count with
  | .inc => Opcode.group opcode = 0 ∧ Opcode.column opcode = 4
  | .dec => Opcode.group opcode = 0 ∧ Opcode.column opcode = 5
  | .incWord => Opcode.group opcode = 0 ∧ Opcode.column opcode = 3 ∧ Opcode.row opcode % 2 = 0
  | .decWord => Opcode.group opcode = 0 ∧ Opcode.column opcode = 3 ∧ Opcode.row opcode % 2 = 1
  | .addToHl => Opcode.group opcode = 0 ∧ Opcode.column opcode = 1 ∧ Opcode.row opcode % 2 = 1
  | .addToSp => opcode = 0xE8
  | .ldHlSpOffset => opcode = 0xF8

/-- What an instruction of the kind does in a machine that has its opcode at the program counter. -/
def assignments (count : Count) (machine : Machine) : List Assignment :=
  let target := machine.target (Opcode.row machine.lead)
  let pair := WordRegister.ofPair (Opcode.row machine.lead / 2)
  match count with
  | .inc =>
    let outcome := Outcome.countUp (machine.peek target) machine.flags.carry
    [.byte target outcome.value, .flags outcome.flags]
  | .dec =>
    let outcome := Outcome.countDown (machine.peek target) machine.flags.carry
    [.byte target outcome.value, .flags outcome.flags]
  | .incWord => [.word pair (BitVec.ofNat 16 ((machine.word pair).toNat + 1))]
  | .decWord => [.word pair (BitVec.ofInt 16 ((machine.word pair).toNat - 1))]
  | .addToHl =>
    let outcome := Outcome.wordSum (machine.word .hl) (machine.word pair) machine.flags.zero
    [.word .hl outcome.value, .flags outcome.flags]
  | .addToSp =>
    let outcome := Outcome.displaced (machine.word .sp) machine.second
    [.flags outcome.flags, .word .sp outcome.value]
  | .ldHlSpOffset =>
    let outcome := Outcome.displaced (machine.word .sp) machine.second
    [.flags outcome.flags, .word .hl outcome.value]

/-- The instruction that an opcode of the kind stands for. -/
def instruction (count : Count) (opcode : Byte) : Instruction :=
  let target := (Slot.cell (Opcode.row opcode)).operand
  let pair := Operand.wordRegister (.ofPair (Opcode.row opcode / 2))
  match count with
  | .inc => .inc target
  | .dec => .dec target
  | .incWord => .incWord pair
  | .decWord => .decWord pair
  | .addToHl => .addToHl pair
  | .addToSp => .addToSp
  | .ldHlSpOffset => .ldHlSpOffset

theorem operation_of_encodes {count : Count} {opcode : Byte} (hencodes : count.Encodes opcode) :
    (Opcode.base opcode).operation = .instruction (count.instruction opcode) := by
  rw [Opcode.base_eq_describeBase]
  cases count with
  | inc | dec =>
    obtain ⟨hgroup, hcolumn⟩ := hencodes
    rw [Opcode.describeBase, hgroup, hcolumn]
    rfl
  | incWord =>
    obtain ⟨hgroup, hcolumn, hrow⟩ := hencodes
    have hodd : ¬ Opcode.row opcode % 2 = 1 := by omega
    rw [Opcode.describeBase, hgroup, hcolumn]
    simp only [Opcode.describeFirst, if_neg hodd, instruction, ← Slot.operand_pair]
    rfl
  | decWord | addToHl =>
    obtain ⟨hgroup, hcolumn, hrow⟩ := hencodes
    rw [Opcode.describeBase, hgroup, hcolumn]
    simp only [Opcode.describeFirst, if_pos hrow, instruction, ← Slot.operand_pair]
    rfl
  | addToSp | ldHlSpOffset =>
    cases hencodes
    rfl

/-! ### The effect -/

section Effect

variable {before machine : Machine} (hmachine : machine.SameData before)

include hmachine

/-- A byte target that is computed anew, with one of the flags put back. -/
theorem sameData_modify_setFlag (operation : Byte → Outcome 8) (index : Nat) (flag : Flag)
    (kept : Bool) :
    ((machine.modify operation (Slot.cell index).operand).setFlag flag kept).SameData
      (before.assignAll
        [.byte (before.target index) (operation (before.peek (before.target index))).value,
          .flags ((operation (before.peek (before.target index))).flags.set flag kept)]) := by
  have hmodify := machine.sameData_modify_cell operation index
  rw [hmachine.target, hmachine.peek] at hmodify
  generalize operation (before.peek (before.target index)) = outcome at hmodify ⊢
  have hsame := hmodify.trans ((hmachine.setFlags outcome.flags).poke _ outcome.value)
  have hflag := hsame.setFlag flag kept
  rw [Machine.flags_poke_of_ne (before.target_ne_f index), Machine.flags_setFlags] at hflag
  exact hflag.trans (.setFlags_assign (.byte (before.target index) outcome.value) before _ _)

/-- A sum in HL, with one of the flags put back. -/
theorem sameData_addToHl {pair : WordRegister} (hpair : pair ≠ .pc) :
    (machine.addToHl (.wordRegister pair)).SameData
      (before.assignAll
        [.word .hl (Outcome.add (before.word .hl) (before.word pair) false).value,
          .flags ((Outcome.add (before.word .hl) (before.word pair) false).flags.set .zero
            before.flags.zero)]) := by
  have hsum : machine.addToHl (.wordRegister pair) =
      let outcome := Outcome.add (machine.word .hl) (machine.word pair) false
      ((machine.setFlags outcome.flags).setWord .hl outcome.value).tick.setFlag .zero
        machine.flags.zero := rfl
  rw [hsum]
  rw [hmachine.word .hl (by decide), hmachine.word pair hpair, hmachine.flags]
  generalize Outcome.add (before.word .hl) (before.word pair) false = outcome
  have hsame := (hmachine.setFlags outcome.flags).setWord .hl outcome.value
  have hflag := ((Machine.SameData.tick _).trans hsame).setFlag .zero before.flags.zero
  have hkept : ((before.setFlags outcome.flags).setWord .hl outcome.value).flags =
      (before.setFlags outcome.flags).flags := Registers.flags_setWord_of_ne (by decide) _ _
  rw [hkept, Machine.flags_setFlags] at hflag
  exact hflag.trans (.setFlags_assign (.word .hl outcome.value) before _ _)

/-- The stack pointer moved by the byte that follows. -/
theorem sameData_offsetSp :
    machine.offsetSp.value = (Outcome.displaced (before.word .sp) machine.fetchByte.value).value ∧
      machine.offsetSp.machine.SameData
        (before.setFlags
          (Outcome.displaced (before.word .sp) machine.fetchByte.value).flags) := by
  have hfetch := (Machine.SameData.fetchByte machine).trans hmachine
  rw [← Outcome.offset_eq_displaced, ← hfetch.word .sp (by decide)]
  exact ⟨rfl, hfetch.setFlags _⟩

end Effect

theorem sameData_execute (count : Count) (machine : Machine) :
    ((count.instruction machine.lead).execute machine.fetchByte.machine).SameData
      (machine.assignAll (count.assignments machine)) := by
  have hfetch := Machine.SameData.fetchByte machine
  have hpair := WordRegister.ofPair_ne (Opcode.row machine.lead / 2)
  cases count with
  | inc =>
    have hmodify := sameData_modify_setFlag hfetch (Outcome.add · 1 false)
      (Opcode.row machine.lead) .carry machine.flags.carry
    obtain ⟨hvalue, hflags⟩ := Outcome.add_one
      (machine.peek (machine.target (Opcode.row machine.lead))) machine.flags.carry
    rw [hvalue, hflags] at hmodify
    exact hmodify
  | dec =>
    have hmodify := sameData_modify_setFlag hfetch (Outcome.sub · 1 false)
      (Opcode.row machine.lead) .carry machine.flags.carry
    obtain ⟨hvalue, hflags⟩ := Outcome.sub_one
      (machine.peek (machine.target (Opcode.row machine.lead))) machine.flags.carry
    rw [hvalue, hflags] at hmodify
    exact hmodify
  | incWord =>
    rw [assignments, ← Word.add_one_eq_ofNat, ← hfetch.word _ hpair.2]
    exact ((Machine.SameData.tick _).trans hfetch).setWord _ _
  | decWord =>
    rw [assignments, ← Word.sub_one_eq_ofInt, ← hfetch.word _ hpair.2]
    exact ((Machine.SameData.tick _).trans hfetch).setWord _ _
  | addToHl =>
    have hadd := sameData_addToHl hfetch hpair.2
    obtain ⟨hvalue, hflags⟩ := Outcome.add_word (machine.word .hl)
      (machine.word (.ofPair (Opcode.row machine.lead / 2))) machine.flags.zero
    rw [hvalue, hflags] at hadd
    exact hadd
  | addToSp =>
    obtain ⟨hvalue, hmoved⟩ := sameData_offsetSp hfetch
    rw [instruction, Instruction.execute, Machine.addToSp, hvalue]
    have hticks := (Machine.SameData.tick _).trans ((Machine.SameData.tick _).trans hmoved)
    exact hticks.setWord .sp _
  | ldHlSpOffset =>
    obtain ⟨hvalue, hmoved⟩ := sameData_offsetSp hfetch
    rw [instruction, Instruction.execute, Machine.ldHlSpOffset, hvalue]
    exact ((Machine.SameData.tick _).trans hmoved).setWord .hl _

theorem compatible_assignments (count : Count) (machine : Machine) :
    Assignment.Compatible (count.assignments machine) := by
  have hpair := WordRegister.ofPair_ne (Opcode.row machine.lead / 2)
  have hcell := machine.target_ne_f (Opcode.row machine.lead)
  have hflags (flags : Flags) : (Assignment.flags flags).IsStorable := trivial
  have hsp (value : Word) : (Assignment.word .sp value).IsStorable := ⟨by decide, by decide⟩
  have hhl (value : Word) : (Assignment.word .hl value).IsStorable := ⟨by decide, by decide⟩
  cases count with
  | inc | dec => exact Assignment.compatible_pair hcell (hflags _) hcell
  | incWord | decWord => exact Assignment.compatible_singleton hpair
  | addToHl =>
    have hne : WordRegister.hl ≠ .af := by decide
    exact Assignment.compatible_pair (hhl _) (hflags _) hne
  | addToSp =>
    exact Assignment.compatible_pair (hflags _) (hsp _)
      (Assignment.flags_spares_word (by decide) _ _)
  | ldHlSpOffset =>
    exact Assignment.compatible_pair (hflags _) (hhl _)
      (Assignment.flags_spares_word (by decide) _ _)

end Count

namespace Machine

/-- In every state, an increment, decrement or word sum assigns what integer arithmetic gives and
changes nothing else. -/
theorem step_counts {count : Count} {machine : Machine} (hencodes : count.Encodes machine.lead) :
    machine.Assigns (count.assignments machine) machine.step := by
  rw [step_of_operation_eq (Count.operation_of_encodes hencodes)]
  exact (count.sameData_execute machine).assigns (count.compatible_assignments machine)

/-- HL is about to be loaded with the address below the stack pointer, which is zero. -/
def beforeOffset : Machine where
  cpu := { registers := { sp := 1 } }
  memory := (Memory.zero.set 0 0xF8).set 1 0xFF

theorem step_counts_beforeOffset :
    Count.ldHlSpOffset.Encodes beforeOffset.lead ∧ beforeOffset.step.word .hl = 0 ∧
      beforeOffset.step.flags = { halfCarry := true, carry := true } := by
  have hencodes : Count.ldHlSpOffset.Encodes beforeOffset.lead := rfl
  have hmade := (step_counts hencodes).made
  rw [Count.assignments, List.forall_mem_cons, List.forall_mem_singleton] at hmade
  exact ⟨hencodes, hmade.2, hmade.1⟩

end Machine

end Sm83

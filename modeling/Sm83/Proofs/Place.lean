import Sm83.Proofs.Step

/-!
# Places

The effect of an instruction is told as the bytes it changes. Registers and memory alike are a
collection of places that hold a byte each (`Machine.peek`, `Machine.poke`). Besides these an
instruction moves the clock and the program counter, which `Machine.SameData` leaves out of account.
`Machine.Stores` says that an instruction puts a value in one place and sets at most the flags
besides. The byte targets of the opcode tables are such places.
-/

namespace Sm83

/-- Where the machine keeps a byte. -/
inductive Place where
  | register (name : ByteRegister)
  | memory (address : Word)
  deriving DecidableEq

theorem ByteRegister.pair_ne_pc (name : ByteRegister) : name.pair ≠ .pc := by
  cases name <;> decide

namespace Machine

def peek (machine : Machine) : Place → Byte
  | .register name => machine.byte name
  | .memory address => machine.memory.get address

def poke (machine : Machine) (place : Place) (value : Byte) : Machine :=
  match place with
  | .register name => machine.setByte name value
  | .memory address => machine.mapMemory (·.set address value)

/-- F is the one place that does not keep all of what is written to it. -/
theorem peek_poke_self {place : Place} (hplace : place ≠ .register .f) (machine : Machine)
    (value : Byte) : (machine.poke place value).peek place = value := by
  cases place with
  | register name =>
    have hkept : name.kept value = value := by
      cases name with
      | f => exact absurd rfl hplace
      | _ => rfl
    exact (Registers.byte_setByte_self _ name value).trans hkept
  | memory address => exact Memory.get_set_self _ address value

theorem peek_poke_of_ne {place other : Place} (hne : other ≠ place) (machine : Machine)
    (value : Byte) : (machine.poke place value).peek other = machine.peek other := by
  cases place with
  | register name =>
    cases other with
    | register name' =>
      have hname : name' ≠ name := fun heq => hne (congrArg Place.register heq)
      exact Registers.byte_setByte_of_ne hname _ value
    | memory address => rfl
  | memory address =>
    cases other with
    | register name => rfl
    | memory address' =>
      have haddress : address' ≠ address := fun heq => hne (congrArg Place.memory heq)
      exact Memory.get_set_of_ne haddress _ value

/-! ### All but the clock and the program counter -/

/-- The machines differ in the clock and the program counter at most. -/
structure SameData (left right : Machine) : Prop where
  word : ∀ name, name ≠ .pc → left.word name = right.word name
  memory : left.memory = right.memory
  control : left.control = right.control

namespace SameData

variable {first second third left right : Machine}

theorem refl (machine : Machine) : machine.SameData machine :=
  ⟨fun _ _ => rfl, rfl, rfl⟩

theorem trans (hfirst : first.SameData second) (hsecond : second.SameData third) :
    first.SameData third :=
  ⟨fun name hname => (hfirst.word name hname).trans (hsecond.word name hname),
    hfirst.memory.trans hsecond.memory, hfirst.control.trans hsecond.control⟩

theorem byte (hsame : left.SameData right) (name : ByteRegister) :
    left.byte name = right.byte name := by
  have hpair : left.word name.pair = right.word name.pair :=
    hsame.word name.pair name.pair_ne_pc
  rw [Machine.byte, Machine.byte, Registers.byte, Registers.byte]
  rw [Machine.word, Machine.word] at hpair
  rw [hpair]

theorem flags (hsame : left.SameData right) : left.flags = right.flags :=
  congrArg Flags.ofByte (hsame.byte .f)

theorem peek (hsame : left.SameData right) (place : Place) :
    left.peek place = right.peek place := by
  cases place with
  | register name => exact hsame.byte name
  | memory address => exact congrArg (·.get address) hsame.memory

/-- Data that is the same byte by byte. Only the stack pointer has no place. -/
theorem of_peek (hpeek : ∀ place, left.peek place = right.peek place)
    (hsp : left.word .sp = right.word .sp) (hcontrol : left.control = right.control) :
    left.SameData right := by
  have hpair (word word' : Word) (hlow : Word.low word = Word.low word')
      (hhigh : Word.high word = Word.high word') : word = word' := by
    rw [← Word.ofBytes_low_high word, hlow, hhigh, Word.ofBytes_low_high]
  refine ⟨?_, Memory.ext fun address => hpeek (.memory address), hcontrol⟩
  intro name hname
  cases name with
  | af => exact hpair _ _ (hpeek (.register .f)) (hpeek (.register .a))
  | bc => exact hpair _ _ (hpeek (.register .c)) (hpeek (.register .b))
  | de => exact hpair _ _ (hpeek (.register .e)) (hpeek (.register .d))
  | hl => exact hpair _ _ (hpeek (.register .l)) (hpeek (.register .h))
  | sp => exact hsp
  | pc => exact absurd rfl hname

theorem tick (machine : Machine) : machine.tick.SameData machine :=
  ⟨fun _ _ => rfl, rfl, rfl⟩

theorem setPc (machine : Machine) (value : Word) : (machine.setWord .pc value).SameData machine :=
  ⟨fun _ hname => Registers.word_setWord_of_ne hname _ _, rfl, rfl⟩

theorem fetchByte (machine : Machine) : machine.fetchByte.machine.SameData machine :=
  (setPc _ _).trans (tick machine)

theorem fetchWord (machine : Machine) : machine.fetchWord.machine.SameData machine :=
  (setPc _ _).trans ((tick _).trans (tick machine))

theorem fetchOpcode (machine : Machine) : machine.fetchOpcode.SameData machine := by
  rw [Machine.fetchOpcode]
  split
  · exact (fetchByte _).trans (fetchByte machine)
  · exact fetchByte machine

theorem setByte (hsame : left.SameData right) (name : ByteRegister) (value : Byte) :
    (left.setByte name value).SameData (right.setByte name value) := by
  refine ⟨?_, hsame.memory, hsame.control⟩
  intro other hother
  have hpair : left.cpu.registers.word name.pair = right.cpu.registers.word name.pair :=
    hsame.word name.pair name.pair_ne_pc
  change (left.cpu.registers.setByte name value).word other =
    (right.cpu.registers.setByte name value).word other
  by_cases heq : other = name.pair
  · rw [heq, Registers.setByte, Registers.setByte, Registers.word_store_self,
      Registers.word_store_self, hpair]
  · rw [Registers.word_setByte_of_ne heq, Registers.word_setByte_of_ne heq]
    exact hsame.word other hother

theorem setWord (hsame : left.SameData right) (name : WordRegister) (value : Word) :
    (left.setWord name value).SameData (right.setWord name value) := by
  refine ⟨?_, hsame.memory, hsame.control⟩
  intro other hother
  by_cases heq : other = name
  · rw [heq]
    exact (Registers.word_setWord_self _ name value).trans
      (Registers.word_setWord_self _ name value).symm
  · exact (Registers.word_setWord_of_ne heq _ value).trans
      ((hsame.word other hother).trans (Registers.word_setWord_of_ne heq _ value).symm)

theorem setFlags (hsame : left.SameData right) (flags : Flags) :
    (left.setFlags flags).SameData (right.setFlags flags) :=
  hsame.setByte .f flags.toByte

theorem setFlag (hsame : left.SameData right) (flag : Flag) (value : Bool) :
    (left.setFlag flag value).SameData (right.setFlags (right.flags.set flag value)) := by
  rw [← hsame.flags]
  exact hsame.setFlags (left.flags.set flag value)

theorem poke (hsame : left.SameData right) (place : Place) (value : Byte) :
    (left.poke place value).SameData (right.poke place value) := by
  cases place with
  | register name => exact hsame.setByte name value
  | memory address =>
    exact ⟨hsame.word, congrArg (·.set address value) hsame.memory, hsame.control⟩

end SameData

end Machine

/-! ### Pointers -/

/-- The address of a byte of the last page as a number. -/
theorem Word.ofHighPage_eq (low : Byte) : Word.ofHighPage low = 0xFF00 + low.setWidth 16 := by
  revert low
  decide

namespace Base

deriving instance DecidableEq for Base

/-- The address that a base leads to in an instruction whose opcode is at the program counter. -/
def origin (base : Base) (machine : Machine) : Word :=
  match base with
  | .byteRegister name => 0xFF00 + (machine.byte name).setWidth 16
  | .wordRegister name => machine.word name
  | .nextByte => 0xFF00 + machine.second.setWidth 16
  | .nextWord => machine.following
  | .byteConstant value => 0xFF00 + value.setWidth 16
  | .wordConstant value => value

theorem value_address_fetchByte {base : Base} (hplain : base.isPlain = true) (machine : Machine) :
    (base.address machine.fetchByte.machine).value = base.origin machine := by
  have hfetch := Machine.SameData.fetchByte machine
  cases base with
  | byteRegister name =>
    exact (congrArg Word.ofHighPage (hfetch.byte name)).trans (Word.ofHighPage_eq _)
  | wordRegister name =>
    apply hfetch.word name
    rintro rfl
    cases hplain
  | nextByte => exact Word.ofHighPage_eq _
  | nextWord => rfl
  | byteConstant value => exact Word.ofHighPage_eq value
  | wordConstant value => rfl

end Base

theorem Base.sameData_address (base : Base) (machine : Machine) :
    (base.address machine).machine.SameData machine := by
  cases base with
  | nextByte => exact .fetchByte machine
  | nextWord => exact .fetchWord machine
  | _ => exact .refl machine

namespace Pointer

variable {pointer : Pointer} (hplain : pointer.base.isPlain = true)

include hplain

theorem sameData_advance {left right : Machine} (hsame : left.SameData right) :
    (pointer.advance left).SameData (pointer.advance right) := by
  obtain ⟨base, step, offset⟩ := pointer
  rw [advance, advance]
  split
  · exact hsame
  · cases base with
    | byteRegister name =>
      have hname : left.byte name = right.byte name := hsame.byte name
      change (left.setByte name (left.byte name + _)).SameData
        (right.setByte name (right.byte name + _))
      rw [hname]
      exact hsame.setByte name _
    | wordRegister name =>
      have hne : name ≠ .pc := by
        rintro rfl
        cases hplain
      have hname : left.word name = right.word name := hsame.word name hne
      change (left.setWord name (left.word name + step)).SameData
        (right.setWord name (right.word name + step))
      rw [hname]
      exact hsame.setWord name _
    | _ => exact hsame

theorem sameData_readByte (machine : Machine) :
    (pointer.readByte machine).machine.SameData (pointer.advance machine) :=
  sameData_advance hplain ((Machine.SameData.tick _).trans (pointer.base.sameData_address machine))

theorem sameData_readWord (machine : Machine) :
    (pointer.readWord machine).machine.SameData (pointer.advance machine) := by
  have hticks := (Machine.SameData.tick (pointer.address machine).machine.tick).trans
    (Machine.SameData.tick _)
  exact sameData_advance hplain (hticks.trans (pointer.base.sameData_address machine))

theorem sameData_writeByte (value : Byte) (machine : Machine) :
    (pointer.writeByte value machine).SameData
      (pointer.advance (machine.poke (.memory (pointer.address machine).value) value)) := by
  have haddress := pointer.base.sameData_address machine
  apply sameData_advance hplain
  exact (Machine.SameData.tick _).trans (haddress.poke (.memory _) value)

theorem sameData_writeWord (value : Word) (machine : Machine) :
    (pointer.writeWord value machine).SameData
      (pointer.advance
        ((machine.poke (.memory (pointer.address machine).value) (Word.low value)).poke
          (.memory ((pointer.address machine).value + 1)) (Word.high value))) := by
  have haddress := pointer.base.sameData_address machine
  have hlow := (Machine.SameData.tick _).trans
    (haddress.poke (.memory (pointer.address machine).value) (Word.low value))
  apply sameData_advance hplain
  exact (Machine.SameData.tick _).trans (hlow.poke (.memory _) (Word.high value))

end Pointer

theorem Pointer.value_readByte (pointer : Pointer) (machine : Machine) :
    (pointer.readByte machine).value = machine.memory.get (pointer.address machine).value :=
  congrArg (·.get (pointer.address machine).value) (pointer.base.memory_address machine)

theorem Pointer.value_readWord (pointer : Pointer) (machine : Machine) :
    (pointer.readWord machine).value = machine.memory.word (pointer.address machine).value :=
  congrArg (·.word (pointer.address machine).value) (pointer.base.memory_address machine)

namespace Machine

/-! ### One byte replaced -/

/-- The data of `after` is that of `before` with this value in this place, the flags aside. -/
structure Stores (before : Machine) (place : Place) (value : Byte) (after : Machine) : Prop where
  target : after.peek place = value
  others : ∀ other, other ≠ place → other ≠ .register .f → after.peek other = before.peek other
  sp : after.word .sp = before.word .sp
  control : after.control = before.control

@[simp] theorem word_sp_poke (machine : Machine) (place : Place) (value : Byte) :
    (machine.poke place value).word .sp = machine.word .sp := by
  cases place with
  | register name => cases name <;> rfl
  | memory address => rfl

@[simp] theorem control_poke (machine : Machine) (place : Place) (value : Byte) :
    (machine.poke place value).control = machine.control := by
  cases place <;> rfl

theorem stores_poke {place : Place} (hplace : place ≠ .register .f) (machine : Machine)
    (value : Byte) : machine.Stores place value (machine.poke place value) where
  target := peek_poke_self hplace machine value
  others _ hne _ := peek_poke_of_ne hne machine value
  sp := machine.word_sp_poke place value
  control := machine.control_poke place value

/-- What was in the place before. -/
theorem stores_setFlags {place : Place} (hplace : place ≠ .register .f) (machine : Machine)
    (flags : Flags) : machine.Stores place (machine.peek place) (machine.setFlags flags) where
  target := peek_poke_of_ne hplace machine flags.toByte
  others _ _ hother := peek_poke_of_ne hother machine flags.toByte
  sp := rfl
  control := rfl

theorem Stores.trans {before middle after : Machine} {place : Place} {value value' : Byte}
    (hfirst : before.Stores place value middle) (hsecond : middle.Stores place value' after) :
    before.Stores place value' after where
  target := hsecond.target
  others _ hne hflags := (hsecond.others _ hne hflags).trans (hfirst.others _ hne hflags)
  sp := hsecond.sp.trans hfirst.sp
  control := hsecond.control.trans hfirst.control

theorem flags_poke_of_ne {place : Place} (hplace : place ≠ .register .f) (machine : Machine)
    (value : Byte) : (machine.poke place value).flags = machine.flags :=
  congrArg Flags.ofByte (peek_poke_of_ne hplace.symm machine value)

@[simp] theorem flags_setFlags (machine : Machine) (flags : Flags) :
    (machine.setFlags flags).flags = flags :=
  Registers.flags_setFlags machine.cpu.registers flags

namespace SameData

variable {before middle after : Machine} {place : Place} {value : Byte} {flags : Flags}

theorem stores_trans (hsame : after.SameData middle) (hstores : before.Stores place value middle) :
    before.Stores place value after where
  target := (hsame.peek place).trans hstores.target
  others _ hne hflags := (hsame.peek _).trans (hstores.others _ hne hflags)
  sp := (hsame.word .sp (by decide)).trans hstores.sp
  control := hsame.control.trans hstores.control

/-- An instruction that sets the flags and stores a result. -/
theorem stores (hplace : place ≠ .register .f)
    (hsame : after.SameData ((before.setFlags flags).poke place value)) :
    before.Stores place value after ∧ after.flags = flags := by
  have hstores := (stores_setFlags hplace before flags).trans (stores_poke hplace _ value)
  refine ⟨hsame.stores_trans hstores, ?_⟩
  rw [hsame.flags, flags_poke_of_ne hplace, flags_setFlags]

/-- An instruction that only sets the flags. -/
theorem keeps (hplace : place ≠ .register .f) (hsame : after.SameData (before.setFlags flags)) :
    before.Stores place (before.peek place) after ∧ after.flags = flags := by
  refine ⟨hsame.stores_trans (stores_setFlags hplace before flags), ?_⟩
  rw [hsame.flags, flags_setFlags]

end SameData

/-! ### The byte targets -/

/-- The place that a row or column of the opcode tables selects. -/
def target (machine : Machine) : Nat → Place
  | 0 => .register .b
  | 1 => .register .c
  | 2 => .register .d
  | 3 => .register .e
  | 4 => .register .h
  | 5 => .register .l
  | 6 => .memory (machine.word .hl)
  | _ => .register .a

theorem target_ne_f (machine : Machine) (index : Nat) : machine.target index ≠ .register .f := by
  intro heq
  unfold target at heq
  split at heq <;> cases heq

theorem SameData.target {left right : Machine} (hsame : left.SameData right) (index : Nat) :
    left.target index = right.target index := by
  unfold Machine.target
  rw [hsame.word .hl (by decide)]

end Machine

namespace Slot

theorem value_read_cell (index : Nat) (machine : Machine) :
    ((cell index).operand.read machine).value = machine.peek (machine.target index) := by
  match index with
  | 0 | 1 | 2 | 3 | 4 | 5 => rfl
  | 6 => exact congrArg machine.memory.get (BitVec.add_zero _)
  | _ + 7 => rfl

theorem sameData_read_cell (index : Nat) (machine : Machine) :
    ((cell index).operand.read machine).machine.SameData machine := by
  match index with
  | 0 | 1 | 2 | 3 | 4 | 5 => exact .refl machine
  | 6 => exact .tick machine
  | _ + 7 => exact .refl machine

theorem sameData_write_cell (index : Nat) (value : Byte) (machine : Machine) :
    ((cell index).operand.write value machine).SameData
      (machine.poke (machine.target index) value) := by
  match index with
  | 0 | 1 | 2 | 3 | 4 | 5 => exact .refl _
  | 6 =>
    have hplace : Place.memory (machine.word .hl + 0) = machine.target 6 :=
      congrArg Place.memory (BitVec.add_zero _)
    rw [← hplace]
    exact .tick _
  | _ + 7 => exact .refl _

end Slot

namespace Machine

/-- Storing a value in a target that has been read before. -/
theorem sameData_write_read_cell (index : Nat) (value : Byte) (machine : Machine) :
    ((Slot.cell index).operand.write value
      ((Slot.cell index).operand.read machine).machine).SameData
      (machine.poke (machine.target index) value) := by
  have hread := Slot.sameData_read_cell index machine
  have hwrite := Slot.sameData_write_cell index value
    ((Slot.cell index).operand.read machine).machine
  rw [hread.target] at hwrite
  exact hwrite.trans (hread.poke _ value)

/-- The effect of an instruction that computes a target anew. -/
theorem sameData_modify_cell (operation : Byte → Outcome 8) (index : Nat) (machine : Machine) :
    (machine.modify operation (Slot.cell index).operand).SameData
      ((machine.setFlags (operation (machine.peek (machine.target index))).flags).poke
        (machine.target index) (operation (machine.peek (machine.target index))).value) := by
  rw [modify, Slot.value_read_cell]
  generalize operation (machine.peek (machine.target index)) = outcome
  have hflags := (Slot.sameData_read_cell index machine).setFlags outcome.flags
  have hwrite := Slot.sameData_write_cell index outcome.value
    (((Slot.cell index).operand.read machine).machine.setFlags outcome.flags)
  rw [hflags.target] at hwrite
  exact hwrite.trans (hflags.poke _ outcome.value)

end Machine

/-! ### The register pairs -/

/-- The word registers, selected by the upper two bits of a row. -/
def WordRegister.ofPair : Nat → WordRegister
  | 0 => .bc
  | 1 => .de
  | 2 => .hl
  | _ => .sp

theorem WordRegister.ofPair_ne (index : Nat) : ofPair index ≠ .af ∧ ofPair index ≠ .pc := by
  match index with
  | 0 | 1 | 2 => decide
  | _ + 3 => exact ⟨nofun, nofun⟩

theorem Slot.operand_pair (index : Nat) :
    (Slot.pair index).operand = .wordRegister (.ofPair index) := by
  match index with
  | 0 | 1 | 2 => rfl
  | _ + 3 => rfl

end Sm83

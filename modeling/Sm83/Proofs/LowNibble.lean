import Sm83.Proofs.Budget
import Sm83.Routine

/-!
# The low half of F

F has eight bits of storage and four of meaning. The low four are zero after every reset, and the
two writers that reach F drop them from what they write, so they stay zero under everything that can
be done with a machine, by programs or from outside (`Machine.Leads`). Programs see F whole when they
read it or the pair it belongs to, and therefore in no other form than the encoded flags.
-/

namespace Sm83

theorem Word.ofBytes_and (low high low' high' : Byte) :
    ofBytes low high &&& ofBytes low' high' = ofBytes (low &&& low') (high &&& high') :=
  BitVec.and_append

theorem Word.low_and (left right : Word) : low (left &&& right) = low left &&& low right :=
  BitVec.extractLsb'_and

/-- What is written to F has nothing in its low half. -/
theorem Byte.and_high_half_and (value : Byte) : value &&& 0xF0 &&& 0x0F = 0 := by
  rw [BitVec.and_assoc]
  exact BitVec.and_zero

namespace Registers

/-- There is nothing in the low half of F. -/
def IsCanonical (registers : Registers) : Prop := registers.byte .f &&& 0x0F = 0

theorem isCanonical_default : ({} : Registers).IsCanonical := by
  rw [IsCanonical]
  decide

namespace IsCanonical

variable {registers : Registers} (hcanonical : registers.IsCanonical)

include hcanonical

theorem word_af : registers.word .af &&& 0x000F = 0 := by
  have hlow : Word.low (registers.word .af) &&& 0x0F = 0 := hcanonical
  have hmask : (0x000F : Word) = Word.ofBytes 0x0F 0 := by decide
  rw [← Word.ofBytes_low_high (registers.word .af), hmask, Word.ofBytes_and, hlow]
  exact congrArg (Word.ofBytes 0) BitVec.and_zero

theorem setByte (name : ByteRegister) (value : Byte) :
    (registers.setByte name value).IsCanonical := by
  by_cases hname : .f = name
  · rw [← hname, IsCanonical, byte_setByte_self]
    exact Byte.and_high_half_and value
  · rw [IsCanonical, byte_setByte_of_ne hname]
    exact hcanonical

theorem setWord (name : WordRegister) (value : Word) :
    (registers.setWord name value).IsCanonical := by
  by_cases hname : .af = name
  · have hlow : Word.low (value &&& 0xFFF0) = Word.low value &&& 0xF0 := Word.low_and value 0xFFF0
    rw [← hname, IsCanonical]
    change Word.low (value &&& 0xFFF0) &&& 0x0F = 0
    rw [hlow]
    exact Byte.and_high_half_and _
  · have hpair : ByteRegister.f.pair ≠ name := hname
    rw [IsCanonical, byte_setWord_of_ne hpair]
    exact hcanonical

theorem setFlags (flags : Flags) : (registers.setFlags flags).IsCanonical :=
  hcanonical.setByte .f flags.toByte

theorem setFlag (flag : Flag) (value : Bool) : (registers.setFlag flag value).IsCanonical :=
  hcanonical.setFlags _

theorem set (name : Register) (value : Word) : (registers.set name value).IsCanonical := by
  cases name with
  | byte name => exact hcanonical.setByte name _
  | word name => exact hcanonical.setWord name value

end IsCanonical

end Registers

theorem Cpu.isCanonical_initial (config : Config) : (initial config).registers.IsCanonical := by
  rw [initial]
  split
  · exact ((((((Registers.isCanonical_default.setByte .f _).setWord .bc _).setWord .de _).setWord
      .hl _).setWord .sp _).setWord .pc _).setByte .a _
  · exact Registers.isCanonical_default

/-! ### Accesses -/

/-- There is nothing in the low half of F. -/
def Machine.IsCanonical (machine : Machine) : Prop := machine.cpu.registers.IsCanonical

namespace Machine.IsCanonical

variable {machine : Machine} {width : Nat} (hcanonical : machine.IsCanonical)

include hcanonical

theorem tick : machine.tick.IsCanonical := hcanonical

theorem setByte (name : ByteRegister) (value : Byte) : (machine.setByte name value).IsCanonical :=
  Registers.IsCanonical.setByte hcanonical name value

theorem setWord (name : WordRegister) (value : Word) : (machine.setWord name value).IsCanonical :=
  Registers.IsCanonical.setWord hcanonical name value

theorem setFlags (flags : Flags) : (machine.setFlags flags).IsCanonical :=
  Registers.IsCanonical.setFlags hcanonical flags

theorem setFlag (flag : Flag) (value : Bool) : (machine.setFlag flag value).IsCanonical :=
  Registers.IsCanonical.setFlag hcanonical flag value

theorem fetchByte : machine.fetchByte.machine.IsCanonical := hcanonical.setWord .pc _

theorem fetchWord : machine.fetchWord.machine.IsCanonical := hcanonical.setWord .pc _

theorem address (base : Base) : (base.address machine).machine.IsCanonical := by
  cases base with
  | nextByte => exact hcanonical.fetchByte
  | nextWord => exact hcanonical.fetchWord
  | _ => exact hcanonical

theorem advance (pointer : Pointer) : (pointer.advance machine).IsCanonical := by
  rw [Pointer.advance]
  split
  · exact hcanonical
  · cases pointer.base with
    | byteRegister name => exact hcanonical.setByte name _
    | wordRegister name => exact hcanonical.setWord name _
    | _ => exact hcanonical

theorem readByte (pointer : Pointer) : (pointer.readByte machine).machine.IsCanonical := by
  have htarget : (pointer.address machine).machine.tick.IsCanonical :=
    (hcanonical.address pointer.base).tick
  exact htarget.advance pointer

theorem readWord (pointer : Pointer) : (pointer.readWord machine).machine.IsCanonical := by
  have htarget : (pointer.address machine).machine.tick.tick.IsCanonical :=
    (hcanonical.address pointer.base).tick
  exact htarget.advance pointer

theorem writeByte (pointer : Pointer) (value : Byte) :
    (pointer.writeByte value machine).IsCanonical := by
  have htarget : ((pointer.address machine).machine.writeByte
      (pointer.address machine).value value).IsCanonical := hcanonical.address pointer.base
  exact htarget.advance pointer

theorem writeWord (pointer : Pointer) (value : Word) :
    (pointer.writeWord value machine).IsCanonical := by
  have htarget : ((pointer.address machine).machine.writeWord
      (pointer.address machine).value value).IsCanonical := hcanonical.address pointer.base
  exact htarget.advance pointer

theorem read (operand : Operand width) : (operand.read machine).machine.IsCanonical := by
  induction operand with
  | nextByte => exact hcanonical.fetchByte
  | nextWord => exact hcanonical.fetchWord
  | byteAt pointer => exact hcanonical.readByte pointer
  | wordAt pointer => exact hcanonical.readWord pointer
  | readOnly inner ih => exact ih
  | _ => exact hcanonical

theorem write (operand : Operand width) (value : BitVec width) :
    (operand.write value machine).IsCanonical := by
  cases operand with
  | byteRegister name => exact hcanonical.setByte name value
  | wordRegister name => exact hcanonical.setWord name value
  | byteAt pointer => exact hcanonical.writeByte pointer value
  | wordAt pointer => exact hcanonical.writeWord pointer value
  | _ => exact hcanonical

/-! ### Instructions -/

theorem binary (operation : Binary) (target source : Operand width) :
    (machine.binary operation target source).IsCanonical :=
  (((hcanonical.read target).read source).setFlags _).write target _

theorem modify (operation : Byte → Outcome 8) (target : Operand 8) :
    (machine.modify operation target).IsCanonical :=
  ((hcanonical.read target).setFlags _).write target _

theorem offsetSp : machine.offsetSp.machine.IsCanonical := hcanonical.fetchByte.setFlags _

theorem push (source : Operand 16) : (machine.push source).IsCanonical :=
  (hcanonical.read source).tick.writeWord .push _

theorem pop (target : Operand 16) : (machine.pop target).IsCanonical :=
  (hcanonical.readWord .pop).write target _

theorem ret (condition : Condition) : (machine.ret condition).IsCanonical := by
  have hdecided : (if condition = .always then machine else machine.tick).IsCanonical := by
    split
    · exact hcanonical
    · exact hcanonical.tick
  simp only [Machine.ret]
  generalize (if condition = .always then machine else machine.tick) = decided at hdecided ⊢
  split
  · exact (hdecided.pop _).tick
  · exact hdecided

theorem execute (instruction : Instruction) : (instruction.execute machine).IsCanonical := by
  cases instruction with
  | ld target source => exact (hcanonical.read source).write target _
  | binary operation target source => exact hcanonical.binary operation target source
  | inc target | dec target => exact (hcanonical.modify _ target).setFlag .carry _
  | shift kind target zeroFlag => exact hcanonical.modify _ target
  | swap target => exact hcanonical.modify _ target
  | bit index source => exact (hcanonical.read source).setFlags _
  | set index target | res index target => exact (hcanonical.read target).write target _
  | incWord target | decWord target => exact (hcanonical.read target).tick.write target _
  | addToHl source => exact (hcanonical.binary .add _ source).tick.setFlag .zero _
  | addToSp => exact hcanonical.offsetSp.tick.tick.setWord .sp _
  | ldHlSpOffset => exact hcanonical.offsetSp.tick.setWord .hl _
  | ldSpHl => exact (hcanonical.write (.wordRegister .sp) _).tick
  | daa => exact (hcanonical.setFlags _).setByte .a _
  | cpl => exact (hcanonical.setByte .a _).setFlags _
  | scf | ccf => exact hcanonical.setFlags _
  | push source => exact hcanonical.push source
  | pop target => exact hcanonical.pop target
  | jp condition target =>
    simp only [Instruction.execute, Machine.jp]
    split
    · exact (hcanonical.read target).tick.setWord .pc _
    · exact hcanonical.read target
  | jpHl => exact hcanonical.write (.wordRegister .pc) _
  | jr condition =>
    simp only [Instruction.execute, Machine.jr]
    split
    · exact hcanonical.fetchByte.tick.setWord .pc _
    · exact hcanonical.fetchByte
  | call condition =>
    simp only [Instruction.execute, Machine.call]
    split
    · exact (hcanonical.fetchWord.push _).setWord .pc _
    · exact hcanonical.fetchWord
  | ret condition => exact hcanonical.ret condition
  | reti => exact hcanonical.ret .always
  | rst target => exact ((hcanonical.push _).read target).setWord .pc _
  | stop => exact hcanonical.fetchByte
  | _ => exact hcanonical

theorem perform (operation : Operation) : (operation.execute machine).IsCanonical := by
  cases operation with
  | instruction single => exact hcanonical.execute single
  | extend => exact hcanonical.fetchByte.execute _

theorem step : machine.step.IsCanonical := hcanonical.fetchByte.perform _

theorem stepN (count : Nat) : (machine.stepN count).IsCanonical := by
  induction count generalizing machine with
  | zero => exact hcanonical
  | succ count ih => exact ih hcanonical.step

theorem callStep (step : Routine.Step) : (step.execute machine).IsCanonical := by
  simp only [Routine.Step.execute]
  split
  · exact hcanonical.fetchByte.fetchByte.perform step.operation
  · exact hcanonical.fetchByte.perform step.operation

theorem call (routine : Routine) : (routine.execute machine).IsCanonical := by
  rw [Routine.execute]
  induction routine.steps generalizing machine with
  | nil => exact hcanonical
  | cons step steps ih =>
    rw [List.foldl_cons]
    exact ih (hcanonical.callStep step)

end Machine.IsCanonical

/-! ### Everything that can be done with a machine -/

namespace Machine

/-- One thing done with the machine, by its program or from outside. -/
inductive Leads (machine : Machine) : Machine → Prop
  | step : Leads machine machine.step
  | run {fuel : Nat} {ended : Ended} (hended : machine.runWithin fuel = some ended) :
      Leads machine ended.machine
  | runFor (budget : Nat) : Leads machine (machine.runFor budget).machine
  | call (routine : Routine) : Leads machine (routine.execute machine)
  | perform (operation : Operation) : Leads machine (operation.execute machine)
  | read {width : Nat} (operand : Operand width) : Leads machine (operand.read machine).machine
  | write {width : Nat} (operand : Operand width) (value : BitVec width) :
      Leads machine (operand.write value machine)
  | assign (condition : Condition) (value : Bool) :
      Leads machine (condition.assign value machine)
  | setRegister (name : Register) (value : Word) :
      Leads machine (machine.mapCpu (·.set name value))
  /-- Writing bytes and loading images are cases of this. -/
  | setMemory (change : Memory → Memory) : Leads machine (machine.mapMemory change)
  | setInterrupts (interrupts : Bool) :
      Leads machine (machine.mapCpu fun cpu => { cpu with interrupts })
  | resume : Leads machine (machine.mapCpu Cpu.resume)
  | reset : Leads machine machine.reset

/-- The machines that a new one can be turned into. -/
inductive Reachable (config : Config) : Machine → Prop
  | new : Reachable config (initial config)
  | next {before after : Machine} (hbefore : Reachable config before)
      (hleads : before.Leads after) : Reachable config after

theorem Leads.isCanonical {before after : Machine} (hleads : before.Leads after)
    (hcanonical : before.IsCanonical) : after.IsCanonical := by
  cases hleads with
  | step => exact hcanonical.step
  | run hended =>
    obtain ⟨count, -, -, hmachine⟩ := exists_runWithin_eq_some_iff.mp ⟨_, hended⟩
    rw [hmachine]
    exact hcanonical.stepN count
  | runFor budget =>
    obtain ⟨count, -, hended, -⟩ := exists_runUntil_eq (before.deadline budget) before
    rw [Machine.runFor, hended]
    exact hcanonical.stepN count
  | call routine => exact hcanonical.call routine
  | perform operation => exact hcanonical.perform operation
  | read operand => exact hcanonical.read operand
  | write operand value => exact hcanonical.write operand value
  | assign condition value =>
    rw [Condition.assign]
    split
    · exact hcanonical.setFlag _ value
    · exact hcanonical
  | setRegister name value => exact Registers.IsCanonical.set hcanonical name value
  | setMemory | setInterrupts | resume => exact hcanonical
  | reset => exact Cpu.isCanonical_initial before.config

theorem Reachable.isCanonical {config : Config} {machine : Machine}
    (hreachable : Reachable config machine) : machine.IsCanonical := by
  induction hreachable with
  | new => exact Cpu.isCanonical_initial config
  | next _ hleads ih => exact hleads.isCanonical ih

end Machine

/-! ### Where the flags are seen -/

namespace Operand

variable {width : Nat}

/-- Whether the value of the operand is F, or the pair that F is the low half of. -/
def showsF {width : Nat} : Operand width → Bool
  | .byteRegister .f | .wordRegister .af => true
  | .readOnly inner => inner.showsF
  | _ => false

theorem machine_read_of_showsF {operand : Operand width} (hshows : operand.showsF = true)
    (machine : Machine) : (operand.read machine).machine = machine := by
  induction operand with
  | byteRegister name => rfl
  | wordRegister name => rfl
  | readOnly inner ih => exact ih hshows
  | _ => cases hshows

theorem value_read_and {operand : Operand width} (hshows : operand.showsF = true)
    {machine : Machine} (hcanonical : machine.IsCanonical) :
    (operand.read machine).value &&& BitVec.ofNat width 0x0F = 0 := by
  induction operand with
  | byteRegister name =>
    cases name with
    | f => exact hcanonical
    | _ => cases hshows
  | wordRegister name =>
    cases name with
    | af => exact hcanonical.word_af
    | _ => cases hshows
  | readOnly inner ih => exact ih hshows
  | _ => cases hshows

end Operand

namespace Machine

/-- What a push of F leaves in memory. -/
theorem IsCanonical.get_memory_push {machine : Machine} (hcanonical : machine.IsCanonical)
    {source : Operand 16} (hshows : source.showsF = true) :
    (machine.push source).memory.get (machine.word .sp - 2) &&& 0x0F = 0 := by
  have hne : machine.word .sp - 2 ≠ machine.word .sp - 1 := by bv_omega
  rw [memory_push, Operand.machine_read_of_showsF hshows, Memory.get_set_of_ne hne,
    Memory.get_set_self]
  have hlow := congrArg Word.low (Operand.value_read_and hshows hcanonical)
  rw [Word.low_and] at hlow
  exact hlow

/-- What storing F leaves in memory. -/
theorem IsCanonical.get_memory_ld_byte {machine : Machine} (hcanonical : machine.IsCanonical)
    (pointer : Pointer) {source : Operand 8} (hshows : source.showsF = true) :
    (machine.ld (.byteAt pointer) source).memory.get (pointer.address machine).value &&& 0x0F =
      0 := by
  have hmemory := pointer.memory_writeByte (source.read machine).value machine
  rw [ld, Operand.machine_read_of_showsF hshows, Operand.write, hmemory, Memory.get_set_self]
  exact Operand.value_read_and hshows hcanonical

theorem IsCanonical.get_memory_ld_word {machine : Machine} (hcanonical : machine.IsCanonical)
    (pointer : Pointer) {source : Operand 16} (hshows : source.showsF = true) :
    (machine.ld (.wordAt pointer) source).memory.get (pointer.address machine).value &&& 0x0F =
      0 := by
  have hmemory := pointer.memory_writeWord (source.read machine).value machine
  have hne (address : Word) : address ≠ address + 1 := by bv_omega
  rw [ld, Operand.machine_read_of_showsF hshows, Operand.write, hmemory,
    Memory.get_set_of_ne (hne _), Memory.get_set_self]
  have hlow := congrArg Word.low (Operand.value_read_and hshows hcanonical)
  rw [Word.low_and] at hlow
  exact hlow

theorem step_of_lead_eq_push {machine : Machine} (hlead : machine.lead = 0xF5) :
    machine.step = machine.fetchByte.machine.push (.wordRegister .af) := by
  have hoperation : (Opcode.base machine.lead).operation =
      .instruction (.push (.wordRegister .af)) := by
    rw [hlead, Opcode.base_eq_describeBase]
    rfl
  exact step_of_operation_eq hoperation

/-- Whatever is done with a machine, the low half of F is clear, and so it is wherever F is read,
pushed or stored. An instruction reads each of its operands in a machine that is reachable itself. -/
theorem reachable_low_nibble_clear {config : Config} {machine : Machine}
    (hreachable : Reachable config machine) :
    machine.word .af &&& 0x000F = 0 ∧
      (∀ {width : Nat} (operand : Operand width), operand.showsF = true →
        (operand.read machine).value &&& BitVec.ofNat width 0x0F = 0) ∧
      (∀ source : Operand 16, source.showsF = true →
        ((Instruction.push source).execute machine).memory.get (machine.word .sp - 2) &&& 0x0F =
          0) ∧
      (∀ (pointer : Pointer) (source : Operand 8), source.showsF = true →
        ((Instruction.ld (.byteAt pointer) source).execute machine).memory.get
          (pointer.address machine).value &&& 0x0F = 0) ∧
      (∀ (pointer : Pointer) (source : Operand 16), source.showsF = true →
        ((Instruction.ld (.wordAt pointer) source).execute machine).memory.get
          (pointer.address machine).value &&& 0x0F = 0) ∧
      (machine.lead = 0xF5 → machine.step.memory.get (machine.word .sp - 2) &&& 0x0F = 0) := by
  have hcanonical := hreachable.isCanonical
  refine ⟨hcanonical.word_af, ?_, ?_, ?_, ?_, ?_⟩
  · intro width operand hshows
    exact Operand.value_read_and hshows hcanonical
  · intro source hshows
    exact hcanonical.get_memory_push hshows
  · intro pointer source hshows
    exact hcanonical.get_memory_ld_byte pointer hshows
  · intro pointer source hshows
    exact hcanonical.get_memory_ld_word pointer hshows
  · intro hlead
    rw [step_of_lead_eq_push hlead]
    exact hcanonical.fetchByte.get_memory_push rfl

theorem reachable_low_nibble_clear_after_writing :
    Reachable {} ((initial {}).mapCpu (·.set (.word .af) 0xFFFF)) ∧
      ((initial {}).mapCpu (·.set (.word .af) 0xFFFF)).word .af = 0xFFF0 ∧
      ((initial {}).mapCpu (·.set (.word .af) 0xFFFF)).word .af &&& 0x000F = 0 := by
  have hreachable : Reachable {} ((initial {}).mapCpu (·.set (.word .af) 0xFFFF)) :=
    .next .new (.setRegister (.word .af) 0xFFFF)
  exact ⟨hreachable, rfl, (reachable_low_nibble_clear hreachable).1⟩

end Machine

end Sm83

import Sm83.Proofs.Operand

/-!
# What an instruction costs

The cycles an instruction takes and the bytes it fetches after its opcode, read off its form. An
instruction that does not jump advances the machine by exactly these (`Instruction.advances_execute`);
one that jumps still takes exactly its cycles (`Instruction.clock_execute`). The control bits change
only where `Instruction.control` says.
-/

namespace Sm83

namespace Instruction

/-- The condition the instruction depends on. -/
def condition : Instruction → Condition
  | .jp condition _ | .jr condition | .call condition | .ret condition => condition
  | _ => .always

/-- Whether the instruction loads the program counter when its condition holds. -/
def transfers : Instruction → Bool
  | .jp .. | .jpHl | .jr _ | .call _ | .ret _ | .reti | .rst _ => true
  | _ => false

/-- Whether the instruction is about to load the program counter. -/
def jumps (instruction : Instruction) (machine : Machine) : Bool :=
  instruction.transfers && machine.satisfies instruction.condition

def isPlain : Instruction → Bool
  | .ld target source | .binary _ target source => target.isPlain && source.isPlain
  | .inc operand | .dec operand | .shift _ operand _ | .swap operand | .bit _ operand
  | .set _ operand | .res _ operand => operand.isPlain
  | .incWord operand | .decWord operand | .addToHl operand | .push operand | .pop operand
  | .jp _ operand | .rst operand => operand.isPlain
  | _ => true

/-- The cycles taken after the opcode is fetched, `taken` telling whether the condition holds. -/
def cycles (instruction : Instruction) (taken : Bool) : Nat :=
  match instruction with
  | .ld target source => source.readCycles + target.writeCycles
  | .binary _ target source => target.readCycles + source.readCycles + target.writeCycles
  | .inc target | .dec target | .shift _ target _ | .swap target | .set _ target | .res _ target =>
    target.readCycles + target.writeCycles
  | .bit _ source => source.readCycles
  | .incWord target | .decWord target => target.readCycles + 1 + target.writeCycles
  | .addToHl source => source.readCycles + 1
  | .addToSp => 3
  | .ldHlSpOffset => 2
  | .ldSpHl => 1
  | .push source => source.readCycles + 3
  | .pop target => 2 + target.writeCycles
  | .jp _ target => target.readCycles + if taken then 1 else 0
  | .jr _ => 1 + if taken then 1 else 0
  | .call _ => 2 + if taken then 3 else 0
  | .ret condition => (if condition = .always then 0 else 1) + if taken then 3 else 0
  | .reti => 3
  | .rst target => 3 + target.readCycles
  | .stop => 1
  | .nop | .undefined | .daa | .cpl | .scf | .ccf | .jpHl | .halt | .ei | .di => 0

/-- A condition that does not hold never costs time. -/
theorem cycles_le_cycles_true (instruction : Instruction) (taken : Bool) :
    instruction.cycles taken ≤ instruction.cycles true := by
  cases taken with
  | true => exact Nat.le_refl _
  | false =>
    cases instruction with
    | jp | jr | call | ret =>
      simp only [cycles, Bool.false_eq_true, if_false, if_true]
      omega
    | _ => exact Nat.le_refl _

/-- The bytes fetched after the opcode. -/
def bytes : Instruction → Nat
  | .ld target source => source.readBytes + target.writeBytes
  | .binary _ target source => target.readBytes + source.readBytes + target.writeBytes
  | .inc target | .dec target | .shift _ target _ | .swap target | .set _ target | .res _ target
  | .incWord target | .decWord target => target.readBytes + target.writeBytes
  | .bit _ source | .addToHl source | .push source => source.readBytes
  | .pop target => target.writeBytes
  | .jp _ target | .rst target => target.readBytes
  | .addToSp | .ldHlSpOffset | .jr _ | .stop => 1
  | .call _ => 2
  | _ => 0

/-- The control bits after the instruction. -/
def control (instruction : Instruction) (before : Machine.Control) : Machine.Control :=
  match instruction with
  | .stop => { before with stopped := true }
  | .halt => { before with halted := true }
  | .ei | .reti => { before with interrupts := true }
  | .di => { before with interrupts := false }
  | _ => before

end Instruction

/-! ### The effects of single instructions -/

namespace Machine

variable {width : Nat}

theorem advances_ld (target source : Operand width) (htarget : target.isPlain = true)
    (hsource : source.isPlain = true) (machine : Machine) :
    machine.Advances (machine.ld target source) (source.readCycles + target.writeCycles)
      (source.readBytes + target.writeBytes) :=
  (Operand.advances_read hsource machine).trans (Operand.advances_write htarget _ _)

theorem advances_binary (operation : Binary) (target source : Operand width)
    (htarget : target.isPlain = true) (hsource : source.isPlain = true) (machine : Machine) :
    machine.Advances (machine.binary operation target source)
      (target.readCycles + source.readCycles + target.writeCycles)
      (target.readBytes + source.readBytes + target.writeBytes) := by
  have hread := (Operand.advances_read htarget machine).trans (Operand.advances_read hsource _)
  have hflags := hread.trans (advances_setFlags _
    (operation.apply (target.read machine).value (source.read (target.read machine).machine).value
      (source.read (target.read machine).machine).machine.flags.carry).flags)
  exact hflags.trans (Operand.advances_write htarget _ _)

theorem advances_modify (operation : Byte → Outcome 8) (target : Operand 8)
    (htarget : target.isPlain = true) (machine : Machine) :
    machine.Advances (machine.modify operation target) (target.readCycles + target.writeCycles)
      (target.readBytes + target.writeBytes) := by
  have hread := Operand.advances_read htarget machine
  have hflags := hread.trans (advances_setFlags _ (operation (target.read machine).value).flags)
  exact hflags.trans (Operand.advances_write htarget _ _)

theorem advances_push (source : Operand 16) (hsource : source.isPlain = true)
    (machine : Machine) :
    machine.Advances (machine.push source) (source.readCycles + 3) source.readBytes := by
  have hread := (Operand.advances_read hsource machine).trans (advances_tick _)
  exact hread.trans (Pointer.push.advances_writeWord rfl _ _)

theorem advances_pop (target : Operand 16) (htarget : target.isPlain = true)
    (machine : Machine) :
    machine.Advances (machine.pop target) (2 + target.writeCycles) target.writeBytes := by
  have hread := Pointer.pop.advances_readWord rfl machine
  exact (hread.trans (Operand.advances_write htarget _ _)).cast rfl (Nat.zero_add _)

theorem advances_offsetSp (machine : Machine) :
    machine.Advances machine.offsetSp.machine 1 1 :=
  machine.advances_fetchByte.trans (advances_setFlags _ _)

theorem control_modify (operation : Byte → Outcome 8) (target : Operand 8) (machine : Machine) :
    (machine.modify operation target).control = machine.control := by
  rw [modify, Operand.control_write, control_setFlags, Operand.control_read]

theorem control_binary (operation : Binary) (target source : Operand width) (machine : Machine) :
    (machine.binary operation target source).control = machine.control := by
  rw [binary, Operand.control_write, control_setFlags, Operand.control_read,
    Operand.control_read]

theorem control_push (source : Operand 16) (machine : Machine) :
    (machine.push source).control = machine.control := by
  rw [push, Pointer.control_writeWord, control_tick, Operand.control_read]

/-- Where a push goes, the low byte first. -/
theorem memory_push (source : Operand 16) (machine : Machine) :
    (machine.push source).memory =
      (machine.memory.set ((source.read machine).machine.word .sp - 2)
        (Word.low (source.read machine).value)).set
        ((source.read machine).machine.word .sp - 1) (Word.high (source.read machine).value) := by
  have hlow (value : Word) : value + -2 = value - 2 := by bv_omega
  have hhigh (value : Word) : value - 2 + 1 = value - 1 := by bv_omega
  rw [push, Pointer.memory_writeWord]
  change ((source.read machine).machine.memory.set
    ((source.read machine).machine.word .sp + -2) _).set
      ((source.read machine).machine.word .sp + -2 + 1) _ = _
  rw [hlow, hhigh, Operand.memory_read]

theorem control_ret (condition : Condition) (machine : Machine) :
    (machine.ret condition).control = machine.control := by
  have hdecided : (if condition = .always then machine else machine.tick).control =
      machine.control := by
    split <;> rfl
  simp only [ret]
  generalize (if condition = .always then machine else machine.tick) = decided at hdecided ⊢
  split <;> exact hdecided

end Machine

/-! ### All instructions -/

namespace Instruction

/-- Deciding whether to return takes a cycle where there is a condition. -/
private theorem advances_decided (condition : Condition) (machine : Machine) :
    machine.Advances (if condition = .always then machine else machine.tick)
      (if condition = .always then 0 else 1) 0 := by
  split
  · exact .refl machine
  · exact machine.advances_tick

private theorem satisfies_decided (condition other : Condition) (machine : Machine) :
    (if other = .always then machine else machine.tick).satisfies condition =
      machine.satisfies condition := by
  split <;> rfl

theorem advances_execute {instruction : Instruction} (hplain : instruction.isPlain = true)
    {machine : Machine} (hjumps : instruction.jumps machine = false) :
    machine.Advances (instruction.execute machine)
      (instruction.cycles (machine.satisfies instruction.condition)) instruction.bytes := by
  cases instruction with
  | nop => exact .refl machine
  | undefined => exact .refl machine
  | ld target source =>
    obtain ⟨htarget, hsource⟩ := Bool.and_eq_true_iff.mp hplain
    exact machine.advances_ld target source htarget hsource
  | binary operation target source =>
    obtain ⟨htarget, hsource⟩ := Bool.and_eq_true_iff.mp hplain
    exact machine.advances_binary operation target source htarget hsource
  | inc target =>
    exact (machine.advances_modify _ target hplain).trans (Machine.advances_setFlag _ _ _)
  | dec target =>
    exact (machine.advances_modify _ target hplain).trans (Machine.advances_setFlag _ _ _)
  | shift kind target zeroFlag =>
    exact machine.advances_modify (kind.apply · machine.flags.carry zeroFlag) target hplain
  | swap target => exact machine.advances_modify _ target hplain
  | bit index source =>
    exact (Operand.advances_read hplain machine).trans (Machine.advances_setFlags _ _)
  | set index target =>
    exact (Operand.advances_read hplain machine).trans (Operand.advances_write hplain _ _)
  | res index target =>
    exact (Operand.advances_read hplain machine).trans (Operand.advances_write hplain _ _)
  | incWord target =>
    exact ((Operand.advances_read hplain machine).trans (Machine.advances_tick _)).trans
      (Operand.advances_write hplain _ _)
  | decWord target =>
    exact ((Operand.advances_read hplain machine).trans (Machine.advances_tick _)).trans
      (Operand.advances_write hplain _ _)
  | addToHl source =>
    have hadd := machine.advances_binary .add (.wordRegister .hl) source rfl hplain
    have htick := hadd.trans (Machine.advances_tick _)
    refine (htick.trans (Machine.advances_setFlag _ .zero machine.flags.zero)).cast ?_ ?_
    · simp [cycles, Operand.readCycles, Operand.writeCycles]
    · simp [bytes, Operand.readBytes, Operand.writeBytes]
  | addToSp =>
    have hmoved := machine.advances_offsetSp
    have hticks := (hmoved.trans (Machine.advances_tick _)).trans (Machine.advances_tick _)
    exact hticks.trans (Machine.advances_setWord (by decide) _ _)
  | ldHlSpOffset =>
    have hmoved := machine.advances_offsetSp
    exact (hmoved.trans (Machine.advances_tick _)).trans
      (Machine.advances_setWord (by decide) _ _)
  | ldSpHl =>
    exact (machine.advances_ld (.wordRegister .sp) (.wordRegister .hl) rfl rfl).trans
      (Machine.advances_tick _)
  | daa => exact (machine.advances_setFlags _).trans (Machine.advances_setByte _ _ _)
  | cpl => exact (machine.advances_setByte _ _).trans (Machine.advances_setFlags _ _)
  | scf => exact machine.advances_setFlags _
  | ccf => exact machine.advances_setFlags _
  | push source => exact machine.advances_push source hplain
  | pop target => exact machine.advances_pop target hplain
  | jp condition target =>
    have hskip : machine.satisfies condition = false := hjumps
    have hread : (target.read machine).machine.satisfies condition = false :=
      (Operand.satisfies_read hplain machine condition).trans hskip
    simp only [execute, Machine.jp, hread, Bool.false_eq_true, if_false]
    simp only [Instruction.condition, hskip, cycles, Bool.false_eq_true, if_false]
    exact Operand.advances_read hplain machine
  | jr condition =>
    have hskip : machine.satisfies condition = false := hjumps
    have hread : machine.fetchByte.machine.satisfies condition = false := hskip
    simp only [execute, Machine.jr, hread, Bool.false_eq_true, if_false]
    simp only [Instruction.condition, hskip, cycles, Bool.false_eq_true, if_false]
    exact machine.advances_fetchByte
  | call condition =>
    have hskip : machine.satisfies condition = false := hjumps
    have hread : machine.fetchWord.machine.satisfies condition = false := hskip
    simp only [execute, Machine.call, hread, Bool.false_eq_true, if_false]
    simp only [Instruction.condition, hskip, cycles, Bool.false_eq_true, if_false]
    exact machine.advances_fetchWord
  | ret condition =>
    have hskip : machine.satisfies condition = false := hjumps
    have hdecided := (satisfies_decided condition condition machine).trans hskip
    simp only [execute, Machine.ret, hdecided, Bool.false_eq_true, if_false]
    simp only [Instruction.condition, hskip, cycles, Bool.false_eq_true, if_false]
    exact advances_decided condition machine
  | jpHl => cases hjumps
  | reti => cases hjumps
  | rst target => cases hjumps
  | stop =>
    exact ⟨rfl, rfl⟩
  | halt | ei | di => exact .of_pc_eq rfl rfl

/-- A taken jump goes elsewhere, but it takes as long as its form says. -/
theorem clock_execute_of_jumps {instruction : Instruction} (hplain : instruction.isPlain = true)
    {machine : Machine} (hjumps : instruction.jumps machine = true) :
    (instruction.execute machine).clock = machine.clock + instruction.cycles true := by
  cases instruction with
  | jp condition target =>
    have htaken : (target.read machine).machine.satisfies condition = true :=
      (Operand.satisfies_read hplain machine condition).trans hjumps
    simp only [execute, Machine.jp, htaken, if_true]
    rw [Machine.clock_setWord, Machine.clock_tick, Operand.clock_read]
    rfl
  | jr condition =>
    have htaken : machine.fetchByte.machine.satisfies condition = true := hjumps
    simp only [execute, Machine.jr, htaken, if_true]
    rfl
  | call condition =>
    have htaken : machine.fetchWord.machine.satisfies condition = true := hjumps
    simp only [execute, Machine.call, htaken, if_true]
    rw [Machine.clock_setWord, Machine.clock_push, Machine.clock_fetchWord]
    rfl
  | ret condition =>
    have htaken := (satisfies_decided condition condition machine).trans hjumps
    simp only [execute, Machine.ret, htaken, if_true]
    have hpop (decided : Machine) :
        (decided.pop (.wordRegister .pc)).tick.clock = decided.clock + 3 := rfl
    rw [hpop, (advances_decided condition machine).clock, Nat.add_assoc]
    rfl
  | reti => rfl
  | rst target =>
    simp only [execute, Machine.rst]
    rw [Machine.clock_setWord, Operand.clock_read, Machine.clock_push, Nat.add_assoc]
    rfl
  | jpHl => rfl
  | _ => cases hjumps

theorem clock_execute {instruction : Instruction} (hplain : instruction.isPlain = true)
    (machine : Machine) :
    (instruction.execute machine).clock =
      machine.clock + instruction.cycles (machine.satisfies instruction.condition) := by
  cases hjumps : instruction.jumps machine with
  | false => exact (advances_execute hplain hjumps).clock
  | true =>
    have htaken := (Bool.and_eq_true_iff.mp hjumps).2
    rw [clock_execute_of_jumps hplain hjumps, htaken]

theorem control_execute (instruction : Instruction) (machine : Machine) :
    (instruction.execute machine).control = instruction.control machine.control := by
  cases instruction with
  | ld target source =>
    rw [execute, Machine.ld, Operand.control_write, Operand.control_read]
    rfl
  | binary operation target source => exact machine.control_binary operation target source
  | inc target | dec target | shift _ target _ | swap target =>
    exact machine.control_modify _ target
  | bit index source => exact source.control_read machine
  | set index target | res index target | incWord target | decWord target =>
    exact (target.control_write _ _).trans (target.control_read machine)
  | addToHl source => exact machine.control_binary .add (.wordRegister .hl) source
  | push source => exact machine.control_push source
  | pop target => exact target.control_write _ _
  | jp condition target =>
    simp only [execute, Machine.jp]
    split <;> exact target.control_read machine
  | jr condition =>
    simp only [execute, Machine.jr]
    split <;> rfl
  | call condition =>
    simp only [execute, Machine.call]
    split
    · rw [Machine.control_setWord, Machine.control_push]
      rfl
    · rfl
  | ret condition => exact machine.control_ret condition
  | rst target =>
    simp only [execute, Machine.rst]
    rw [Machine.control_setWord, Operand.control_read, Machine.control_push]
    rfl
  | _ => rfl

end Instruction

end Sm83

import Sm83.Proofs.Footprint

/-!
# What an instruction reads and writes

The memory cells that an instruction names, read off its form like its cost. They are told as they
lie before it executes. For this the operands must not move each other: where one is reached after
another has been read, that reading has to leave the base of the first alone, as it does in every
instruction that an opcode encodes.
-/

namespace Sm83

/-- Whether the pointer starts from a word register and leaves it alone. -/
def Pointer.isFixed : Pointer → Bool
  | { base := .wordRegister _, step, .. } => step == 0
  | _ => false

theorem Pointer.exists_register {pointer : Pointer} (hfixed : pointer.isFixed = true)
    (hplain : pointer.base.isPlain = true) :
    ∃ register, pointer.base = .wordRegister register ∧ register ≠ .af ∧ register ≠ .pc ∧
      ∀ machine, pointer.advance machine = machine := by
  obtain ⟨base, step, offset⟩ := pointer
  cases base with
  | wordRegister register =>
    have hstep : step = 0 := eq_of_beq hfixed
    have hregister : register ≠ .af ∧ register ≠ .pc := by
      cases register with
      | af | pc => cases hplain
      | bc | de | hl | sp => exact ⟨nofun, nofun⟩
    exact ⟨register, rfl, hregister.1, hregister.2, fun machine => if_pos hstep⟩
  | _ => cases hfixed

namespace Operand

variable {width : Nat}

/-- Whether the operand is within the processor. -/
def isInternal {width : Nat} : Operand width → Bool
  | .byteRegister _ | .wordRegister _ | .constant _ => true
  | .readOnly inner => inner.isInternal
  | _ => false

/-- Whether the operand, if in memory, is where a register tells that it does not move. -/
def isFixed : Operand width → Bool
  | .byteAt pointer | .wordAt pointer => pointer.isFixed
  | operand => operand.isInternal

/-- Whether the operand follows the opcode. -/
def isFollowing : Operand width → Bool
  | .nextByte | .nextWord => true
  | _ => false

/-- What reaching an operand within the processor amounts to. -/
structure Internal (operand : Operand width) : Prop where
  readBytes : operand.readBytes = 0
  writeBytes : operand.writeBytes = 0
  readCells : operand.readCells = []
  writeCells : operand.writeCells = []
  read : ∀ machine, (operand.read machine).machine = machine
  write : ∀ value memory before, operand.write value (Machine.withMemory memory before) =
    Machine.withMemory memory (operand.write value before)

theorem internal {operand : Operand width} (hinternal : operand.isInternal = true) :
    operand.Internal := by
  induction operand with
  | byteRegister | wordRegister | constant =>
    exact ⟨rfl, rfl, rfl, rfl, fun _ => rfl, fun _ _ _ => rfl⟩
  | readOnly inner ih =>
    obtain ⟨hbytes, -, hcells, -, hread, -⟩ := ih hinternal
    exact ⟨hbytes, rfl, hcells, rfl, hread, fun _ _ _ => rfl⟩
  | nextByte | nextWord | byteAt | wordAt => cases hinternal

/-- What reaching an operand that stays where it is amounts to. -/
structure Fixed (operand : Operand width) : Prop where
  readBytes : operand.readBytes = 0
  writeBytes : operand.writeBytes = 0
  read : ∀ machine name, (operand.read machine).machine.word name = machine.word name
  cells : ∀ before after : Machine,
    (∀ name, name ≠ .af → name ≠ .pc → after.word name = before.word name) →
      operand.writeCells.map (Cell.address after) = operand.writeCells.map (Cell.address before)

theorem fixed {operand : Operand width} (hfixed : operand.isFixed = true)
    (hplain : operand.isPlain = true) : operand.Fixed := by
  cases operand with
  | byteAt pointer =>
    obtain ⟨base, step, offset⟩ := pointer
    obtain ⟨register, rfl, haf, hpc, hstays⟩ := Pointer.exists_register hfixed hplain
    refine ⟨rfl, rfl, fun machine name => congrArg (·.word name) (hstays _), ?_⟩
    intro before after hwords
    exact (Pointer.map_address_cells_of_word_eq _ rfl (hwords register haf hpc)).1
  | wordAt pointer =>
    obtain ⟨base, step, offset⟩ := pointer
    obtain ⟨register, rfl, haf, hpc, hstays⟩ := Pointer.exists_register hfixed hplain
    refine ⟨rfl, rfl, fun machine name => congrArg (·.word name) (hstays _), ?_⟩
    intro before after hwords
    exact (Pointer.map_address_cells_of_word_eq _ rfl (hwords register haf hpc)).2
  | _ =>
    obtain ⟨hreads, hwrites, -, hcells, hread, -⟩ := internal hfixed
    refine ⟨hreads, hwrites, fun machine name => by rw [hread], ?_⟩
    intro before after _
    rw [hcells, List.map_nil, List.map_nil]

end Operand

namespace Instruction

/-- The cells that the instruction looks at, `taken` telling whether its condition holds. -/
def readCells (instruction : Instruction) (taken : Bool) : List Cell :=
  match instruction with
  | .ld _ source | .bit _ source | .addToHl source | .push source => source.readCells
  | .binary _ target source => target.readCells ++ source.readCells
  | .inc target | .dec target | .shift _ target _ | .swap target | .set _ target
  | .res _ target | .incWord target | .decWord target | .jp _ target | .rst target =>
    target.readCells
  | .pop _ | .reti => Pointer.pop.wordCells
  | .ret _ => if taken then Pointer.pop.wordCells else []
  | _ => []

def writeCells (instruction : Instruction) (taken : Bool) : List Cell :=
  match instruction with
  | .ld target _ | .binary _ target _ | .inc target | .dec target | .shift _ target _
  | .swap target | .set _ target | .res _ target | .incWord target | .decWord target
  | .pop target => target.writeCells
  | .push _ | .rst _ => Pointer.push.wordCells
  | .call _ => if taken then Pointer.push.wordCells else []
  | _ => []

/-- Whether no operand moves another one before it is reached. -/
def isSettled : Instruction → Bool
  | .ld target source =>
    target.isInternal || source.isInternal || (target.isFixed && source.isFollowing)
  | .binary _ target _ | .pop target | .rst target => target.isInternal
  | .inc target | .dec target | .shift _ target _ | .swap target | .set _ target
  | .res _ target | .incWord target | .decWord target => target.isFixed
  | .push source => source.isInternal
  | _ => true

end Instruction

/-! ### The footprints of single instructions -/

namespace Machine

variable {width : Nat}

/-- Computing a fixed operand anew, with something happening in the processor between. -/
theorem touches_update {target : Operand width} (hfixed : target.isFixed = true)
    (hplain : target.isPlain = true) (result : BitVec width → BitVec width)
    (between : BitVec width → Machine → Machine)
    (hbetween : ∀ value before memory,
      between value (withMemory memory before) = withMemory memory (between value before))
    (hwords : ∀ value before name, name ≠ .af → name ≠ .pc →
      (between value before).word name = before.word name) (machine : Machine) :
    machine.Touches
      (fun before => target.write (result (target.read before).value)
        (between (target.read before).value (target.read before).machine))
      (target.readCells.map (Cell.address machine))
      (target.writeCells.map (Cell.address machine)) := by
  obtain ⟨hreads, hwrites, hread, hcells⟩ := Operand.fixed hfixed hplain
  have hupdate := (target.consults_read machine).bind
    (fun value before => target.write (result value) (between value before))
    ((touches_cpu (hbetween _) _).trans (target.touches_write _ _))
  rw [hreads, hwrites, hcells machine] at hupdate
  · exact hupdate.mono (by simp [ahead])
  · intro name haf hpc
    rw [hwords _ _ _ haf hpc, hread]

private theorem append_comm_subset (first second third : List Word) :
    first ++ second ++ third ⊆ first ++ third ++ second := by
  rw [List.append_assoc, List.append_assoc]
  exact (List.perm_append_comm.append_left first).subset

theorem touches_ld {target source : Operand width}
    (hsettled : (Instruction.ld target source).isSettled = true)
    (hplain : (Instruction.ld target source).isPlain = true) (machine : Machine) :
    machine.Touches (ld target source)
      (machine.ahead (source.readBytes + target.writeBytes) ++
        source.readCells.map (Cell.address machine))
      (target.writeCells.map (Cell.address machine)) := by
  obtain ⟨htarget, hsource⟩ := Bool.and_eq_true_iff.mp hplain
  -- The target is reached in the machine that reading the source leaves behind.
  have hcells : target.writeCells.map (Cell.address (source.read machine).machine) =
      target.writeCells.map (Cell.address machine) := by
    simp only [Instruction.isSettled, Bool.or_eq_true, Bool.and_eq_true] at hsettled
    rcases hsettled with (hinternal | hinternal) | ⟨hfixed, hfollowing⟩
    · rw [(Operand.internal hinternal).writeCells, List.map_nil, List.map_nil]
    · rw [(Operand.internal hinternal).read]
    · apply (Operand.fixed hfixed htarget).cells
      intro name _ hpc
      cases source with
      | nextByte => exact (SameData.fetchByte machine).word name hpc
      | nextWord => exact (SameData.fetchWord machine).word name hpc
      | _ => cases hfollowing
  have hload := (source.consults_read machine).bind target.write (target.touches_write _ _)
  rw [hcells] at hload
  rw [(Operand.advances_read hsource machine).ahead_add]
  exact hload.mono (append_comm_subset _ _ _)

theorem touches_binary (operation : Binary) {target : Operand width}
    (hinternal : target.isInternal = true) (source : Operand width) (machine : Machine) :
    machine.Touches (binary operation target source)
      (machine.ahead source.readBytes ++ source.readCells.map (Cell.address machine)) [] := by
  obtain ⟨hbytes, -, hcells, -, hread, hwrite⟩ := Operand.internal hinternal
  have hoperation := (target.consults_read machine).bind
    (fun left before =>
      let right := source.read before
      let outcome := operation.apply left right.value right.machine.flags.carry
      target.write outcome.value (right.machine.setFlags outcome.flags))
    ((source.consults_read _).bind
      (fun right before =>
        let outcome := operation.apply (target.read machine).value right before.flags.carry
        target.write outcome.value (before.setFlags outcome.flags))
      (touches_cpu (fun before memory => hwrite _ memory (before.setFlags _)) _))
  rw [hbytes, hcells, hread] at hoperation
  exact hoperation.mono (by simp [ahead])

theorem touches_push {source : Operand 16} (hinternal : source.isInternal = true)
    (machine : Machine) :
    machine.Touches (push source) [] (Pointer.push.wordCells.map (Cell.address machine)) := by
  obtain ⟨hbytes, -, hcells, -, hread, -⟩ := Operand.internal hinternal
  have hpush := (source.consults_read machine).bind
    (fun value before => Pointer.push.writeWord value before.tick)
    ((touches_cpu (fun _ _ => rfl) _).trans (Pointer.push.touches_writeWord _ _))
  rw [hbytes, hcells, hread] at hpush
  exact hpush

theorem touches_pop {target : Operand 16} (hinternal : target.isInternal = true)
    (machine : Machine) :
    machine.Touches (pop target) (Pointer.pop.wordCells.map (Cell.address machine)) [] :=
  (Pointer.pop.consults_readWord machine).bind target.write
    (touches_cpu (fun before memory => (Operand.internal hinternal).write _ memory before) _)

theorem consults_offsetSp (machine : Machine) :
    machine.Consults offsetSp (machine.ahead 1) :=
  machine.consults_fetchByte.andThen
    (fun distance before =>
      ⟨(Outcome.offset (before.word .sp) distance).value,
        before.setFlags (Outcome.offset (before.word .sp) distance).flags⟩)
    (consults_cpu (fun _ _ => rfl) _)

theorem touches_modify (operation : Byte → Outcome 8) {target : Operand 8}
    (hfixed : target.isFixed = true) (hplain : target.isPlain = true) (machine : Machine) :
    machine.Touches (modify operation target) (target.readCells.map (Cell.address machine))
      (target.writeCells.map (Cell.address machine)) :=
  touches_update hfixed hplain (fun value => (operation value).value)
    (fun value before => before.setFlags (operation value).flags) (fun _ _ _ => rfl)
    (fun _ _ _ haf _ => Registers.word_setByte_of_ne haf _ _) machine

/-- A byte computed anew, with the carry flag put back. -/
theorem touches_modify_keeping_carry (operation : Byte → Outcome 8) {target : Operand 8}
    (hfixed : target.isFixed = true) (hplain : target.isPlain = true) (machine : Machine) :
    machine.Touches
      (fun before => (before.modify operation target).setFlag .carry before.flags.carry)
      (target.readCells.map (Cell.address machine))
      (target.writeCells.map (Cell.address machine)) :=
  .ofCpu (·.registers.flags.carry)
    (fun carry before => (before.modify operation target).setFlag .carry carry)
    ((touches_modify operation hfixed hplain machine).thenCpu
      (·.setFlag .carry machine.flags.carry) (fun _ _ => rfl))

/-- What depends on a condition. -/
theorem Touches.ite {machine : Machine} {condition : Condition} {taken skipped : Machine → Machine}
    {reads writes : List Word}
    (htaken : machine.satisfies condition = true → machine.Touches taken reads writes)
    (hskipped : ¬ machine.satisfies condition = true → machine.Touches skipped reads writes) :
    machine.Touches
      (fun before => if before.satisfies condition then taken before else skipped before)
      reads writes := by
  apply Touches.ofCpu (fun cpu => condition.holds cpu.registers.flags)
    (fun holds before => if holds then taken before else skipped before)
  cases hholds : condition.holds machine.cpu.registers.flags with
  | true => exact htaken hholds
  | false => exact hskipped (Bool.eq_false_iff.mp hholds)

theorem touches_call (condition : Condition) (machine : Machine) :
    machine.Touches (call condition) (machine.ahead 2)
      ((if machine.satisfies condition then Pointer.push.wordCells else []).map
        (Cell.address machine)) := by
  have hbranch : machine.fetchWord.machine.Touches
      (fun before =>
        if before.satisfies condition then
          (before.push (.wordRegister .pc)).setWord .pc machine.fetchWord.value
        else before) []
      ((if machine.satisfies condition then Pointer.push.wordCells else []).map
        (Cell.address machine)) := by
    apply Touches.ite
    · intro (hholds : machine.satisfies condition = true)
      have hpc : (Operand.wordRegister .pc).isInternal = true := rfl
      have hsp : machine.fetchWord.machine.word .sp = machine.word .sp := rfl
      have hpush := (touches_push hpc machine.fetchWord.machine).thenCpu
        (·.setWord .pc machine.fetchWord.value) (fun _ _ => rfl)
      rw [(Pointer.push.map_address_cells_of_word_eq rfl hsp).2] at hpush
      rw [if_pos hholds]
      exact hpush
    · intro (hholds : ¬ machine.satisfies condition = true)
      rw [if_neg hholds]
      exact touches_cpu (fun _ _ => rfl) _
  exact machine.consults_fetchWord.bind
    (fun value before =>
      if before.satisfies condition then (before.push (.wordRegister .pc)).setWord .pc value
      else before) hbranch

theorem touches_ret (condition : Condition) (machine : Machine) :
    machine.Touches (ret condition)
      ((if machine.satisfies condition then Pointer.pop.wordCells else []).map
        (Cell.address machine)) [] := by
  have hdecided : machine.Touches
      (fun before => if condition = .always then before else before.tick) [] [] := by
    apply touches_cpu
    intro before memory
    split <;> rfl
  have hsp : (if condition = .always then machine else machine.tick).word .sp =
      machine.word .sp := by
    split <;> rfl
  have hsatisfies : (if condition = .always then machine else machine.tick).satisfies condition =
      machine.satisfies condition := by
    split <;> rfl
  have hbranch : (if condition = .always then machine else machine.tick).Touches
      (fun decided =>
        if decided.satisfies condition then (decided.pop (.wordRegister .pc)).tick else decided)
      ((if machine.satisfies condition then Pointer.pop.wordCells else []).map
        (Cell.address machine)) [] := by
    apply Touches.ite
    · intro hholds
      have hpc : (Operand.wordRegister .pc).isInternal = true := rfl
      rw [if_pos (hsatisfies.symm.trans hholds),
        ← (Pointer.pop.map_address_cells_of_word_eq rfl hsp).2]
      exact (touches_pop hpc _).thenCpu tick (fun _ _ => rfl)
    · intro hholds
      rw [hsatisfies] at hholds
      rw [if_neg hholds]
      exact touches_cpu (fun _ _ => rfl) _
  exact hdecided.trans hbranch

end Machine

/-! ### All instructions -/

namespace Instruction

/-- The footprint of an instruction is what its form says. -/
theorem touches_execute {instruction : Instruction} (hplain : instruction.isPlain = true)
    (hsettled : instruction.isSettled = true) (machine : Machine) :
    machine.Touches instruction.execute
      (machine.ahead instruction.bytes ++
        (instruction.readCells (machine.satisfies instruction.condition)).map
          (Cell.address machine))
      ((instruction.writeCells (machine.satisfies instruction.condition)).map
        (Cell.address machine)) := by
  cases instruction with
  | ld target source => exact Machine.touches_ld hsettled hplain machine
  | binary operation target source =>
    obtain ⟨hreads, hwrites, hreadCells, hwriteCells, -, -⟩ := Operand.internal hsettled
    have hbinary := Machine.touches_binary operation hsettled source machine
    simp only [bytes, readCells, writeCells, hreads, hwrites, hreadCells, hwriteCells]
    exact hbinary.mono (by simp)
  | inc target =>
    have hinc := Machine.touches_modify_keeping_carry (Outcome.add · 1 false) hsettled hplain
      machine
    exact hinc.mono (List.subset_append_right _ _)
  | dec target =>
    have hdec := Machine.touches_modify_keeping_carry (Outcome.sub · 1 false) hsettled hplain
      machine
    exact hdec.mono (List.subset_append_right _ _)
  | shift kind target zeroFlag =>
    have hmodify := Machine.touches_modify (kind.apply · machine.flags.carry zeroFlag) hsettled
      hplain machine
    have hshift := Machine.Touches.ofCpu (·.registers.flags.carry)
      (fun carry before => before.modify (kind.apply · carry zeroFlag) target) hmodify
    exact hshift.mono (List.subset_append_right _ _)
  | swap target =>
    have hswap := Machine.touches_modify Outcome.swap hsettled hplain machine
    exact hswap.mono (List.subset_append_right _ _)
  | bit index source =>
    exact (source.consults_read machine).bindCpu
      (fun value before =>
        before.setFlags
          { before.flags with
            zero := !value.getLsbD index, subtract := false, halfCarry := true })
      (fun _ _ _ => rfl)
  | set index target =>
    have hset := Machine.touches_update hsettled hplain (· ||| BitVec.twoPow 8 index)
      (fun _ before => before) (fun _ _ _ => rfl) (fun _ _ _ _ _ => rfl) machine
    exact hset.mono (List.subset_append_right _ _)
  | res index target =>
    have hres := Machine.touches_update hsettled hplain (· &&& ~~~BitVec.twoPow 8 index)
      (fun _ before => before) (fun _ _ _ => rfl) (fun _ _ _ _ _ => rfl) machine
    exact hres.mono (List.subset_append_right _ _)
  | incWord target =>
    have hinc := Machine.touches_update hsettled hplain (· + 1) (fun _ before => before.tick)
      (fun _ _ _ => rfl) (fun _ _ _ _ _ => rfl) machine
    exact hinc.mono (List.subset_append_right _ _)
  | decWord target =>
    have hdec := Machine.touches_update hsettled hplain (· - 1) (fun _ before => before.tick)
      (fun _ _ _ => rfl) (fun _ _ _ _ _ => rfl) machine
    exact hdec.mono (List.subset_append_right _ _)
  | addToHl source =>
    have hinternal : (Operand.wordRegister .hl).isInternal = true := rfl
    have hadd := Machine.touches_binary .add hinternal source machine
    have hkept := (hadd.thenCpu Machine.tick (fun _ _ => rfl)).thenCpu
      (·.setFlag .zero machine.flags.zero) (fun _ _ => rfl)
    exact Machine.Touches.ofCpu (·.registers.flags.zero)
      (fun zero before =>
        (before.binary .add (.wordRegister .hl) source).tick.setFlag .zero zero) hkept
  | addToSp =>
    exact machine.consults_offsetSp.bindCpu
      (fun value before => before.tick.tick.setWord .sp value) (fun _ _ _ => rfl)
  | ldHlSpOffset =>
    exact machine.consults_offsetSp.bindCpu
      (fun value before => before.tick.setWord .hl value) (fun _ _ _ => rfl)
  | push source =>
    exact (Machine.touches_push hsettled machine).mono (List.nil_subset _)
  | pop target =>
    obtain ⟨-, -, -, hcells, -, -⟩ := Operand.internal hsettled
    have hpop := Machine.touches_pop hsettled machine
    simp only [writeCells, hcells]
    exact hpop.mono (List.subset_append_right _ _)
  | jp condition target =>
    refine (target.consults_read machine).bindCpu
      (fun value before =>
        if before.satisfies condition then before.tick.setWord .pc value else before) ?_
    intro value before memory
    change (if before.satisfies condition then _ else _) = _
    split <;> rfl
  | jr condition =>
    refine machine.consults_fetchByte.bindCpu
      (fun value before =>
        if before.satisfies condition then
          before.tick.setWord .pc (before.word .pc + value.signExtend 16)
        else before) ?_
    intro value before memory
    change (if before.satisfies condition then _ else _) = _
    split <;> rfl
  | call condition =>
    have hcall := Machine.touches_call condition machine
    exact hcall.mono (List.subset_append_left _ _)
  | ret condition => exact Machine.touches_ret condition machine
  | reti =>
    exact (Machine.touches_ret .always machine).thenCpu (·.mapCpu Cpu.enableInterrupts)
      (fun _ _ => rfl)
  | rst target =>
    -- The push comes first, but the constant that is read after it does not move.
    have hpc : (Operand.wordRegister .pc).isInternal = true := rfl
    have hrst := (Machine.touches_push hpc machine).trans
      ((target.consults_read _).bindCpu (fun value before => before.setWord .pc value)
        (fun _ _ _ => rfl))
    obtain ⟨hbytes, -, hcells, -, -, -⟩ := Operand.internal hsettled
    simp only [bytes, readCells, hbytes, hcells] at hrst ⊢
    rw [List.append_nil] at hrst
    exact hrst
  | stop =>
    exact machine.consults_fetchByte.bindCpu (fun _ before => before.mapCpu Cpu.stop)
      (fun _ _ _ => rfl)
  | _ => exact Machine.touches_cpu (fun _ _ => rfl) machine

end Instruction

end Sm83

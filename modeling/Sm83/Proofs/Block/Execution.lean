import Sm83.Trace
import Sm83.Proofs.Block.Layout
import Sm83.Proofs.Memory
import Sm83.Proofs.Run

/-!
# A compiled block takes the steps of the machine

As long as memory still holds the opcode of each instruction when its turn comes, a compiled block
does what the same number of steps does, events included. What follows an opcode may have been
overwritten, since both fetch it only when they need it. All instructions but the last leave the
program counter at the next one and the processor running, which is the invariant of the induction.
-/

namespace Sm83

namespace Machine

/-- The events of `count` steps, appended to `log`. -/
def stepNEvents (machine : Machine) (log : Array Event) : Nat → Array Event
  | 0 => log
  | count + 1 => machine.stepNEvents log count ++ (machine.stepN count).stepEvents

/-- An instruction after which execution goes on with the next one leaves the processor running. -/
theorem exit?_step {machine : Machine} (hflow : machine.nextOpcode.flow = .next) :
    machine.step.exit? = machine.exit? := by
  have hrunning : ¬ (machine.lead = 0x10 ∨ machine.lead = 0x76) := by
    intro hlead
    have hhalts : machine.nextOpcode.flow = .halt :=
      (Opcode.flow_inMemory_eq_halt_iff _ _).mpr hlead
    rw [hflow] at hhalts
    cases hhalts
  obtain ⟨hstop, hhalt⟩ := not_or.mp hrunning
  have hcontrol := machine.control_step
  simp only [control, Opcode.controlAfter, Control.mk.injEq] at hcontrol
  obtain ⟨hstopped, hhalted, -⟩ := hcontrol
  rw [beq_eq_false_iff_ne.mpr hstop, Bool.or_false] at hstopped
  rw [beq_eq_false_iff_ne.mpr hhalt, Bool.or_false] at hhalted
  rw [exit?, exit?, hstopped, hhalted]

end Machine

theorem Instruction.events_ofExtended (second : Byte) (after : Machine) :
    (ofExtended second).events after = [] := by
  rw [ofExtended, Opcode.extension]
  split
  · unfold Opcode.rotation
    split <;> rfl
  · rfl
  · rfl
  · rfl

theorem Machine.stepEvents_eq (machine : Machine) :
    machine.stepEvents = machine.nextOpcode.operation.events machine.step := by
  change (Opcode.base machine.lead).operation.events machine.step = _
  by_cases hlead : machine.lead = Opcode.extensionPrefix
  · have hmemory : machine.memory.get (machine.word .pc) = Opcode.extensionPrefix := hlead
    rw [nextOpcode, Opcode.inMemory, if_pos hmemory, hlead, Opcode.base_eq_describeBase,
      Opcode.extended_eq_describeExtended]
    exact (Instruction.events_ofExtended _ _).symm
  · have hmemory : machine.memory.get (machine.word .pc) ≠ Opcode.extensionPrefix := hlead
    rw [nextOpcode, Opcode.inMemory, if_neg hmemory]
    rfl

/-- Only these opcodes have an event: STOP and HALT tell the state they lead to, and an opcode that
means nothing tells itself and its address. -/
theorem Machine.stepEvents_eq_of_lead (machine : Machine) :
    machine.stepEvents =
      if machine.lead = 0x10 then [.stopped (machine.step.word .pc) machine.step.clock]
      else if machine.lead = 0x76 then [.halted (machine.step.word .pc) machine.step.clock]
      else if machine.lead ∈ Opcode.undefinedBytes then
        [.undefinedOpcode machine.lead (machine.word .pc)]
      else [] := by
  change (Opcode.base machine.lead).operation.events machine.step = _
  split
  · next hstop =>
    rw [hstop, Opcode.operation_base_stop]
    rfl
  split
  · next hhalt =>
    rw [hhalt, Opcode.operation_base_halt]
    rfl
  split
  · next hundefined =>
    -- The step moves only the program counter, past the byte that is reported.
    have hbefore : machine.word .pc + 1 - 1 = machine.word .pc := BitVec.add_sub_cancel _ 1
    rw [Opcode.operation_base_of_mem hundefined, step_of_undefined hundefined]
    change [Event.undefinedOpcode (machine.memory.get (machine.word .pc + 1 - 1))
      (machine.word .pc + 1 - 1)] = _
    rw [hbefore]
    rfl
  · next hstop hhalt hundefined =>
    have hcontrol := Opcode.control_base machine.lead ⟨false, false, false⟩
    have hlisted := (Opcode.isEntry_base machine.lead).isUndefined
    generalize (Opcode.base machine.lead).operation = operation at hcontrol hlisted ⊢
    cases operation with
    | extend => rfl
    | instruction single =>
      refine Instruction.events_eq_nil_iff.mpr ⟨?_, ?_, ?_⟩
      · rintro rfl
        have hstopped : true = (machine.lead == 0x10) := congrArg Control.stopped hcontrol
        exact hstop (beq_iff_eq.mp hstopped.symm)
      · rintro rfl
        have hhalted : true = (machine.lead == 0x76) := congrArg Control.halted hcontrol
        exact hhalt (beq_iff_eq.mp hhalted.symm)
      · rintro rfl
        exact hundefined (List.contains_iff_mem.mp hlisted.symm)

/-! ### One instruction -/

namespace Decoded

variable {address : Word} {bytes rest : List Byte} {decoded : Decoded} {machine : Machine}

/-- Where the bytes that tell the instruction are in memory, it is the one that the next step
executes. -/
theorem opcode_eq_nextOpcode (hcut : cut? address bytes = some (decoded, rest))
    (hpc : machine.word .pc = address)
    (hlead : machine.memory.holds address (leadingBytes bytes) = true) :
    decoded.opcode = machine.nextOpcode ∧
      decoded.prefixed = decide (machine.lead = Opcode.extensionPrefix) := by
  subst hpc
  obtain ⟨hopcode, hprefixed⟩ := inMemory_of_cut? hcut hlead
  exact ⟨hopcode.symm, hprefixed⟩

theorem execute_compile (hcut : cut? address bytes = some (decoded, rest))
    (hpc : machine.word .pc = address)
    (hlead : machine.memory.holds address (leadingBytes bytes) = true) :
    decoded.compile.execute machine = machine.step := by
  obtain ⟨hopcode, hprefixed⟩ := opcode_eq_nextOpcode hcut hpc hlead
  rw [Machine.step_eq_execute, Machine.fetchOpcode]
  simp only [Routine.Step.execute, compile, hopcode, hprefixed, decide_eq_true_eq]

end Decoded

/-! ### The instructions of a block one after the other -/

namespace Routine

/-- The routine that performs only the first `count` operations. -/
def take (routine : Routine) (count : Nat) : Routine := { steps := routine.steps.take count }

/-- Each operation takes time, be it only for fetching its opcode. -/
theorem Step.clock_lt_clock_execute (step : Step) (machine : Machine) :
    machine.clock < (step.execute machine).clock := by
  rw [Step.execute]
  refine Nat.lt_of_lt_of_le ?_ (Operation.clock_le_clock_execute _ _)
  cases step.prefixed with
  | false => exact Nat.lt_succ_self _
  | true => exact Nat.lt_add_of_pos_right (Nat.succ_pos 1)

theorem clock_lt_clock_execute {routine : Routine} (hsteps : routine.steps ≠ [])
    (machine : Machine) : machine.clock < (routine.execute machine).clock := by
  obtain ⟨steps⟩ := routine
  induction steps generalizing machine with
  | nil => exact absurd rfl hsteps
  | cons step steps ih =>
    have hfirst := step.clock_lt_clock_execute machine
    cases steps with
    | nil => exact hfirst
    | cons next steps =>
      exact Nat.lt_trans hfirst (ih (step.execute machine) (List.cons_ne_nil _ _))

theorem take_length (routine : Routine) : routine.take routine.steps.length = routine := by
  rw [take, List.take_length]

theorem execute_take_succ {routine : Routine} {index : Nat} (hindex : index < routine.steps.length)
    (machine : Machine) :
    (routine.take (index + 1)).execute machine =
      routine.steps[index].execute ((routine.take index).execute machine) := by
  simp only [execute, take, List.take_succ_eq_append_getElem hindex, List.foldl_append,
    List.foldl_cons, List.foldl_nil]

/-- Keeping the log does not change what the operations do. -/
theorem fst_foldl_events (steps : List Step) (machine : Machine) (log : Array Event) :
    (steps.foldl
      (fun (machine, log) step =>
        let after := step.execute machine
        (after, log ++ step.operation.events after))
      (machine, log)).1 = execute ⟨steps⟩ machine := by
  induction steps generalizing machine log with
  | nil => rfl
  | cons step steps ih => exact ih (step.execute machine) _

theorem events_take_succ {routine : Routine} {index : Nat} (hindex : index < routine.steps.length)
    (machine : Machine) (log : Array Event) :
    (routine.take (index + 1)).events machine log =
      (routine.take index).events machine log ++
        routine.steps[index].operation.events ((routine.take (index + 1)).execute machine) := by
  rw [execute_take_succ hindex]
  simp only [events, take, List.take_succ_eq_append_getElem hindex, List.foldl_append,
    List.foldl_cons, List.foldl_nil]
  rw [fst_foldl_events]

end Routine

namespace Block

/-- What tells the numbered instruction is in memory where the block has it. -/
def InPlace (block : Block) (index : Nat) (memory : Memory) : Prop :=
  memory.holds (block.start + BitVec.ofNat 16 (block.offset index))
    (Decoded.leadingBytes (block.bytes.drop (block.offset index))) = true

instance (block : Block) (index : Nat) (memory : Memory) : Decidable (block.InPlace index memory) :=
  inferInstanceAs (Decidable (_ = true))

variable {block : Block} {machine : Machine}

theorem offset_succ {index : Nat} (hindex : index < block.instructions.length) :
    block.offset (index + 1) = block.offset index + block.instructions[index].opcode.length :=
  Decoded.span_take_succ hindex

/-- An instruction in its place is what the next step executes, and unless it is the last one the
processor then goes on with the one after it. -/
theorem Encodes.step {index : Nat}
    (hencodes : Encodes block.start block.bytes block.instructions)
    (hindex : index < block.instructions.length)
    (hpc : machine.word .pc = block.start + BitVec.ofNat 16 (block.offset index))
    (hplace : block.InPlace index machine.memory) :
    block.instructions[index].compile.execute machine = machine.step ∧
      block.instructions[index].opcode.operation.events machine.step = machine.stepEvents ∧
      (index + 1 < block.instructions.length →
        machine.step.word .pc = block.start + BitVec.ofNat 16 (block.offset (index + 1)) ∧
          machine.step.exit? = machine.exit?) := by
  obtain ⟨⟨rest, hcut⟩, hgoes⟩ := hencodes.cut?_drop hindex
  obtain ⟨hopcode, -⟩ := Decoded.opcode_eq_nextOpcode hcut hpc hplace
  refine ⟨Decoded.execute_compile hcut hpc hplace, ?_, ?_⟩
  · rw [machine.stepEvents_eq, hopcode]
  · intro hmore
    have hflow : machine.nextOpcode.flow = .next := by
      have hends := hgoes hmore
      rw [Opcode.endsBlock, bne_eq_false_iff_eq, hopcode] at hends
      exact hends
    have hstays : machine.nextOpcode.flow ≠ .jump := by
      rw [hflow]
      exact Flow.noConfusion
    refine ⟨?_, Machine.exit?_step hflow⟩
    rw [Machine.pc_step (.inl hstays), hpc, offset_succ hindex, hopcode, BitVec.ofNat_add,
      BitVec.add_assoc]

/-- The steps of the machine that correspond to the first `count` instructions of a block. The
program counter and the processor are as described only before the last instruction has run. -/
structure Follows (block : Block) (machine : Machine) (count : Nat) : Prop where
  execute : (block.compile.take count).execute machine = machine.stepN count
  events : ∀ log, (block.compile.take count).events machine log = machine.stepNEvents log count
  next : count < block.instructions.length →
    (machine.stepN count).word .pc = block.start + BitVec.ofNat 16 (block.offset count) ∧
      (machine.stepN count).exit? = machine.exit?

theorem follows_zero (hpc : machine.word .pc = block.start) : block.Follows machine 0 where
  execute := rfl
  events _ := rfl
  next _ := by
    refine ⟨?_, rfl⟩
    rw [Machine.stepN, hpc, offset, List.take_zero]
    simp [Decoded.span]

theorem Follows.succ {count : Nat} (hfollows : block.Follows machine count)
    (hencodes : Encodes block.start block.bytes block.instructions)
    (hcount : count < block.instructions.length)
    (hplace : block.InPlace count (machine.stepN count).memory) :
    block.Follows machine (count + 1) := by
  obtain ⟨hpc, hexit⟩ := hfollows.next hcount
  obtain ⟨hexecute, hevents, hnext⟩ := hencodes.step hcount hpc hplace
  have hsteps : count < block.compile.steps.length := by
    rw [compile, List.length_map]
    exact hcount
  have hgetElem : block.compile.steps[count] = block.instructions[count].compile := by
    simp only [compile, List.getElem_map]
  have hsucc : (block.compile.take (count + 1)).execute machine = machine.stepN (count + 1) := by
    rw [Routine.execute_take_succ hsteps, hfollows.execute, hgetElem, hexecute, Machine.stepN_succ]
  refine ⟨hsucc, ?_, ?_⟩
  · intro log
    rw [Routine.events_take_succ hsteps, hfollows.events, hsucc, hgetElem, Machine.stepN_succ,
      Decoded.compile, hevents, Machine.stepNEvents]
  · intro hmore
    obtain ⟨hpc', hexit'⟩ := hnext hmore
    rw [Machine.stepN_succ]
    exact ⟨hpc', hexit'.trans hexit⟩

/-- As long as the instructions are found in place, the machine follows the block. -/
theorem follows (hencodes : Encodes block.start block.bytes block.instructions)
    (hpc : machine.word .pc = block.start) {count : Nat} (hcount : count ≤ block.instructions.length)
    (hplace : ∀ index < count, block.InPlace index (machine.stepN index).memory) :
    block.Follows machine count := by
  induction count with
  | zero => exact follows_zero hpc
  | succ count ih =>
    have hbefore : block.Follows machine count :=
      ih (by omega) fun index hindex => hplace index (by omega)
    exact hbefore.succ hencodes hcount (hplace count (by omega))

/-- A run of the machine does not end inside the block. -/
theorem goesOn (hencodes : Encodes block.start block.bytes block.instructions)
    (hpc : machine.word .pc = block.start) (hrunning : machine.exit? = none) {count : Nat}
    (hcount : count ≤ block.instructions.length)
    (hplace : ∀ index < count, block.InPlace index (machine.stepN index).memory) :
    machine.GoesOn count := by
  intro index hindex
  have hfollows := follows hencodes hpc (Nat.le_trans (Nat.le_of_lt hindex) hcount)
    fun earlier hearlier => hplace earlier (by omega)
  rw [(hfollows.next (by omega)).2, hrunning]

theorem take_compile (block : Block) :
    block.compile.take block.instructions.length = block.compile := by
  have hlength : block.compile.steps.length = block.instructions.length := List.length_map _
  rw [← hlength, Routine.take_length]

/-- Whenever the compiled block comes to an instruction, what tells it is still in memory. -/
def KeepsOpcodes (block : Block) (machine : Machine) : Prop :=
  ∀ index < block.instructions.length,
    block.InPlace index ((block.compile.take index).execute machine).memory

instance (block : Block) (machine : Machine) : Decidable (block.KeepsOpcodes machine) :=
  inferInstanceAs (Decidable (∀ index < _, _))

/-- Seen from the compiled block or from the machine, the opcodes are kept in the same states. -/
theorem KeepsOpcodes.inPlace (hkeeps : block.KeepsOpcodes machine)
    (hencodes : Encodes block.start block.bytes block.instructions)
    (hpc : machine.word .pc = block.start) {index : Nat}
    (hindex : index < block.instructions.length) :
    block.InPlace index (machine.stepN index).memory := by
  induction index using Nat.strongRecOn with
  | ind index ih =>
    -- Every earlier opcode was in place, so both views have come to the same state.
    have hfollows : block.Follows machine index :=
      follows hencodes hpc (Nat.le_of_lt hindex) fun earlier hearlier =>
        ih earlier hearlier (by omega)
    rw [← hfollows.execute]
    exact hkeeps index hindex

end Block

end Sm83

import Sm83.Routine
import Sm83.Proofs.Block.Discovery
import Sm83.Proofs.Block.Grammar
import Sm83.Proofs.Step

/-!
# What a block costs

Each operation of a compiled block takes the cycles that its opcode declares and moves past the bytes
that it declares, whatever memory holds by then. Only the last instruction can be a jump, and only
jumps depend on a condition, so a block takes `Block.cycles` and moves past its bytes unless its last
instruction does otherwise. Neither can any other instruction be a call, which is what bounds the
cycles of a block by its length, and a discovered block has no more than 64 instructions.
-/

namespace Sm83

namespace Decoded

variable {address : Word} {bytes rest : List Byte} {decoded : Decoded} {single : Instruction}

/-- The bytes that are fetched before the operation is performed. -/
def fetchedBytes (decoded : Decoded) : Nat := if decoded.prefixed then 2 else 1

/-- The machine after they have been fetched. -/
def fetch (decoded : Decoded) (machine : Machine) : Machine :=
  if decoded.prefixed then machine.fetchByte.machine.fetchByte.machine
  else machine.fetchByte.machine

/-- Whether the instruction depends on a condition that does not hold. -/
def skips (decoded : Decoded) (machine : Machine) : Bool :=
  decoded.opcode.isConditional && !machine.satisfies decoded.opcode.condition

theorem exists_describes (hcut : cut? address bytes = some (decoded, rest)) :
    ∃ single, decoded.opcode.Describes decoded.fetchedBytes single := by
  obtain ⟨hinstruction, -, -⟩ := Block.instructionAt_of_cut? hcut
  obtain ⟨place, opcode, prefixed⟩ := decoded
  cases hinstruction with
  | base _ hplain => exact Opcode.exists_describes_base hplain
  | extended => exact Opcode.exists_describes_extended _

theorem cycles_le_maxCycles (hcut : cut? address bytes = some (decoded, rest)) :
    decoded.opcode.cycles ≤ decoded.opcode.maxCycles := by
  obtain ⟨hinstruction, -, -⟩ := Block.instructionAt_of_cut? hcut
  obtain ⟨place, opcode, prefixed⟩ := decoded
  cases hinstruction with
  | base => exact (Opcode.isEntry_base _).cycles_le
  | extended => exact Opcode.cycles_extended_le _

theorem advances_fetch (decoded : Decoded) (machine : Machine) :
    machine.Advances (decoded.fetch machine) decoded.fetchedBytes decoded.fetchedBytes := by
  rw [fetch, fetchedBytes]
  split
  · exact machine.advances_fetchByte.trans machine.fetchByte.machine.advances_fetchByte
  · exact machine.advances_fetchByte

theorem satisfies_fetch (decoded : Decoded) (machine : Machine) (condition : Condition) :
    (decoded.fetch machine).satisfies condition = machine.satisfies condition := by
  rw [fetch]
  split <;> rfl

theorem execute_compile_of_describes
    (hdescribes : decoded.opcode.Describes decoded.fetchedBytes single) (machine : Machine) :
    decoded.compile.execute machine = single.execute (decoded.fetch machine) := by
  rw [Routine.Step.execute, compile, hdescribes.operation]
  rfl

/-- A compiled instruction takes the declared cycles in any memory. -/
theorem clock_execute_compile (hdescribes : decoded.opcode.Describes decoded.fetchedBytes single)
    (machine : Machine) :
    (decoded.compile.execute machine).clock = machine.clock +
      if decoded.skips machine then decoded.opcode.skippedCycles else decoded.opcode.cycles := by
  rw [skips, hdescribes.declared_cycles, execute_compile_of_describes hdescribes,
    Instruction.clock_execute hdescribes.isPlain, satisfies_fetch,
    (decoded.advances_fetch machine).clock, Nat.add_assoc]

/-- Unless it jumps, a compiled instruction moves past the declared bytes in any memory. -/
theorem pc_execute_compile (hdescribes : decoded.opcode.Describes decoded.fetchedBytes single)
    {machine : Machine}
    (hstays : decoded.opcode.flow ≠ .jump ∨ decoded.skips machine = true) :
    (decoded.compile.execute machine).word .pc =
      machine.word .pc + BitVec.ofNat 16 decoded.opcode.length := by
  have hjumps : single.jumps (decoded.fetch machine) = false := by
    apply hdescribes.jumps_eq_false
    rw [satisfies_fetch]
    exact hstays
  have hexecute := Instruction.advances_execute hdescribes.isPlain hjumps
  rw [execute_compile_of_describes hdescribes, ((decoded.advances_fetch machine).trans hexecute).pc,
    hdescribes.length]

/-- What does not end a block costs the same in every state. -/
theorem advances_execute_compile (hcut : cut? address bytes = some (decoded, rest))
    (hgoes : decoded.opcode.endsBlock = false) (machine : Machine) :
    machine.Advances (decoded.compile.execute machine) decoded.opcode.cycles
      decoded.opcode.length := by
  obtain ⟨single, hdescribes⟩ := exists_describes hcut
  have hflow : decoded.opcode.flow = .next := by
    rw [Opcode.endsBlock, bne_eq_false_iff_eq] at hgoes
    exact hgoes
  have hstays : decoded.opcode.flow ≠ .jump := by
    rw [hflow]
    exact Flow.noConfusion
  have hskips : decoded.skips machine = false := by
    rw [skips, hdescribes.isConditional_eq_false hstays, Bool.false_and]
  refine ⟨?_, pc_execute_compile hdescribes (.inl hstays)⟩
  rw [clock_execute_compile hdescribes, hskips, if_neg Bool.false_ne_true]

/-- The cycles that instructions take one after the other when every condition holds. -/
def totalCycles : List Decoded → Nat
  | [] => 0
  | decoded :: instructions => decoded.opcode.cycles + totalCycles instructions

theorem totalCycles_append (left right : List Decoded) :
    totalCycles (left ++ right) = totalCycles left + totalCycles right := by
  induction left with
  | nil => rw [List.nil_append, totalCycles, Nat.zero_add]
  | cons decoded left ih => rw [List.cons_append, totalCycles, totalCycles, ih, Nat.add_assoc]

end Decoded

namespace Block

theorem cycles_eq_totalCycles (block : Block) :
    block.cycles = Decoded.totalCycles block.instructions := by
  rw [cycles]
  induction block.instructions with
  | nil => rfl
  | cons decoded instructions ih => rw [List.foldr_cons, ih, Decoded.totalCycles]

namespace Encodes

variable {address : Word} {bytes : List Byte} {instructions front : List Decoded} {last : Decoded}

/-- All instructions before the last cost the same in every state. -/
theorem advances_front (hencodes : Encodes address bytes (front ++ [last])) (machine : Machine) :
    machine.Advances (Routine.execute ⟨front.map Decoded.compile⟩ machine)
      (Decoded.totalCycles front) (Decoded.span front) := by
  induction front generalizing address bytes machine with
  | nil => exact .refl machine
  | cons decoded front ih =>
    rw [List.cons_append] at hencodes
    generalize hinstructions : front ++ [last] = instructions at hencodes
    cases hencodes with
    | last => exact absurd hinstructions (by simp)
    | cons hcut hgoes tail =>
      rw [← hinstructions] at tail
      exact (Decoded.advances_execute_compile hcut hgoes machine).trans (ih tail _)

theorem exists_describes_last (hencodes : Encodes address bytes (front ++ [last])) :
    ∃ single, last.opcode.Describes last.fetchedBytes single := by
  have hindex : front.length < (front ++ [last]).length := by simp
  obtain ⟨⟨rest, hcut⟩, -⟩ := hencodes.cut?_drop hindex
  rw [List.getElem_concat_length rfl] at hcut
  exact Decoded.exists_describes hcut

theorem totalCycles_le (hencodes : Encodes address bytes instructions) :
    Decoded.totalCycles instructions ≤ 5 * instructions.length + 1 := by
  induction hencodes with
  | nil => exact Nat.zero_le _
  | last hcut hends =>
    have hle := Decoded.cycles_le_maxCycles hcut
    rw [Opcode.maxCycles, if_pos hends] at hle
    simpa [Decoded.totalCycles] using hle
  | cons hcut hgoes _ ih =>
    have hle := Decoded.cycles_le_maxCycles hcut
    rw [Opcode.maxCycles, hgoes, if_neg Bool.false_ne_true] at hle
    rw [Decoded.totalCycles, List.length_cons]
    omega

end Encodes

variable {start : Word} {bytes : List Byte} {block : Block}

/-- The machine when the turn of the last instruction comes. -/
def beforeLast (block : Block) (machine : Machine) : Machine :=
  Routine.execute ⟨block.instructions.dropLast.map Decoded.compile⟩ machine

/-- A block is a front that costs the same in every state, and one more instruction. -/
theorem exists_execute_compile_eq (hdecode : decode start bytes = .ok block) (machine : Machine) :
    ∃ front last single, block.instructions = front ++ [last] ∧
      last.opcode.Describes last.fetchedBytes single ∧
      machine.Advances (block.beforeLast machine) (Decoded.totalCycles front)
        (Decoded.span front) ∧
      block.compile.execute machine = last.compile.execute (block.beforeLast machine) := by
  obtain ⟨hbytes, -, -, hencodes⟩ := decode_eq_ok_iff.mp hdecode
  rcases block.instructions.eq_nil_or_concat with hnil | ⟨front, last, hlast⟩
  · exact absurd hnil (hencodes.ne_nil hbytes)
  rw [List.concat_eq_append] at hlast
  rw [hlast] at hencodes
  obtain ⟨single, hdescribes⟩ := hencodes.exists_describes_last
  refine ⟨front, last, single, hlast, hdescribes, ?_, ?_⟩
  · rw [beforeLast, hlast, List.dropLast_concat]
    exact hencodes.advances_front machine
  · simp only [beforeLast, compile, hlast, List.dropLast_concat, Routine.execute, List.map_append,
      List.map_cons, List.map_nil, List.foldl_append, List.foldl_cons, List.foldl_nil]

/-- However a block changes the memory, it takes no more cycles than it declares. -/
theorem clock_execute_compile_le (hdecode : decode start block.bytes = .ok block)
    (machine : Machine) :
    (block.compile.execute machine).clock ≤ machine.clock + block.cycles := by
  obtain ⟨front, last, single, hlast, hdescribes, hfront, hexecute⟩ :=
    exists_execute_compile_eq hdecode machine
  have hdeclared := hdescribes.declared_cycles_le (block.beforeLast machine)
  rw [cycles_eq_totalCycles, hlast, Decoded.totalCycles_append, hexecute,
    Decoded.clock_execute_compile hdescribes, hfront.clock, Nat.add_assoc]
  exact Nat.add_le_add_left (Nat.add_le_add_left hdeclared _) _

theorem cycles_le_of_discover {memory : Memory} (hdiscover : discover memory start = .ok block) :
    block.cycles ≤ 321 := by
  obtain ⟨-, -, -, hencodes⟩ := decode_eq_ok_iff.mp hdiscover
  obtain ⟨hlength, -⟩ := stopsAt_of_discover hdiscover
  have hcycles := hencodes.totalCycles_le
  rw [maxInstructions] at hlength
  rw [cycles_eq_totalCycles]
  omega

/-- Wherever the program counter is and whatever memory holds or comes to hold, a block takes the
cycles it declares and moves past its bytes, unless its last instruction skips or jumps. -/
theorem execute_compile_takes_declared (hdecode : decode start bytes = .ok block)
    (machine : Machine) :
    ∃ last ∈ block.instructions.getLast?,
      last.opcode.cycles ≤ block.cycles ∧
      (block.compile.execute machine).clock = machine.clock +
        (if last.skips (block.beforeLast machine) then
          block.cycles - last.opcode.cycles + last.opcode.skippedCycles
        else block.cycles) ∧
      (last.opcode.flow ≠ .jump ∨ last.skips (block.beforeLast machine) = true →
        (block.compile.execute machine).word .pc =
          machine.word .pc + BitVec.ofNat 16 bytes.length) := by
  obtain ⟨front, last, single, hlast, hdescribes, hfront, hexecute⟩ :=
    exists_execute_compile_eq hdecode machine
  obtain ⟨-, -, -, hencodes⟩ := decode_eq_ok_iff.mp hdecode
  have hspan := hencodes.span_eq
  rw [hlast, Decoded.span_append, Decoded.span, Decoded.span, Nat.add_zero] at hspan
  have hcycles : block.cycles = Decoded.totalCycles front + last.opcode.cycles := by
    rw [cycles_eq_totalCycles, hlast, Decoded.totalCycles_append]
    rfl
  refine ⟨last, ?_, ?_, ?_, ?_⟩
  · rw [hlast, List.getLast?_concat]
    rfl
  · rw [hcycles]
    exact Nat.le_add_left _ _
  · rw [hexecute, Decoded.clock_execute_compile hdescribes, hfront.clock, hcycles,
      Nat.add_sub_cancel, Nat.add_assoc]
    split <;> rfl
  · intro hstays
    rw [hexecute, Decoded.pc_execute_compile hdescribes hstays, hfront.pc, ← hspan,
      BitVec.ofNat_add, BitVec.add_assoc]

/-- Counts up until the count is zero, from the last address on across the end of memory. -/
def loopAcrossEnd : Block where
  start := 0xFFFF
  bytes := [0x3C, 0x20, 0xFD]
  instructions := [⟨0xFFFF, Opcode.base 0x3C, false⟩, ⟨0x0000, Opcode.base 0x20, false⟩]

theorem length_countUp : (Opcode.base 0x3C).length = 1 := by
  rw [Opcode.base_eq_describeBase]
  rfl

theorem endsBlock_countUp : (Opcode.base 0x3C).endsBlock = false := by
  rw [Opcode.base_eq_describeBase]
  rfl

theorem cut?_countUp (address : Word) (rest : List Byte) :
    Decoded.cut? address (0x3C :: rest) = some (⟨address, Opcode.base 0x3C, false⟩, rest) := by
  rw [Decoded.cut?_eq_some_iff, length_countUp]
  exact ⟨rfl, Nat.le_add_left _ _, rfl⟩

theorem encodes_jumpBack (address : Word) :
    Encodes address [0x20, 0xFD] [⟨address, Opcode.base 0x20, false⟩] := by
  have hlength : (Opcode.base 0x20).length = 2 := by
    rw [Opcode.base_eq_describeBase]
    rfl
  have hends : (Opcode.base 0x20).endsBlock = true := by
    rw [Opcode.base_eq_describeBase]
    rfl
  refine .last ?_ hends
  rw [Decoded.cut?_eq_some_iff, hlength]
  exact ⟨rfl, Nat.le_refl _, rfl⟩

theorem decode_loopAcrossEnd : decode 0xFFFF [0x3C, 0x20, 0xFD] = .ok loopAcrossEnd := by
  have htail : Encodes (0xFFFF + BitVec.ofNat 16 (Opcode.base 0x3C).length) [0x20, 0xFD]
      [⟨0x0000, Opcode.base 0x20, false⟩] := by
    rw [length_countUp]
    exact encodes_jumpBack 0x0000
  exact decode_eq_ok_iff.mpr ⟨List.cons_ne_nil _ _, rfl, rfl,
    .cons (cut?_countUp _ _) endsBlock_countUp htail⟩

/-- A machine about to count to zero, with nothing of the loop in its memory. -/
def aboutToOverflow : Machine := Machine.setByte {} .a 0xFF

theorem execute_compile_takes_declared_aboutToOverflow :
    decode 0xFFFF [0x3C, 0x20, 0xFD] = .ok loopAcrossEnd ∧
      (loopAcrossEnd.compile.execute aboutToOverflow).clock = 3 ∧
      (loopAcrossEnd.compile.execute aboutToOverflow).word .pc = 3 := by
  obtain ⟨last, hlast, -, hclock, hpc⟩ :=
    execute_compile_takes_declared decode_loopAcrossEnd aboutToOverflow
  have hback : last = ⟨0x0000, Opcode.base 0x20, false⟩ := (Option.some.inj hlast).symm
  have hskips : last.skips (loopAcrossEnd.beforeLast aboutToOverflow) = true := by
    simp only [hback, loopAcrossEnd, beforeLast, Opcode.base_eq_describeBase]
    decide
  refine ⟨decode_loopAcrossEnd, ?_, hpc (.inr hskips)⟩
  rw [hclock, if_pos hskips, hback]
  simp only [loopAcrossEnd, cycles, Opcode.base_eq_describeBase]
  rfl

end Block

end Sm83

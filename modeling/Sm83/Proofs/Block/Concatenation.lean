import Sm83.Proofs.Block.Cost
import Sm83.Proofs.Block.Execution

/-!
# Blocks one behind the other

Where a block leaves off without an instruction that ends it, decoding goes on as if it began there:
what follows is accepted or refused as it would be by itself, and a defect is found at the same
address (`Block.decode_append`). Nothing but the machine is handed on from one instruction to the
next, so the joint block does what its parts do one after the other. The other way round, a block may
be cut off behind any of its instructions (`Block.Encodes.take`).
-/

namespace Sm83

namespace Block

/-! ### More bytes behind an instruction -/

/-- Whether an instruction is complete depends on its own bytes only. -/
theorem instructionAt_append_iff {front rest : List Byte} {offset : Nat} {opcode : Opcode}
    {prefixed : Bool} (hroom : offset + opcode.length ≤ front.length) :
    InstructionAt (front ++ rest) offset opcode prefixed ↔
      InstructionAt front offset opcode prefixed := by
  constructor
  · intro hinstruction
    cases hinstruction with
    | base hfirst hplain =>
      have hpos := (Opcode.isEntry_base ‹Byte›).length_pos
      rw [List.getElem?_append_left (by omega)] at hfirst
      exact .base hfirst hplain hroom
    | extended hfirst hsecond =>
      rw [Opcode.length_extended] at hroom
      rw [List.getElem?_append_left (by omega)] at hfirst hsecond
      exact .extended hfirst hsecond
  · intro hinstruction
    cases hinstruction with
    | base hfirst hplain =>
      have hpos := (Opcode.isEntry_base ‹Byte›).length_pos
      refine .base ?_ hplain ?_
      · rw [List.getElem?_append_left (by omega)]
        exact hfirst
      · rw [List.length_append]
        omega
    | extended hfirst hsecond =>
      rw [Opcode.length_extended] at hroom
      refine .extended ?_ ?_
      · rw [List.getElem?_append_left (by omega)]
        exact hfirst
      · rw [List.getElem?_append_left (by omega)]
        exact hsecond

end Block

/-- The same instruction is cut off where more bytes follow, and they are left over as well. -/
theorem Decoded.cut?_append_iff {address : Word} {front left rest : List Byte} {decoded : Decoded} :
    cut? address (front ++ rest) = some (decoded, left ++ rest) ↔
      cut? address front = some (decoded, left) := by
  constructor
  · intro hcut
    obtain ⟨hinstruction, rfl, hleft⟩ := Block.instructionAt_of_cut? hcut
    have hlength := congrArg List.length hleft
    have hroom := hinstruction.length_le
    simp only [List.length_append, List.length_drop] at hlength hroom
    rw [List.drop_append_of_le_length (by omega)] at hleft
    rw [List.append_cancel_right hleft]
    rw [Block.instructionAt_append_iff (by omega)] at hinstruction
    exact hinstruction.cut?_eq_some decoded.address
  · intro hcut
    obtain ⟨hinstruction, rfl, rfl⟩ := Block.instructionAt_of_cut? hcut
    have hroom := hinstruction.length_le
    rw [← List.drop_append_of_le_length (by omega)]
    exact ((Block.instructionAt_append_iff hroom).mpr hinstruction).cut?_eq_some decoded.address

theorem Decoded.cut?_take {address : Word} {bytes left : List Byte} {decoded : Decoded}
    (hcut : cut? address bytes = some (decoded, left)) (kept : Nat) :
    cut? address (bytes.take (decoded.opcode.length + kept)) = some (decoded, left.take kept) := by
  have hbytes : bytes.take (decoded.opcode.length + kept) ++ left.drop kept = bytes := by
    rw [← drop_of_cut? hcut, List.drop_drop, List.take_append_drop]
  have hboth : cut? address (bytes.take (decoded.opcode.length + kept) ++ left.drop kept) =
      some (decoded, left.take kept ++ left.drop kept) := by
    rw [hbytes, List.take_append_drop]
    exact hcut
  exact cut?_append_iff.mp hboth

namespace Block

variable {address start : Word} {bytes front rest : List Byte} {instructions : List Decoded}

/-! ### Decoding goes on behind a block -/

/-- What was cut off earlier is kept in front of what decoding adds. -/
theorem decodeFrom_append_done (address : Word) (bytes : List Byte) (done earlier : List Decoded) :
    decodeFrom address bytes (done ++ earlier) =
      (decodeFrom address bytes done).map (earlier.reverse ++ ·) := by
  fun_induction decodeFrom address bytes done with
  | case1 address bytes done hempty =>
    rw [List.isEmpty_iff.mp hempty, decodeFrom_nil, List.reverse_append]
    rfl
  | case2 address bytes done hbytes hnone =>
    rw [decodeFrom_of_cut?_eq_none (mt List.isEmpty_iff.mpr hbytes) hnone]
    rfl
  | case3 address bytes done hbytes decoded rest hcut hends hempty =>
    rw [decodeFrom_of_cut? hcut, if_pos hends, if_pos hempty, ← List.cons_append,
      List.reverse_append]
    rfl
  | case4 address bytes done hbytes decoded rest hcut next hends hmore =>
    rw [decodeFrom_of_cut? hcut, if_pos hends, if_neg hmore]
    rfl
  | case5 address bytes done hbytes decoded rest hcut next hgoes ih =>
    rw [decodeFrom_of_cut? hcut, if_neg hgoes]
    exact ih

/-- Behind instructions none of which ends a block decoding goes on with what is left. -/
theorem Encodes.decodeFrom_append (hencodes : Encodes address front instructions)
    (hopen : ¬ Decoded.Terminated instructions) (rest : List Byte) (done : List Decoded) :
    decodeFrom address (front ++ rest) done =
      decodeFrom (address + BitVec.ofNat 16 front.length) rest (instructions.reverse ++ done) := by
  induction hencodes generalizing done with
  | nil => simp
  | last _ hends => exact absurd (Decoded.terminated_singleton.mpr hends) hopen
  | @cons address front left decoded instructions hcut hgoes tail ih =>
    have hlength := (Encodes.cons hcut hgoes tail).span_eq
    rw [Decoded.span, tail.span_eq] at hlength
    have htail : ¬ Decoded.Terminated instructions :=
      fun hterminated => hopen (hterminated.cons decoded)
    rw [decodeFrom_of_cut? (Decoded.cut?_append_iff.mpr hcut), hgoes, if_neg Bool.false_ne_true,
      ih htail, ← hlength, BitVec.ofNat_add, BitVec.add_assoc, List.reverse_cons,
      List.append_assoc, List.singleton_append]

/-- The block and another one right behind it. -/
def append (block next : Block) : Block where
  start := block.start
  bytes := block.bytes ++ next.bytes
  instructions := block.instructions ++ next.instructions

theorem decode_append {block : Block} (hdecode : decode start front = .ok block)
    (hopen : ¬ Decoded.Terminated block.instructions) (hrest : rest ≠ []) :
    decode start (front ++ rest) =
      (decode (start + BitVec.ofNat 16 front.length) rest).map block.append := by
  obtain ⟨hfront, hstart, hbytes, hencodes⟩ := decode_eq_ok_iff.mp hdecode
  have hboth : ¬ (front ++ rest).isEmpty = true := by simp [hfront]
  have hmore : ¬ rest.isEmpty = true := mt List.isEmpty_iff.mp hrest
  have hfrom := decodeFrom_append_done (start + BitVec.ofNat 16 front.length) rest []
    block.instructions.reverse
  rw [List.nil_append, List.reverse_reverse] at hfrom
  rw [decode, decode, if_neg hboth, if_neg hmore, hencodes.decodeFrom_append hopen,
    List.append_nil, hfrom]
  cases decodeFrom (start + BitVec.ofNat 16 front.length) rest [] with
  | error error => rfl
  | ok all =>
    simp only [Except.map, append, hstart, hbytes]

theorem cycles_append (block next : Block) :
    (block.append next).cycles = block.cycles + next.cycles := by
  simp only [cycles_eq_totalCycles, append, Decoded.totalCycles_append]

theorem execute_compile_append (block next : Block) (machine : Machine) :
    (block.append next).compile.execute machine =
      next.compile.execute (block.compile.execute machine) := by
  simp only [compile, append, Routine.execute, List.map_append, List.foldl_append]

theorem events_compile_append (block next : Block) (machine : Machine) (log : Array Event) :
    (block.append next).compile.events machine log =
      next.compile.events (block.compile.execute machine) (block.compile.events machine log) := by
  have hfirst := Routine.fst_foldl_events block.compile.steps machine log
  simp only [compile, append, Routine.events, List.map_append, List.foldl_append] at hfirst ⊢
  rw [← hfirst]

/-! ### Cutting a block off -/

/-- The first instructions are encoded by the first bytes. -/
theorem Encodes.take (hencodes : Encodes address bytes instructions) (count : Nat) :
    Encodes address (bytes.take (Decoded.span (instructions.take count)))
      (instructions.take count) := by
  induction hencodes generalizing count with
  | nil address => simpa using Encodes.nil address
  | @last address bytes decoded hcut hends =>
    cases count with
    | zero => exact .nil address
    | succ count =>
      have hlength := (Encodes.last hcut hends).span_eq
      rw [List.take_succ_cons, List.take_nil, hlength, List.take_length]
      exact .last hcut hends
  | @cons address bytes left decoded instructions hcut hgoes tail ih =>
    cases count with
    | zero => exact .nil address
    | succ count =>
      rw [List.take_succ_cons, Decoded.span]
      exact .cons (Decoded.cut?_take hcut _) hgoes (ih count)

theorem decode_take {block : Block} (hdecode : decode start (front ++ rest) = .ok block)
    (hfront : front ≠ []) {count : Nat} (hlength : front.length = block.offset count) :
    decode start front = .ok ⟨start, front, block.instructions.take count⟩ := by
  obtain ⟨-, -, -, hencodes⟩ := decode_eq_ok_iff.mp hdecode
  have htake := hencodes.take count
  rw [offset] at hlength
  rw [← hlength, List.take_left] at htake
  exact decode_eq_ok_iff.mpr ⟨hfront, rfl, rfl, htake⟩

/-- Blocks may be put together and taken apart at every boundary between instructions. What follows a
block that is open at its end decides alone whether both together are a block, or what is wrong with
them, and where; and every beginning of a block that ends with an instruction is a block. -/
theorem blocks_join_at_boundaries (start : Word) :
    (∀ front rest block, decode start front = .ok block →
        ¬ Decoded.Terminated block.instructions → rest ≠ [] →
        ((∃ joint, decode start (front ++ rest) = .ok joint) ↔
          ∃ next, decode (start + BitVec.ofNat 16 front.length) rest = .ok next) ∧
        (∀ error, decode start (front ++ rest) = .error error ↔
          decode (start + BitVec.ofNat 16 front.length) rest = .error error) ∧
        ∀ next, decode (start + BitVec.ofNat 16 front.length) rest = .ok next →
          ∃ joint, decode start (front ++ rest) = .ok joint ∧
            joint.instructions = block.instructions ++ next.instructions ∧
            joint.cycles = block.cycles + next.cycles ∧
            ∀ machine log,
              joint.compile.execute machine =
                next.compile.execute (block.compile.execute machine) ∧
              joint.compile.events machine log =
                next.compile.events (block.compile.execute machine)
                  (block.compile.events machine log)) ∧
      ∀ front rest joint count, decode start (front ++ rest) = .ok joint → front ≠ [] →
        front.length = joint.offset count →
        ∃ block, decode start front = .ok block ∧
          block.instructions = joint.instructions.take count := by
  constructor
  · intro front rest block hdecode hopen hrest
    rw [decode_append hdecode hopen hrest]
    cases decode (start + BitVec.ofNat 16 front.length) rest with
    | error error =>
      refine ⟨?_, ?_, ?_⟩
      · simp [Except.map]
      · simp [Except.map]
      · intro next hnext
        cases hnext
    | ok next =>
      refine ⟨⟨fun _ => ⟨next, rfl⟩, fun _ => ⟨block.append next, rfl⟩⟩, ?_, ?_⟩
      · simp [Except.map]
      · intro other hother
        cases hother
        exact ⟨block.append next, rfl, rfl, cycles_append block next, fun machine log =>
          ⟨execute_compile_append block next machine, events_compile_append block next machine log⟩⟩
  · intro front rest joint count hdecode hfront hlength
    exact ⟨_, decode_take hdecode hfront hlength, rfl⟩

/-- The loop across the end of memory without the jump at its end. -/
def countUpAtEnd : Block where
  start := 0xFFFF
  bytes := [0x3C]
  instructions := [⟨0xFFFF, Opcode.base 0x3C, false⟩]

theorem blocks_join_at_boundaries_loopAcrossEnd :
    decode 0xFFFF [0x3C] = .ok countUpAtEnd ∧
      ¬ Decoded.Terminated countUpAtEnd.instructions ∧
      (∃ joint, decode 0xFFFF ([0x3C] ++ [0x20, 0xFD]) = .ok joint ∧
        joint.instructions =
          countUpAtEnd.instructions ++ [⟨0x0000, Opcode.base 0x20, false⟩]) ∧
      ([0x3C] : List Byte).length = loopAcrossEnd.offset 1 ∧
      ∃ block, decode 0xFFFF [0x3C] = .ok block ∧
        block.instructions = loopAcrossEnd.instructions.take 1 := by
  have hdecode : decode 0xFFFF [0x3C] = .ok countUpAtEnd :=
    decode_eq_ok_iff.mpr ⟨List.cons_ne_nil _ _, rfl, rfl,
      .cons (cut?_countUp _ []) endsBlock_countUp (.nil _)⟩
  have hopen : ¬ Decoded.Terminated countUpAtEnd.instructions := by
    intro hterminated
    have hends := endsBlock_countUp.symm.trans (Decoded.terminated_singleton.mp hterminated)
    cases hends
  have hnext : decode (0xFFFF + BitVec.ofNat 16 ([0x3C] : List Byte).length) [0x20, 0xFD] =
      .ok ⟨0x0000, [0x20, 0xFD], [⟨0x0000, Opcode.base 0x20, false⟩]⟩ :=
    decode_eq_ok_iff.mpr ⟨List.cons_ne_nil _ _, rfl, rfl, encodes_jumpBack 0x0000⟩
  have hlength : ([0x3C] : List Byte).length = loopAcrossEnd.offset 1 := by
    simp only [loopAcrossEnd, offset, List.take_succ_cons, List.take_zero, Decoded.span,
      length_countUp, List.length_singleton]
  obtain ⟨hjoins, hcuts⟩ := blocks_join_at_boundaries 0xFFFF
  obtain ⟨joint, hjoint, hinstructions, -⟩ :=
    (hjoins _ [0x20, 0xFD] _ hdecode hopen (List.cons_ne_nil _ _)).2.2 _ hnext
  exact ⟨hdecode, hopen, ⟨joint, hjoint, hinstructions⟩, hlength,
    hcuts [0x3C] [0x20, 0xFD] loopAcrossEnd 1 decode_loopAcrossEnd (List.cons_ne_nil _ _) hlength⟩

end Block

end Sm83

import Sm83.Proofs.Block.Discovery
import Sm83.Proofs.Block.Grammar

/-!
# Discovery finds the block that is there

Bytes are accepted as a block without a look at memory, and memory is scanned without knowing where
the block is going to end; still both cut the same instructions. What a scan returns is always
accepted, and it goes on to the first instruction that ends a block or to as many instructions as a
block may have. An accepted block that goes on just as far is what a scan finds where its bytes are
written.
-/

namespace Sm83

namespace Block

theorem InstructionAt.opcode_length_le {bytes : List Byte} {offset : Nat} {opcode : Opcode}
    {prefixed : Bool} (hinstruction : InstructionAt bytes offset opcode prefixed) :
    opcode.length ≤ 3 := by
  cases hinstruction with
  | base => exact (Opcode.isEntry_base _).length_le
  | extended =>
    rw [Opcode.length_extended]
    omega

namespace Encodes

variable {address : Word} {bytes : List Byte} {instructions : List Decoded}
  (hencodes : Encodes address bytes instructions)

include hencodes

theorem length_le : bytes.length ≤ 3 * instructions.length := by
  rw [← hencodes.span_eq]
  induction hencodes with
  | nil => exact Nat.le_refl _
  | last hcut =>
    have hopcode := (instructionAt_of_cut? hcut).1.opcode_length_le
    rw [Decoded.span, Decoded.span, List.length_singleton]
    omega
  | cons hcut _ _ ih =>
    have hopcode := (instructionAt_of_cut? hcut).1.opcode_length_le
    rw [Decoded.span, List.length_cons]
    omega

/-- Where the bytes of a block are in memory, a scan that is to stop behind its instructions returns
them. -/
theorem scan_eq {memory : Memory} {limit : Nat} (hholds : memory.holds address bytes = true)
    (hstops : Decoded.StopsAt limit instructions) : scan memory address limit = bytes := by
  induction hencodes generalizing limit with
  | nil =>
    obtain ⟨-, hlimit | ⟨last, hlast, -⟩⟩ := hstops
    · rw [← hlimit]
      rfl
    · cases hlast
  | @last address bytes decoded hcut hends =>
    have hopcode := (Decoded.inMemory_of_cut? hcut (Decoded.holds_leadingBytes hholds)).1
    have hlength := (last hcut hends).span_eq
    rw [Decoded.span, Decoded.span, Nat.add_zero] at hlength
    cases limit with
    | zero => cases hstops.1
    | succ limit =>
      rw [scan_succ, hopcode, if_pos hends, List.append_nil, hlength]
      exact (memory.holds_iff address bytes).mp hholds
  | @cons address bytes rest decoded instructions hcut hgoes tail ih =>
    obtain ⟨limit, rfl, hrest⟩ := hstops.exists_tail hgoes
    have hopcode := (Decoded.inMemory_of_cut? hcut (Decoded.holds_leadingBytes hholds)).1
    have hroom : decoded.opcode.length ≤ bytes.length := by
      have hle := (instructionAt_of_cut? hcut).1.length_le
      omega
    have hdrop := Decoded.drop_of_cut? hcut
    have htail := Memory.holds_drop hholds hroom
    rw [hdrop] at htail
    rw [scan_succ, hopcode, hgoes, if_neg Bool.false_ne_true, ih htail hrest,
      Memory.window_eq_take hholds hroom, ← hdrop, List.take_append_drop]

end Encodes

/-- Discovery always finds a block, which is in memory at its start and goes on for as long as it
may; and it finds every block that goes on for as long as it may where its bytes are written. -/
theorem discover_finds_block (memory : Memory) (start : Word) :
    (∃ block, discover memory start = .ok block ∧ block.start = start ∧
      1 ≤ block.instructions.length ∧ block.bytes.length ≤ 192 ∧
      memory.holds start block.bytes = true ∧
      (∀ index (hindex : index + 1 < block.instructions.length),
        block.instructions[index].opcode.endsBlock = false) ∧
      Decoded.StopsAt maxInstructions block.instructions) ∧
    ∀ bytes block, decode start bytes = .ok block →
      Decoded.StopsAt maxInstructions block.instructions →
      discover (memory.writeAll start bytes) start = .ok block := by
  constructor
  · obtain ⟨block, hdiscover⟩ := exists_discover_eq_ok memory start
    have hstops := stopsAt_of_discover hdiscover
    obtain ⟨hbytes, hstart, -, hencodes⟩ := decode_eq_ok_iff.mp (decode_of_discover hdiscover)
    have hlength := hencodes.length_le
    have hlimit : block.instructions.length ≤ 64 := hstops.1
    exact ⟨block, hdiscover, hstart, List.length_pos_iff.mpr (hencodes.ne_nil hbytes), by omega,
      holds_of_discover hdiscover, hencodes.splitsInto.goesOn, hstops⟩
  · intro bytes block hdecode hstops
    obtain ⟨-, -, -, hencodes⟩ := decode_eq_ok_iff.mp hdecode
    have hlength := hencodes.length_le
    have hlimit : block.instructions.length ≤ 64 := hstops.1
    have hfits : bytes.length ≤ addressSpaceSize := by
      rw [addressSpaceSize]
      omega
    rw [discover, hencodes.scan_eq (Memory.holds_writeAll hfits memory start) hstops]
    exact hdecode

/-- A jump whose operand lies at the other end of the address space. -/
def jumpAcrossEnd : Block where
  start := 0xFFFE
  bytes := [0xC3, 0x00, 0x01]
  instructions := [⟨0xFFFE, Opcode.base 0xC3, false⟩]

theorem discover_finds_jumpAcrossEnd :
    decode 0xFFFE [0xC3, 0x00, 0x01] = .ok jumpAcrossEnd ∧
      Decoded.StopsAt maxInstructions jumpAcrossEnd.instructions ∧
      discover (Memory.zero.writeAll 0xFFFE [0xC3, 0x00, 0x01]) 0xFFFE = .ok jumpAcrossEnd := by
  have hlength : (Opcode.base 0xC3).length = 3 := by
    rw [Opcode.base_eq_describeBase]
    rfl
  have hends : (Opcode.base 0xC3).endsBlock = true := by
    rw [Opcode.base_eq_describeBase]
    rfl
  have hcut : Decoded.cut? 0xFFFE [0xC3, 0x00, 0x01] =
      some (⟨0xFFFE, Opcode.base 0xC3, false⟩, []) := by
    rw [Decoded.cut?_eq_some_iff, hlength]
    exact ⟨rfl, Nat.le_refl _, rfl⟩
  have hdecode : decode 0xFFFE [0xC3, 0x00, 0x01] = .ok jumpAcrossEnd :=
    decode_eq_ok_iff.mpr ⟨List.cons_ne_nil _ _, rfl, rfl, .last hcut hends⟩
  have hstops : Decoded.StopsAt maxInstructions jumpAcrossEnd.instructions :=
    ⟨by decide, .inr (Decoded.terminated_singleton.mpr hends)⟩
  exact ⟨hdecode, hstops, (discover_finds_block Memory.zero 0xFFFE).2 _ _ hdecode hstops⟩

end Block

end Sm83

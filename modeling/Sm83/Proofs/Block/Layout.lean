import Sm83.Proofs.Memory
import Sm83.Proofs.Opcode

/-!
# How a block lies in its bytes

`Block.Encodes` is the grammar of basic blocks as a relation between bytes and instructions, and
decoding accepts exactly what it relates (`Block.decode_eq_ok_iff`). For a block that was accepted,
every instruction is cut off the bytes at its offset, and only the last may end the block. What tells
an instruction, its opcode and a prefix before it, are the first bytes at its offset.
-/

namespace Sm83

theorem dropExactly?_eq_some_iff {α : Type} {count : Nat} {elements rest : List α} :
    dropExactly? count elements = some rest ↔
      count ≤ elements.length ∧ elements.drop count = rest := by
  induction count generalizing elements with
  | zero => simp [dropExactly?]
  | succ count ih =>
    cases elements with
    | nil => simp [dropExactly?]
    | cons _ elements => simp [dropExactly?, ih]

namespace Opcode

theorem length_extended (second : Byte) : (extended second).length = 2 := by
  rw [extended_eq_describeExtended]
  rfl

end Opcode

namespace Decoded

/-- The instruction that bytes starting with `first` and going on with `second` encode. -/
def ofBytes (address : Word) (first second : Byte) : Decoded :=
  if first = Opcode.extensionPrefix then ⟨address, Opcode.extended second, true⟩
  else ⟨address, Opcode.base first, false⟩

/-- The bytes that tell the first of the instructions encoded: its opcode with the prefix. -/
def leadingBytes : List Byte → List Byte
  | [] => []
  | first :: rest => first :: rest.take (Opcode.leadBytes first - 1)

theorem cut?_eq_some_iff {address : Word} {first : Byte} {tail rest : List Byte}
    {decoded : Decoded} :
    cut? address (first :: tail) = some (decoded, rest) ↔
      decoded = ofBytes address first (tail.headD 0) ∧
        decoded.opcode.length ≤ tail.length + 1 ∧
        (first :: tail).drop decoded.opcode.length = rest := by
  simp only [cut?, ofBytes]
  split
  · cases tail with
    | nil =>
      constructor
      · intro hcut
        cases hcut
      · rintro ⟨rfl, hlength, -⟩
        rw [Opcode.length_extended] at hlength
        simp at hlength
    | cons second tail =>
      constructor
      · intro hcut
        cases hcut
        refine ⟨rfl, ?_, ?_⟩ <;> simp [Opcode.length_extended]
      · rintro ⟨rfl, -, rfl⟩
        simp [Opcode.length_extended]
  · have hpos := (Opcode.isEntry_base first).length_pos
    have hdrop : (first :: tail).drop (Opcode.base first).length =
        tail.drop ((Opcode.base first).length - 1) := by
      obtain ⟨count, hcount⟩ := Nat.exists_eq_add_of_lt hpos
      rw [hcount]
      simp
    simp only [Option.map_eq_some_iff, dropExactly?_eq_some_iff, Prod.mk.injEq]
    constructor
    · rintro ⟨dropped, ⟨hlength, rfl⟩, rfl, rfl⟩
      exact ⟨rfl, by simp only; omega, hdrop⟩
    · rintro ⟨rfl, hlength, rfl⟩
      simp only at hlength
      exact ⟨_, ⟨by omega, hdrop.symm⟩, rfl, rfl⟩

/-- With all of the bytes, those that tell the first instruction are in memory. -/
theorem holds_leadingBytes {memory : Memory} {address : Word} {bytes : List Byte}
    (hholds : memory.holds address bytes = true) :
    memory.holds address (leadingBytes bytes) = true := by
  cases bytes with
  | nil => rfl
  | cons first tail =>
    have htake := Memory.holds_take hholds (Opcode.leadBytes first - 1 + 1)
    rw [List.take_succ_cons] at htake
    exact htake

/-- Where the bytes that tell an instruction are in memory, it is the instruction there. -/
theorem inMemory_of_cut? {memory : Memory} {address : Word} {bytes rest : List Byte}
    {decoded : Decoded} (hcut : cut? address bytes = some (decoded, rest))
    (hlead : memory.holds address (leadingBytes bytes) = true) :
    Opcode.inMemory memory address = decoded.opcode ∧
      decoded.prefixed = decide (memory.get address = Opcode.extensionPrefix) := by
  cases bytes with
  | nil => cases hcut
  | cons first tail =>
    obtain ⟨hdecoded, hlength, -⟩ := cut?_eq_some_iff.mp hcut
    have hfirst : memory.get address = first := by
      have hboth := Bool.and_eq_true_iff.mp hlead
      exact beq_iff_eq.mp hboth.1
    rw [Opcode.inMemory, hfirst]
    by_cases hextends : first = Opcode.extensionPrefix
    · rw [ofBytes, if_pos hextends] at hdecoded
      cases tail with
      | nil =>
        rw [hdecoded, Opcode.length_extended] at hlength
        simp at hlength
      | cons second tail =>
        have hsecond : memory.get (address + 1) = second := by
          simp only [leadingBytes, Opcode.leadBytes, if_pos hextends, Memory.holds,
            Nat.add_one_sub_one, List.take_succ_cons, Bool.and_eq_true, beq_iff_eq] at hlead
          exact hlead.2.1
        rw [hdecoded, if_pos hextends, hsecond, decide_eq_true hextends]
        exact ⟨rfl, rfl⟩
    · rw [ofBytes, if_neg hextends] at hdecoded
      rw [hdecoded, if_neg hextends, decide_eq_false hextends]
      exact ⟨rfl, rfl⟩

theorem drop_of_cut? {address : Word} {bytes rest : List Byte} {decoded : Decoded}
    (hcut : cut? address bytes = some (decoded, rest)) :
    bytes.drop decoded.opcode.length = rest := by
  cases bytes with
  | nil => cases hcut
  | cons first tail => exact (cut?_eq_some_iff.mp hcut).2.2

/-- The bytes that instructions occupy one after the other. -/
def span : List Decoded → Nat
  | [] => 0
  | decoded :: instructions => decoded.opcode.length + span instructions

theorem span_append (left right : List Decoded) : span (left ++ right) = span left + span right := by
  induction left with
  | nil => rw [List.nil_append, span, Nat.zero_add]
  | cons decoded left ih => rw [List.cons_append, span, span, ih, Nat.add_assoc]

theorem span_take_succ {instructions : List Decoded} {index : Nat}
    (hindex : index < instructions.length) :
    span (instructions.take (index + 1)) =
      span (instructions.take index) + instructions[index].opcode.length := by
  rw [List.take_succ_eq_append_getElem hindex, span_append, span, span, Nat.add_zero]

end Decoded

namespace Block

/-- The bytes from `address` on are these instructions, and none but the last of them ends a
block. -/
inductive Encodes : Word → List Byte → List Decoded → Prop
  | nil (address : Word) : Encodes address [] []
  | last {address : Word} {bytes : List Byte} {decoded : Decoded}
      (hcut : Decoded.cut? address bytes = some (decoded, []))
      (hends : decoded.opcode.endsBlock = true) : Encodes address bytes [decoded]
  | cons {address : Word} {bytes rest : List Byte} {decoded : Decoded}
      {instructions : List Decoded} (hcut : Decoded.cut? address bytes = some (decoded, rest))
      (hgoes : decoded.opcode.endsBlock = false)
      (tail : Encodes (address + BitVec.ofNat 16 decoded.opcode.length) rest instructions) :
      Encodes address bytes (decoded :: instructions)

theorem decodeFrom_eq_ok_iff {address : Word} {bytes : List Byte} {done all : List Decoded} :
    decodeFrom address bytes done = .ok all ↔
      ∃ instructions, Encodes address bytes instructions ∧ all = done.reverse ++ instructions := by
  fun_induction decodeFrom address bytes done with
  | case1 address bytes done hempty =>
    rw [List.isEmpty_iff.mp hempty]
    constructor
    · intro hok
      cases hok
      exact ⟨[], .nil address, (List.append_nil _).symm⟩
    · rintro ⟨instructions, hencodes, rfl⟩
      cases hencodes with
      | nil => rw [List.append_nil]
      | last hcut | cons hcut => cases hcut
  | case2 address bytes done hbytes hnone =>
    constructor
    · intro hok
      cases hok
    · rintro ⟨instructions, hencodes, -⟩
      cases hencodes with
      | nil => exact absurd rfl hbytes
      | last hcut | cons hcut =>
        rw [hnone] at hcut
        cases hcut
  | case3 address bytes done hbytes decoded rest hfirst hends hempty =>
    rw [List.isEmpty_iff.mp hempty] at hfirst
    constructor
    · intro hok
      cases hok
      exact ⟨[decoded], .last hfirst hends, List.reverse_cons⟩
    · rintro ⟨instructions, hencodes, rfl⟩
      cases hencodes with
      | nil => exact absurd rfl hbytes
      | last hcut =>
        cases hfirst.symm.trans hcut
        rw [List.reverse_cons]
      | cons hcut hgoes =>
        cases hfirst.symm.trans hcut
        rw [hends] at hgoes
        cases hgoes
  | case4 address bytes done hbytes decoded rest hfirst next hends hrest =>
    constructor
    · intro hok
      cases hok
    · rintro ⟨instructions, hencodes, -⟩
      cases hencodes with
      | nil => exact absurd rfl hbytes
      | last hcut =>
        cases hfirst.symm.trans hcut
        exact absurd rfl hrest
      | cons hcut hgoes =>
        cases hfirst.symm.trans hcut
        rw [hends] at hgoes
        cases hgoes
  | case5 address bytes done hbytes decoded rest hfirst next hgoes ih =>
    rw [Bool.not_eq_true] at hgoes
    rw [ih]
    constructor
    · rintro ⟨instructions, hencodes, rfl⟩
      refine ⟨decoded :: instructions, .cons hfirst hgoes hencodes, ?_⟩
      rw [List.reverse_cons, List.append_assoc, List.singleton_append]
    · rintro ⟨instructions, hencodes, rfl⟩
      cases hencodes with
      | nil => exact absurd rfl hbytes
      | last hcut hends =>
        cases hfirst.symm.trans hcut
        rw [hends] at hgoes
        cases hgoes
      | cons hcut _ tail =>
        cases hfirst.symm.trans hcut
        refine ⟨_, tail, ?_⟩
        rw [List.reverse_cons, List.append_assoc, List.singleton_append]

/-- Decoding accepts exactly the bytes of a block, and returns that block. -/
theorem decode_eq_ok_iff {start : Word} {bytes : List Byte} {block : Block} :
    decode start bytes = .ok block ↔
      bytes ≠ [] ∧ block.start = start ∧ block.bytes = bytes ∧
        Encodes start bytes block.instructions := by
  rw [decode]
  split
  · next hempty =>
    constructor
    · intro hok
      cases hok
    · rintro ⟨hbytes, -⟩
      exact absurd (List.isEmpty_iff.mp hempty) hbytes
  · next hbytes =>
    rw [List.isEmpty_iff] at hbytes
    constructor
    · intro hok
      cases hall : decodeFrom start bytes [] with
      | error error =>
        rw [hall] at hok
        cases hok
      | ok all =>
        rw [hall] at hok
        cases hok
        obtain ⟨instructions, hencodes, rfl⟩ := decodeFrom_eq_ok_iff.mp hall
        exact ⟨hbytes, rfl, rfl, hencodes⟩
    · rintro ⟨-, rfl, rfl, hencodes⟩
      rw [decodeFrom_eq_ok_iff.mpr ⟨_, hencodes, rfl⟩]
      rfl

/-- Where the numbered instruction begins in the bytes. -/
def offset (block : Block) (index : Nat) : Nat := Decoded.span (block.instructions.take index)

theorem Encodes.ne_nil {address : Word} {bytes : List Byte} {instructions : List Decoded}
    (hencodes : Encodes address bytes instructions) (hbytes : bytes ≠ []) : instructions ≠ [] := by
  cases hencodes with
  | nil => exact absurd rfl hbytes
  | last | cons => exact List.cons_ne_nil _ _

/-- Each instruction is cut off the bytes at its place, and only the last one can end the block. -/
theorem Encodes.cut?_drop {address : Word} {bytes : List Byte} {instructions : List Decoded}
    (hencodes : Encodes address bytes instructions) {index : Nat}
    (hindex : index < instructions.length) :
    (∃ rest, Decoded.cut?
        (address + BitVec.ofNat 16 (Decoded.span (instructions.take index)))
        (bytes.drop (Decoded.span (instructions.take index))) = some (instructions[index], rest)) ∧
      (index + 1 < instructions.length → instructions[index].opcode.endsBlock = false) := by
  induction hencodes generalizing index with
  | nil => cases hindex
  | last hcut hends =>
    cases index with
    | zero => exact ⟨⟨_, by simpa [Decoded.span] using hcut⟩, fun hnext => absurd hnext (by simp)⟩
    | succ index => exact absurd hindex (by simp)
  | cons hcut hgoes tail ih =>
    cases index with
    | zero => exact ⟨⟨_, by simpa [Decoded.span] using hcut⟩, fun _ => hgoes⟩
    | succ index =>
      obtain ⟨hrest, hmore⟩ := ih (Nat.lt_of_succ_lt_succ hindex)
      rw [List.take_succ_cons, Decoded.span, BitVec.ofNat_add, ← BitVec.add_assoc,
        ← List.drop_drop, Decoded.drop_of_cut? hcut]
      exact ⟨hrest, fun hnext => hmore (Nat.lt_of_succ_lt_succ hnext)⟩

end Block

end Sm83

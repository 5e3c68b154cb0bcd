import Sm83.Proofs.Block.Layout

/-!
# The grammar of basic blocks and its defects

Bytes are cut into instructions from the front, each as long as its first byte says, up to the first
that ends a block. `Block.Boundary` holds of the places where this cutting arrives. From the last of
them one of four things can be seen: the bytes are used up, they end inside an instruction, they end
with an instruction that ends the block, or they go on after it (`Block.Boundary.exists_last`).
Decoding goes through the same places, so which of the four it is decides the outcome.
-/

namespace Sm83

/-- The bytes an instruction occupies, told by its first byte. -/
def Opcode.encodedLength (first : Byte) : Nat :=
  if first = extensionPrefix then 2 else (base first).length

namespace Block

/-- A complete instruction lies at the offset, with this opcode, with the prefix or without it. -/
inductive InstructionAt (bytes : List Byte) (offset : Nat) : Opcode → Bool → Prop
  | base {first : Byte} (hfirst : bytes[offset]? = some first)
      (hplain : first ≠ Opcode.extensionPrefix)
      (hroom : offset + (Opcode.base first).length ≤ bytes.length) :
      InstructionAt bytes offset (Opcode.base first) false
  | extended {second : Byte} (hfirst : bytes[offset]? = some Opcode.extensionPrefix)
      (hsecond : bytes[offset + 1]? = some second) :
      InstructionAt bytes offset (Opcode.extended second) true

/-- The bytes end inside the instruction at the offset. -/
def RunsOutAt (bytes : List Byte) (offset : Nat) : Prop :=
  ∃ first, bytes[offset]? = some first ∧ bytes.length < offset + Opcode.encodedLength first

/-- Complete instructions that do not end a block reach from the front to the offset. -/
inductive Boundary (bytes : List Byte) : Nat → Prop
  | front : Boundary bytes 0
  | next {offset : Nat} {opcode : Opcode} {prefixed : Bool} (hboundary : Boundary bytes offset)
      (hinstruction : InstructionAt bytes offset opcode prefixed)
      (hgoes : opcode.endsBlock = false) : Boundary bytes (offset + opcode.length)

/-- The first instruction that ends a block is complete at the offset. -/
def TerminatesAt (bytes : List Byte) (offset : Nat) : Prop :=
  ∃ place opcode prefixed, Boundary bytes place ∧ InstructionAt bytes place opcode prefixed ∧
    opcode.endsBlock = true ∧ offset = place + opcode.length

/-! ### Cutting at an offset -/

section Cutting

variable {bytes rest : List Byte} {offset : Nat} {opcode : Opcode} {prefixed : Bool}
  {address : Word} {decoded : Decoded}

theorem InstructionAt.length_le (hinstruction : InstructionAt bytes offset opcode prefixed) :
    offset + opcode.length ≤ bytes.length := by
  cases hinstruction with
  | base _ _ hroom => exact hroom
  | extended _ hsecond =>
    obtain ⟨hlt, -⟩ := List.getElem?_eq_some_iff.mp hsecond
    rw [Opcode.length_extended]
    omega

theorem InstructionAt.length_pos (hinstruction : InstructionAt bytes offset opcode prefixed) :
    0 < opcode.length := by
  cases hinstruction with
  | base => exact (Opcode.isEntry_base _).length_pos
  | extended =>
    rw [Opcode.length_extended]
    omega

theorem InstructionAt.not_runsOutAt (hinstruction : InstructionAt bytes offset opcode prefixed) :
    ¬ RunsOutAt bytes offset := by
  intro hrunsOut
  obtain ⟨first, hfirst, hends⟩ := hrunsOut
  have hroom := hinstruction.length_le
  cases hinstruction with
  | base hfirst' hplain =>
    cases hfirst.symm.trans hfirst'
    rw [Opcode.encodedLength, if_neg hplain] at hends
    omega
  | extended hfirst' =>
    cases hfirst.symm.trans hfirst'
    rw [Opcode.encodedLength, if_pos rfl] at hends
    rw [Opcode.length_extended] at hroom
    omega

theorem exists_instructionAt_or_runsOutAt (hoffset : offset < bytes.length) :
    (∃ opcode prefixed, InstructionAt bytes offset opcode prefixed) ∨ RunsOutAt bytes offset := by
  have hfirst : bytes[offset]? = some bytes[offset] := List.getElem?_eq_getElem hoffset
  by_cases hroom : offset + Opcode.encodedLength bytes[offset] ≤ bytes.length
  · left
    by_cases hextends : bytes[offset] = Opcode.extensionPrefix
    · rw [Opcode.encodedLength, if_pos hextends] at hroom
      rw [hextends] at hfirst
      have hsecond : bytes[offset + 1]? = some bytes[offset + 1] :=
        List.getElem?_eq_getElem (by omega)
      exact ⟨_, true, .extended hfirst hsecond⟩
    · rw [Opcode.encodedLength, if_neg hextends] at hroom
      exact ⟨_, false, .base hfirst hextends hroom⟩
  · exact .inr ⟨bytes[offset], hfirst, Nat.not_le.mp hroom⟩

theorem InstructionAt.drop {skipped : Nat}
    (hinstruction : InstructionAt bytes (skipped + offset) opcode prefixed) :
    InstructionAt (bytes.drop skipped) offset opcode prefixed := by
  cases hinstruction with
  | base hfirst hplain hroom =>
    refine .base ?_ hplain ?_
    · rw [List.getElem?_drop]
      exact hfirst
    · have hpos := (Opcode.isEntry_base ‹Byte›).length_pos
      rw [List.length_drop]
      omega
  | extended hfirst hsecond =>
    refine .extended ?_ ?_
    · rw [List.getElem?_drop]
      exact hfirst
    · rw [List.getElem?_drop]
      exact hsecond

theorem InstructionAt.of_drop {skipped : Nat}
    (hinstruction : InstructionAt (bytes.drop skipped) offset opcode prefixed) :
    InstructionAt bytes (skipped + offset) opcode prefixed := by
  cases hinstruction with
  | base hfirst hplain hroom =>
    have hpos := (Opcode.isEntry_base ‹Byte›).length_pos
    rw [List.getElem?_drop] at hfirst
    rw [List.length_drop] at hroom
    exact .base hfirst hplain (by omega)
  | extended hfirst hsecond =>
    rw [List.getElem?_drop] at hfirst hsecond
    exact .extended hfirst hsecond

/-- What is cut off the front is the complete instruction there. -/
theorem instructionAt_of_cut? (hcut : Decoded.cut? address bytes = some (decoded, rest)) :
    InstructionAt bytes 0 decoded.opcode decoded.prefixed ∧ decoded.address = address ∧
      rest = bytes.drop decoded.opcode.length := by
  cases bytes with
  | nil => cases hcut
  | cons first tail =>
    obtain ⟨rfl, hroom, hrest⟩ := Decoded.cut?_eq_some_iff.mp hcut
    refine ⟨?_, ?_, hrest.symm⟩
    · by_cases hextends : first = Opcode.extensionPrefix
      · rw [Decoded.ofBytes, if_pos hextends] at hroom ⊢
        cases tail with
        | nil =>
          rw [Opcode.length_extended] at hroom
          simp at hroom
        | cons second tail => exact .extended (congrArg some hextends) rfl
      · rw [Decoded.ofBytes, if_neg hextends] at hroom ⊢
        exact .base rfl hextends (by simpa using hroom)
    · rw [Decoded.ofBytes]
      split <;> rfl

theorem InstructionAt.cut?_eq_some (hinstruction : InstructionAt bytes 0 opcode prefixed)
    (address : Word) :
    Decoded.cut? address bytes =
      some (⟨address, opcode, prefixed⟩, bytes.drop opcode.length) := by
  have hroom := hinstruction.length_le
  cases bytes with
  | nil =>
    have hpos := hinstruction.length_pos
    rw [List.length_nil] at hroom
    omega
  | cons first tail =>
    rw [List.length_cons] at hroom
    refine Decoded.cut?_eq_some_iff.mpr ⟨?_, by simp only; omega, rfl⟩
    cases hinstruction with
    | base hfirst hplain =>
      cases hfirst
      rw [Decoded.ofBytes, if_neg hplain]
    | extended hfirst hsecond =>
      cases hfirst
      cases tail with
      | nil => cases hsecond
      | cons second tail =>
        cases hsecond
        rw [Decoded.ofBytes, if_pos rfl, List.headD_cons]

theorem cut?_drop_of_instructionAt (hinstruction : InstructionAt bytes offset opcode prefixed)
    (address : Word) :
    Decoded.cut? address (bytes.drop offset) =
      some (⟨address, opcode, prefixed⟩, bytes.drop (offset + opcode.length)) := by
  rw [hinstruction.drop.cut?_eq_some, List.drop_drop]

theorem cut?_drop_of_runsOutAt (hends : RunsOutAt bytes offset) (address : Word) :
    Decoded.cut? address (bytes.drop offset) = none := by
  cases hcut : Decoded.cut? address (bytes.drop offset) with
  | none => rfl
  | some cut => exact absurd hends (instructionAt_of_cut? hcut).1.of_drop.not_runsOutAt

end Cutting

/-! ### Decoding from boundary to boundary -/

section Decoding

variable {address : Word} {bytes rest : List Byte} {done : List Decoded} {decoded : Decoded}

theorem decodeFrom_nil (address : Word) (done : List Decoded) :
    decodeFrom address [] done = .ok done.reverse := by
  rw [decodeFrom]
  rfl

theorem decodeFrom_of_cut?_eq_none (hbytes : bytes ≠ [])
    (hcut : Decoded.cut? address bytes = none) :
    decodeFrom address bytes done = .error (.truncated address) := by
  rw [decodeFrom, if_neg (mt List.isEmpty_iff.mp hbytes)]
  split
  · rfl
  · next hsome =>
    rw [hcut] at hsome
    cases hsome

theorem decodeFrom_of_cut? (hcut : Decoded.cut? address bytes = some (decoded, rest)) :
    decodeFrom address bytes done =
      if decoded.opcode.endsBlock then
        if rest.isEmpty then .ok (decoded :: done).reverse
        else .error (.trailing (address + BitVec.ofNat 16 decoded.opcode.length))
      else
        decodeFrom (address + BitVec.ofNat 16 decoded.opcode.length) rest (decoded :: done) := by
  have hbytes : bytes ≠ [] := by
    rintro rfl
    cases hcut
  rw [decodeFrom, if_neg (mt List.isEmpty_iff.mp hbytes)]
  split
  · next hnone =>
    rw [hcut] at hnone
    cases hnone
  · next decoded' rest' hsome =>
    cases hcut.symm.trans hsome
    rfl

variable {offset : Nat} {start : Word}

/-- Decoding passes through every boundary. -/
theorem Boundary.exists_decodeFrom_eq (hboundary : Boundary bytes offset) (start : Word) :
    ∃ done, decodeFrom start bytes [] =
      decodeFrom (start + BitVec.ofNat 16 offset) (bytes.drop offset) done := by
  induction hboundary with
  | front => exact ⟨[], by simp⟩
  | @next offset opcode prefixed _ hinstruction hgoes ih =>
    obtain ⟨done, hdone⟩ := ih
    refine ⟨⟨start + BitVec.ofNat 16 offset, opcode, prefixed⟩ :: done, ?_⟩
    rw [hdone, decodeFrom_of_cut? (cut?_drop_of_instructionAt hinstruction _), hgoes,
      if_neg Bool.false_ne_true, BitVec.ofNat_add, BitVec.add_assoc]

theorem decode_of_decodeFrom_eq_error {error : BlockError} (hbytes : bytes ≠ [])
    (herror : decodeFrom start bytes [] = .error error) : decode start bytes = .error error := by
  rw [decode, if_neg (mt List.isEmpty_iff.mp hbytes), herror]
  rfl

theorem exists_decode_eq_ok {all : List Decoded} (hbytes : bytes ≠ [])
    (hok : decodeFrom start bytes [] = .ok all) : ∃ block, decode start bytes = .ok block := by
  rw [decode, if_neg (mt List.isEmpty_iff.mp hbytes), hok]
  exact ⟨_, rfl⟩

theorem decode_of_runsOutAt (hboundary : Boundary bytes offset) (hends : RunsOutAt bytes offset)
    (start : Word) :
    decode start bytes = .error (.truncated (start + BitVec.ofNat 16 offset)) := by
  have hcut := cut?_drop_of_runsOutAt hends (start + BitVec.ofNat 16 offset)
  obtain ⟨first, hfirst, -⟩ := hends
  obtain ⟨hoffset, -⟩ := List.getElem?_eq_some_iff.mp hfirst
  obtain ⟨done, hdone⟩ := hboundary.exists_decodeFrom_eq start
  have hbytes : bytes ≠ [] := by
    rintro rfl
    cases hfirst
  have hrest : bytes.drop offset ≠ [] := by
    rw [ne_eq, List.drop_eq_nil_iff]
    omega
  apply decode_of_decodeFrom_eq_error hbytes
  rw [hdone, decodeFrom_of_cut?_eq_none hrest hcut]

/-- After the instruction that ends the block there may be nothing. -/
theorem TerminatesAt.decodeFrom_eq (hterminates : TerminatesAt bytes offset) (start : Word) :
    (∃ all, decodeFrom start bytes [] = .ok all ∧ offset = bytes.length) ∨
      decodeFrom start bytes [] = .error (.trailing (start + BitVec.ofNat 16 offset)) ∧
        offset < bytes.length := by
  obtain ⟨place, opcode, prefixed, hboundary, hinstruction, hends, rfl⟩ := hterminates
  obtain ⟨done, hdone⟩ := hboundary.exists_decodeFrom_eq start
  have hroom := hinstruction.length_le
  rw [hdone, decodeFrom_of_cut? (cut?_drop_of_instructionAt hinstruction _), if_pos hends]
  by_cases hrest : bytes.length ≤ place + opcode.length
  · left
    rw [List.drop_eq_nil_of_le hrest]
    exact ⟨_, rfl, by omega⟩
  · right
    rw [if_neg (by simpa using Nat.not_le.mp hrest), BitVec.ofNat_add, BitVec.add_assoc]
    exact ⟨rfl, Nat.not_le.mp hrest⟩

theorem TerminatesAt.ne_nil (hterminates : TerminatesAt bytes offset) : bytes ≠ [] := by
  obtain ⟨place, opcode, prefixed, -, hinstruction, -, -⟩ := hterminates
  rintro rfl
  have hroom := hinstruction.length_le
  have hpos := hinstruction.length_pos
  rw [List.length_nil] at hroom
  omega

theorem decode_of_terminatesAt (hterminates : TerminatesAt bytes offset)
    (hmore : offset < bytes.length) (start : Word) :
    decode start bytes = .error (.trailing (start + BitVec.ofNat 16 offset)) := by
  rcases hterminates.decodeFrom_eq start with ⟨all, -, hlength⟩ | ⟨herror, -⟩
  · omega
  · exact decode_of_decodeFrom_eq_error hterminates.ne_nil herror

/-- From any boundary the cutting comes to a last place, where one sees why. -/
theorem Boundary.exists_last (hboundary : Boundary bytes offset) (hle : offset ≤ bytes.length) :
    Boundary bytes bytes.length ∨ (∃ last, Boundary bytes last ∧ RunsOutAt bytes last) ∨
      ∃ last, TerminatesAt bytes last := by
  -- The bytes that remain after a boundary become fewer with every instruction.
  induction hremaining : bytes.length - offset using Nat.strongRecOn generalizing offset with
  | ind remaining ih =>
    by_cases hoffset : offset < bytes.length
    · rcases exists_instructionAt_or_runsOutAt hoffset with
        ⟨opcode, prefixed, hinstruction⟩ | hrunsOut
      · have hroom := hinstruction.length_le
        have hpos := hinstruction.length_pos
        cases hends : opcode.endsBlock with
        | true =>
          exact .inr (.inr ⟨_, offset, opcode, prefixed, hboundary, hinstruction, hends, rfl⟩)
        | false =>
          exact ih (bytes.length - (offset + opcode.length)) (by omega)
            (hboundary.next hinstruction hends) hroom rfl
      · exact .inr (.inl ⟨offset, hboundary, hrunsOut⟩)
    · left
      have hend : offset = bytes.length := Nat.le_antisymm hle (Nat.not_lt.mp hoffset)
      rw [← hend]
      exact hboundary

/-- What decoding makes of bytes, read off the last boundary. -/
theorem decode_cases (start : Word) (bytes : List Byte) :
    bytes = [] ∧ decode start bytes = .error (.empty start) ∨
      (∃ offset, Boundary bytes offset ∧ RunsOutAt bytes offset ∧
        decode start bytes = .error (.truncated (start + BitVec.ofNat 16 offset))) ∨
      (∃ offset, TerminatesAt bytes offset ∧ offset < bytes.length ∧
        decode start bytes = .error (.trailing (start + BitVec.ofNat 16 offset))) ∨
      ∃ block, decode start bytes = .ok block := by
  by_cases hbytes : bytes = []
  · left
    rw [hbytes]
    exact ⟨rfl, rfl⟩
  right
  have hlast := Boundary.front.exists_last (Nat.zero_le bytes.length)
  rcases hlast with hall | ⟨offset, hboundary, hends⟩ | ⟨offset, hterminates⟩
  · obtain ⟨done, hdone⟩ := hall.exists_decodeFrom_eq start
    rw [List.drop_length, decodeFrom_nil] at hdone
    exact .inr (.inr (exists_decode_eq_ok hbytes hdone))
  · exact .inl ⟨offset, hboundary, hends, decode_of_runsOutAt hboundary hends start⟩
  · right
    rcases hterminates.decodeFrom_eq start with ⟨all, hok, -⟩ | ⟨-, hmore⟩
    · exact .inr (exists_decode_eq_ok hbytes hok)
    · exact .inl ⟨offset, hterminates, hmore, decode_of_terminatesAt hterminates hmore start⟩

theorem decode_eq_empty_iff :
    decode start bytes = .error (.empty address) ↔ bytes = [] ∧ address = start := by
  constructor
  · intro herror
    rcases decode_cases start bytes with
      ⟨hnil, hcase⟩ | ⟨_, -, -, hcase⟩ | ⟨_, -, -, hcase⟩ | ⟨_, hcase⟩
    all_goals cases herror.symm.trans hcase
    exact ⟨hnil, rfl⟩
  · intro hempty
    rw [hempty.1, hempty.2]
    rfl

theorem decode_eq_truncated_iff :
    decode start bytes = .error (.truncated address) ↔
      ∃ offset, Boundary bytes offset ∧ RunsOutAt bytes offset ∧
        address = start + BitVec.ofNat 16 offset := by
  constructor
  · intro herror
    rcases decode_cases start bytes with
      ⟨-, hcase⟩ | ⟨offset, hboundary, hends, hcase⟩ | ⟨_, -, -, hcase⟩ | ⟨_, hcase⟩
    all_goals cases herror.symm.trans hcase
    exact ⟨offset, hboundary, hends, rfl⟩
  · intro hdefect
    obtain ⟨offset, hboundary, hends, haddress⟩ := hdefect
    rw [haddress]
    exact decode_of_runsOutAt hboundary hends start

theorem decode_eq_trailing_iff :
    decode start bytes = .error (.trailing address) ↔
      ∃ offset, TerminatesAt bytes offset ∧ offset < bytes.length ∧
        address = start + BitVec.ofNat 16 offset := by
  constructor
  · intro herror
    rcases decode_cases start bytes with
      ⟨-, hcase⟩ | ⟨_, -, -, hcase⟩ | ⟨offset, hterminates, hmore, hcase⟩ | ⟨_, hcase⟩
    all_goals cases herror.symm.trans hcase
    exact ⟨offset, hterminates, hmore, rfl⟩
  · intro hdefect
    obtain ⟨offset, hterminates, hmore, haddress⟩ := hdefect
    rw [haddress]
    exact decode_of_terminatesAt hterminates hmore start

/-- The bytes of a block are those without a defect. -/
theorem exists_decode_eq_ok_iff :
    (∃ block, decode start bytes = .ok block) ↔
      bytes ≠ [] ∧ (∀ offset, Boundary bytes offset → ¬ RunsOutAt bytes offset) ∧
        ∀ offset, TerminatesAt bytes offset → offset = bytes.length := by
  constructor
  · intro haccepted
    obtain ⟨block, hok⟩ := haccepted
    refine ⟨(decode_eq_ok_iff.mp hok).1, ?_, ?_⟩
    · intro offset hboundary hends
      cases hok.symm.trans (decode_of_runsOutAt hboundary hends start)
    · intro offset hterminates
      rcases hterminates.decodeFrom_eq start with ⟨all, -, hlength⟩ | ⟨-, hmore⟩
      · exact hlength
      · cases hok.symm.trans (decode_of_terminatesAt hterminates hmore start)
  · intro hblock
    obtain ⟨hbytes, hcomplete, hlast⟩ := hblock
    rcases decode_cases start bytes with
      ⟨hnil, -⟩ | ⟨offset, hboundary, hends, -⟩ | ⟨offset, hterminates, hmore, -⟩ | hok
    · exact absurd hnil hbytes
    · exact absurd hends (hcomplete offset hboundary)
    · exact absurd (hlast offset hterminates) (Nat.ne_of_lt hmore)
    · exact hok

end Decoding

/-! ### The instructions of a block -/

/-- The bytes at `start` are made up of the instructions, each bound to what its bytes encode, and
none but the last ends a block. -/
structure SplitsInto (start : Word) (bytes : List Byte) (instructions : List Decoded) : Prop where
  length : Decoded.span instructions = bytes.length
  address : ∀ index (hindex : index < instructions.length),
    instructions[index].address =
      start + BitVec.ofNat 16 (Decoded.span (instructions.take index))
  instructionAt : ∀ index (hindex : index < instructions.length),
    InstructionAt bytes (Decoded.span (instructions.take index)) instructions[index].opcode
      instructions[index].prefixed
  goesOn : ∀ index (hindex : index + 1 < instructions.length),
    instructions[index].opcode.endsBlock = false

section Splitting

variable {start : Word} {bytes : List Byte} {instructions : List Decoded}

theorem Encodes.span_eq (hencodes : Encodes start bytes instructions) :
    Decoded.span instructions = bytes.length := by
  induction hencodes with
  | nil => rfl
  | last hcut =>
    obtain ⟨hinstruction, -, hrest⟩ := instructionAt_of_cut? hcut
    have hroom := hinstruction.length_le
    have hlength := congrArg List.length hrest
    rw [List.length_nil, List.length_drop] at hlength
    rw [Decoded.span, Decoded.span]
    omega
  | cons hcut _ _ ih =>
    obtain ⟨hinstruction, -, hrest⟩ := instructionAt_of_cut? hcut
    have hroom := hinstruction.length_le
    rw [hrest, List.length_drop] at ih
    rw [Decoded.span, ih]
    omega

theorem Encodes.splitsInto (hencodes : Encodes start bytes instructions) :
    SplitsInto start bytes instructions where
  length := hencodes.span_eq
  address index hindex := by
    obtain ⟨⟨rest, hcut⟩, -⟩ := hencodes.cut?_drop hindex
    exact (instructionAt_of_cut? hcut).2.1
  instructionAt index hindex := by
    obtain ⟨⟨rest, hcut⟩, -⟩ := hencodes.cut?_drop hindex
    exact (instructionAt_of_cut? hcut).1.of_drop
  goesOn index hindex := (hencodes.cut?_drop (Nat.lt_of_succ_lt hindex)).2 hindex

theorem SplitsInto.tail {decoded : Decoded}
    (hsplits : SplitsInto start bytes (decoded :: instructions)) :
    SplitsInto (start + BitVec.ofNat 16 decoded.opcode.length)
      (bytes.drop decoded.opcode.length) instructions where
  length := by
    have hlength := hsplits.length
    rw [Decoded.span] at hlength
    rw [List.length_drop]
    omega
  address index hindex := by
    have haddress := hsplits.address (index + 1) (Nat.succ_lt_succ hindex)
    rw [List.take_succ_cons, Decoded.span, BitVec.ofNat_add, ← BitVec.add_assoc] at haddress
    exact haddress
  instructionAt index hindex := by
    have hinstruction := hsplits.instructionAt (index + 1) (Nat.succ_lt_succ hindex)
    rw [List.take_succ_cons, Decoded.span] at hinstruction
    exact hinstruction.drop
  goesOn index hindex := hsplits.goesOn (index + 1) (Nat.succ_lt_succ hindex)

theorem SplitsInto.cut? {decoded : Decoded}
    (hsplits : SplitsInto start bytes (decoded :: instructions)) :
    Decoded.cut? start bytes = some (decoded, bytes.drop decoded.opcode.length) := by
  have haddress := hsplits.address 0 (Nat.succ_pos _)
  have hinstruction := hsplits.instructionAt 0 (Nat.succ_pos _)
  rw [List.take_zero, Decoded.span, BitVec.add_zero] at haddress
  have hcut := hinstruction.cut?_eq_some start
  rw [← haddress] at hcut ⊢
  exact hcut

theorem SplitsInto.encodes (hsplits : SplitsInto start bytes instructions) :
    Encodes start bytes instructions := by
  induction instructions generalizing start bytes with
  | nil =>
    have hnil : bytes = [] := List.eq_nil_of_length_eq_zero hsplits.length.symm
    rw [hnil]
    exact .nil start
  | cons decoded instructions ih =>
    have htail := ih hsplits.tail
    cases hends : decoded.opcode.endsBlock with
    | false => exact .cons hsplits.cut? hends htail
    | true =>
      cases instructions with
      | nil =>
        have hrest : bytes.drop decoded.opcode.length = [] :=
          List.eq_nil_of_length_eq_zero hsplits.tail.length.symm
        refine .last ?_ hends
        rw [hsplits.cut?, hrest]
      | cons next instructions =>
        have hgoes := hsplits.goesOn 0 (by simp)
        rw [List.getElem_cons_zero, hends] at hgoes
        cases hgoes

end Splitting

/-- Decoding accepts the bytes of basic blocks and names the first defect of all others. -/
theorem decode_reports_first_defect (start : Word) (bytes : List Byte) :
    (∀ address, decode start bytes = .error (.empty address) ↔ bytes = [] ∧ address = start) ∧
      (∀ address, decode start bytes = .error (.truncated address) ↔
        ∃ offset, Boundary bytes offset ∧ RunsOutAt bytes offset ∧
          address = start + BitVec.ofNat 16 offset) ∧
      (∀ address, decode start bytes = .error (.trailing address) ↔
        ∃ offset, TerminatesAt bytes offset ∧ offset < bytes.length ∧
          address = start + BitVec.ofNat 16 offset) ∧
      ((∃ block, decode start bytes = .ok block) ↔
        bytes ≠ [] ∧ (∀ offset, Boundary bytes offset → ¬ RunsOutAt bytes offset) ∧
          ∀ offset, TerminatesAt bytes offset → offset = bytes.length) ∧
      ∀ block, decode start bytes = .ok block ↔
        bytes ≠ [] ∧ block.start = start ∧ block.bytes = bytes ∧
          SplitsInto start bytes block.instructions := by
  refine ⟨fun _ => decode_eq_empty_iff, fun _ => decode_eq_truncated_iff,
    fun _ => decode_eq_trailing_iff, exists_decode_eq_ok_iff, ?_⟩
  intro block
  rw [decode_eq_ok_iff]
  constructor
  · intro hdecode
    obtain ⟨hbytes, hstart, hsame, hencodes⟩ := hdecode
    exact ⟨hbytes, hstart, hsame, hencodes.splitsInto⟩
  · intro hblock
    obtain ⟨hbytes, hstart, hsame, hsplits⟩ := hblock
    exact ⟨hbytes, hstart, hsame, hsplits.encodes⟩

end Block

end Sm83

import Sm83.Condition
import Sm83.Proofs.LowNibble

/-!
# Fourteen names for six words

Writing a register shows in the names that share storage with it and in no others: a byte register
in its pair, a pair in both its halves. So a pair can as well be written by halves. A flag is a bit of
F, and setting it changes that bit and nothing else; conditions are read off the same bits.
-/

namespace Sm83

/-- What reading a register gives after a value has been written to it. -/
def Register.kept (name : Register) (value : Word) : Word :=
  match name with
  | .byte .f => value &&& 0x00F0
  | .byte _ => value &&& 0x00FF
  | .word .af => value &&& 0xFFF0
  | .word _ => value

/-- What a part of a stored word reads as. -/
def Register.Part.of (part : Register.Part) (value : Word) : Word :=
  match part with
  | .whole => value
  | .low => value &&& 0x00FF
  | .high => value >>> 8

theorem Word.toNat_low (value : Word) : (Word.low value).toNat = value.toNat % 256 := by
  have hparts := toNat_ofBytes (Word.low value) (Word.high value)
  have hlow := (Word.low value).isLt
  rw [ofBytes_low_high] at hparts
  omega

theorem Word.toNat_high (value : Word) : (Word.high value).toNat = value.toNat / 256 := by
  have hparts := toNat_ofBytes (Word.low value) (Word.high value)
  have hlow := (Word.low value).isLt
  rw [ofBytes_low_high] at hparts
  omega

theorem Word.setWidth_eq_ofBytes (low : Byte) : low.setWidth 16 = ofBytes low 0 := by
  apply BitVec.eq_of_toNat_eq
  rw [toNat_ofBytes, BitVec.toNat_setWidth]
  have hlow := low.isLt
  simp
  omega

@[simp] theorem Word.low_setWidth (low : Byte) : Word.low (low.setWidth 16) = low := by
  rw [setWidth_eq_ofBytes, low_ofBytes]

theorem Word.ushiftRight_eq_setWidth (value : Word) :
    value >>> 8 = (Word.high value).setWidth 16 := by
  have hvalue := value.isLt
  apply BitVec.eq_of_toNat_eq
  rw [BitVec.toNat_ushiftRight, BitVec.toNat_setWidth, Nat.shiftRight_eq_div_pow, toNat_high]
  omega

theorem Byte.getLsbD_setWidth (value : Byte) (index : Nat) :
    (value.setWidth 16).getLsbD index = value.getLsbD index := by
  rw [BitVec.getLsbD_setWidth]
  by_cases hindex : index < 16
  · rw [decide_eq_true hindex, Bool.true_and]
  · rw [decide_eq_false hindex, Bool.false_and, BitVec.getLsbD_of_ge _ _ (by omega)]

/-- The low byte of a word, with some of its bits. -/
theorem Word.and_ofBytes_zero (value : Word) (mask : Byte) :
    value &&& ofBytes mask 0 = (Word.low value &&& mask).setWidth 16 := by
  calc value &&& ofBytes mask 0
    _ = ofBytes (Word.low value) (Word.high value) &&& ofBytes mask 0 := by rw [ofBytes_low_high]
    _ = ofBytes (Word.low value &&& mask) 0 := by rw [ofBytes_and, show
        Word.high value &&& 0 = 0 from BitVec.and_zero]
    _ = (Word.low value &&& mask).setWidth 16 := (setWidth_eq_ofBytes _).symm

theorem ByteRegister.setWidth_kept (name : ByteRegister) (value : Word) :
    (name.kept (Word.low value)).setWidth 16 = (Register.byte name).kept value := by
  have hall : Word.low value &&& 0xFF = Word.low value := BitVec.and_allOnes
  cases name with
  | f => exact (Word.and_ofBytes_zero value 0xF0).symm
  | _ =>
    rw [← hall]
    exact (Word.and_ofBytes_zero value 0xFF).symm

theorem ByteRegister.kept_of_ne {name : ByteRegister} (hne : name ≠ .f) (value : Byte) :
    name.kept value = value := by
  cases name <;> first | rfl | exact absurd rfl hne

theorem WordRegister.kept_of_ne {name : WordRegister} (hne : name ≠ .af) (value : Word) :
    name.kept value = value := by
  cases name <;> first | rfl | exact absurd rfl hne

theorem ByteRegister.low_kept (name : ByteRegister) (value : Word) :
    Word.low ((Register.byte name).kept value) = name.kept (Word.low value) := by
  rw [← setWidth_kept, Word.low_setWidth]

theorem WordRegister.kept_eq (name : WordRegister) (value : Word) :
    name.kept value = (Register.word name).kept value := by
  cases name <;> rfl

theorem Word.low_ushiftRight (value : Word) : Word.low (value >>> 8) = Word.high value := by
  rw [ushiftRight_eq_setWidth, low_setWidth]

theorem WordRegister.eq_of_index_eq {name other : WordRegister} (hindex : other.index = name.index) :
    other = name := by
  revert hindex
  cases name <;> cases other <;> decide

namespace Registers

/-- A register is a part of the word that is stored under its number. -/
theorem get_eq_part {name : Register} {storage : WordRegister}
    (hindex : storage.index = name.index) (registers : Registers) :
    registers.get name = name.part.of (registers.get (.word storage)) := by
  cases name with
  | byte name =>
    obtain rfl : storage = name.pair := WordRegister.eq_of_index_eq hindex
    have hmask (value : Word) : value &&& 0x00FF = (Word.low value).setWidth 16 :=
      (Word.and_ofBytes_zero value 0xFF).trans (congrArg _ BitVec.and_allOnes)
    rw [get, get, byte, Register.part]
    cases name.isHigh with
    | false => exact (hmask _).symm
    | true => exact (Word.ushiftRight_eq_setWidth _).symm
  | word name =>
    obtain rfl : storage = name := WordRegister.eq_of_index_eq hindex
    rfl

theorem store_store (registers : Registers) (name : WordRegister) (first second : Word) :
    (registers.store name first).store name second = registers.store name second := by
  cases name <;> rfl

@[simp] theorem store_word (registers : Registers) (name : WordRegister) :
    registers.store name (registers.word name) = registers := by
  cases name <;> rfl

theorem get_set_self (registers : Registers) (name : Register) (value : Word) :
    (registers.set name value).get name = name.kept value := by
  cases name with
  | byte name => rw [set, get, byte_setByte_self, ByteRegister.setWidth_kept]
  | word name => rw [set, get, word_setWord_self, WordRegister.kept_eq]

/-- A byte register shows in the pair it is a half of. -/
theorem word_setByte_pair (registers : Registers) (name : ByteRegister) (value : Byte) :
    (registers.setByte name value).word name.pair =
      if name.isHigh then Word.ofBytes (Word.low (registers.word name.pair)) (name.kept value)
      else Word.ofBytes (name.kept value) (Word.high (registers.word name.pair)) := by
  rw [setByte, word_store_self]

/-- A pair shows in its halves. -/
theorem byte_setWord_pair (registers : Registers) (name : ByteRegister) (value : Word) :
    (registers.setWord name.pair value).byte name =
      if name.isHigh then Word.high (name.pair.kept value) else Word.low (name.pair.kept value) := by
  rw [byte, word_setWord_self]

theorem get_set_of_ne {name other : Register} (hself : other ≠ name)
    (hpair : ∀ half, name = .byte half → other ≠ .word half.pair)
    (hhalf : ∀ half, other = .byte half → name ≠ .word half.pair) (registers : Registers)
    (value : Word) : (registers.set name value).get other = registers.get other := by
  cases name with
  | byte name =>
    cases other with
    | byte other =>
      have hne : other ≠ name := fun heq => hself (congrArg _ heq)
      rw [set, get, get, byte_setByte_of_ne hne]
    | word other =>
      have hne : other ≠ name.pair := fun heq => hpair name rfl (congrArg _ heq)
      rw [set, get, get, word_setByte_of_ne hne]
  | word name =>
    cases other with
    | byte other =>
      have hne : other.pair ≠ name := fun heq => hhalf other rfl (congrArg _ heq.symm)
      rw [set, get, get, byte_setWord_of_ne hne]
    | word other =>
      have hne : other ≠ name := fun heq => hself (congrArg _ heq)
      rw [set, get, get, word_setWord_of_ne hne]

/-- Only the last of the values written to a register counts. -/
theorem set_set (registers : Registers) (name : Register) (first second : Word) :
    (registers.set name first).set name second = registers.set name second := by
  cases name with
  | byte name =>
    rw [set, set, set, setByte, word_setByte_pair, setByte, store_store, setByte]
    cases name.isHigh <;> simp
  | word name => rw [set, set, set, setWord, setWord, store_store, setWord]

theorem set_get {name : Register} (hf : name ≠ .byte .f) (haf : name ≠ .word .af)
    (registers : Registers) : registers.set name (registers.get name) = registers := by
  cases name with
  | byte name =>
    have hne : name ≠ .f := fun heq => hf (congrArg _ heq)
    rw [get, set, Word.low_setWidth, setByte, ByteRegister.kept_of_ne hne, byte]
    cases name.isHigh <;> simp
  | word name =>
    have hne : name ≠ .af := fun heq => haf (congrArg _ heq)
    rw [get, set, setWord, WordRegister.kept_of_ne hne, store_word]

section Halves

variable {upper lower : ByteRegister} (hpair : lower.pair = upper.pair)
  (hupper : upper.isHigh = true) (hlower : lower.isHigh = false)

include hpair hupper hlower

/-- What a pair keeps is what its halves keep. -/
theorem kept_pair (value : Word) :
    upper.pair.kept value =
      Word.ofBytes (lower.kept (Word.low value)) (upper.kept (Word.high value)) := by
  have hhalves : (upper = .a ∧ lower = .f) ∨ upper.pair ≠ .af ∧ upper ≠ .f ∧ lower ≠ .f := by
    revert hpair hupper hlower
    cases upper <;> cases lower <;> decide
  rcases hhalves with ⟨rfl, rfl⟩ | ⟨haf, hf, hf'⟩
  · have hmask : (0xFFF0 : Word) = Word.ofBytes 0xF0 0xFF := by decide
    calc value &&& 0xFFF0
      _ = Word.ofBytes (Word.low value) (Word.high value) &&& Word.ofBytes 0xF0 0xFF := by
        rw [Word.ofBytes_low_high, hmask]
      _ = Word.ofBytes (Word.low value &&& 0xF0) (Word.high value) := by
        rw [Word.ofBytes_and, show Word.high value &&& 0xFF = _ from BitVec.and_allOnes]
  · rw [WordRegister.kept_of_ne haf, ByteRegister.kept_of_ne hf, ByteRegister.kept_of_ne hf',
      Word.ofBytes_low_high]

theorem setByte_setByte_lower (registers : Registers) (value : Word) :
    (registers.setByte upper (Word.high value)).setByte lower (Word.low value) =
      registers.setWord upper.pair value := by
  have hword := word_setByte_pair registers upper (Word.high value)
  rw [hupper, if_pos rfl] at hword
  rw [setByte, hlower, if_neg Bool.false_ne_true, hpair, hword, setByte, store_store,
    Word.high_ofBytes, ← kept_pair hpair hupper hlower, setWord]

theorem setByte_setByte_upper (registers : Registers) (value : Word) :
    (registers.setByte lower (Word.low value)).setByte upper (Word.high value) =
      registers.setWord upper.pair value := by
  have hword := word_setByte_pair registers lower (Word.low value)
  rw [hlower, if_neg Bool.false_ne_true, hpair] at hword
  rw [setByte, hupper, if_pos rfl, hword, setByte, hpair, store_store, Word.low_ofBytes,
    ← kept_pair hpair hupper hlower, setWord]

end Halves

/-- F holds nothing but the flags. -/
theorem IsCanonical.byte_f {registers : Registers} (hcanonical : registers.IsCanonical) :
    registers.byte .f = registers.flags.toByte := by
  rw [flags, Flags.toByte_ofByte]
  calc registers.byte .f
    _ = registers.byte .f &&& (0x0F ||| 0xF0) := BitVec.and_allOnes.symm
    _ = 0 ||| registers.byte .f &&& 0xF0 := by rw [BitVec.and_or_distrib_left, hcanonical]
    _ = registers.byte .f &&& 0xF0 := BitVec.zero_or

end Registers

/-! ### Flags -/

theorem Flag.eq_of_bit_eq {flag other : Flag} (hbit : other.bit = flag.bit) : other = flag := by
  revert hbit
  cases flag <;> cases other <;> decide

theorem Flag.bit_lt (flag : Flag) : flag.bit < 8 := by
  cases flag <;> decide

namespace Flags

/-- The bits of the encoding that are no flags are clear. -/
theorem getLsbD_toByte_of_ne {index : Nat} (hne : ∀ flag : Flag, index ≠ flag.bit)
    (flags : Flags) : flags.toByte.getLsbD index = false := by
  have hcases : index < 4 ∨ 8 ≤ index := by
    have hcarry : index ≠ 4 := hne .carry
    have hhalfCarry : index ≠ 5 := hne .halfCarry
    have hsubtract : index ≠ 6 := hne .subtract
    have hzero : index ≠ 7 := hne .zero
    omega
  rcases hcases with hlow | hhigh
  · rw [toByte, BitVec.getLsbD_append, if_pos hlow, BitVec.getLsbD_zero]
  · exact BitVec.getLsbD_of_ge _ _ hhigh

/-- Setting a flag sets its bit in the encoding. -/
theorem getLsbD_toByte_set (flags : Flags) (flag : Flag) (value : Bool) (index : Nat) :
    (flags.set flag value).toByte.getLsbD index =
      if index = flag.bit then value else flags.toByte.getLsbD index := by
  by_cases hflag : ∃ other : Flag, index = other.bit
  · obtain ⟨other, rfl⟩ := hflag
    rw [getLsbD_toByte, getLsbD_toByte]
    by_cases heq : other = flag
    · rw [heq, get_set_self, if_pos rfl]
    · rw [get_set_of_ne heq, if_neg (fun hbit => heq (Flag.eq_of_bit_eq hbit))]
  · have hne : ∀ other : Flag, index ≠ other.bit := fun other heq => hflag ⟨other, heq⟩
    rw [if_neg (hne flag), getLsbD_toByte_of_ne hne, getLsbD_toByte_of_ne hne]

theorem get_ofByte (value : Byte) (flag : Flag) : (ofByte value).get flag = value.getLsbD flag.bit := by
  cases flag <;> rfl

end Flags

namespace Condition

/-- The condition as it is read off the bits of F. -/
def reads (condition : Condition) (value : Word) : Bool :=
  match condition with
  | .zero => value.getLsbD 7
  | .notZero => !value.getLsbD 7
  | .subtract => value.getLsbD 6
  | .halfCarry => value.getLsbD 5
  | .carry => value.getLsbD 4
  | .notCarry => !value.getLsbD 4
  | .always => true

end Condition

namespace Cpu

variable {before after : Cpu}

/-- What is read after `value` has been written to the register `name`. -/
structure Shows (before after : Cpu) (name : Register) (value : Word) : Prop where
  self : after.get name = name.kept value
  pair (half : ByteRegister) (hname : name = .byte half) :
    after.get (.word half.pair) =
      if half.isHigh then
        Word.ofBytes (Word.low (before.get (.word half.pair))) (Word.low (name.kept value))
      else Word.ofBytes (Word.low (name.kept value)) (Word.high (before.get (.word half.pair)))
  half (half : ByteRegister) (hname : name = .word half.pair) :
    after.get (.byte half) =
      if half.isHigh then (Word.high (name.kept value)).setWidth 16
      else (Word.low (name.kept value)).setWidth 16
  other (other : Register) (hself : other ≠ name)
    (hpair : ∀ half, name = .byte half → other ≠ .word half.pair)
    (hhalf : ∀ half, other = .byte half → name ≠ .word half.pair) :
    after.get other = before.get other
  /-- Only the registers have changed. -/
  rest : after = { before with registers := after.registers }

/-- What is read after a flag has been set: its bit of F has changed, and so it has in AF. -/
structure ChangesFlag (before after : Cpu) (flag : Flag) (value : Bool) : Prop where
  bits (index : Nat) : (after.get (.byte .f)).getLsbD index =
    if index = flag.bit then value else (before.get (.byte .f)).getLsbD index
  pairBits (index : Nat) : (after.get (.word .af)).getLsbD index =
    if index = flag.bit then value else (before.get (.word .af)).getLsbD index
  other (other : Register) (hf : other ≠ .byte .f) (haf : other ≠ .word .af) :
    after.get other = before.get other
  own : after.flag flag = value
  otherFlag (other : Flag) (hne : other ≠ flag) : after.flag other = before.flag other
  rest : after = { before with registers := after.registers }

theorem shows_set (cpu : Cpu) (name : Register) (value : Word) :
    cpu.Shows (cpu.set name value) name value where
  self := cpu.registers.get_set_self name value
  pair := by
    rintro half rfl
    rw [half.low_kept]
    exact cpu.registers.word_setByte_pair half (Word.low value)
  half := by
    rintro half rfl
    have hbyte := cpu.registers.byte_setWord_pair half value
    rw [WordRegister.kept_eq] at hbyte
    rw [← apply_ite (BitVec.setWidth 16), ← hbyte]
    rfl
  other _ hself hpair hhalf := Registers.get_set_of_ne hself hpair hhalf cpu.registers value
  rest := rfl

theorem flag_eq_getLsbD (cpu : Cpu) (flag : Flag) :
    cpu.flag flag = (cpu.get (.byte .f)).getLsbD flag.bit :=
  (Flags.get_ofByte _ flag).trans (Byte.getLsbD_setWidth _ _).symm

/-- The bits of F, as a register of its own or as the low half of AF. -/
theorem getLsbD_word_af (cpu : Cpu) (index : Nat) :
    (cpu.get (.word .af)).getLsbD index =
      if index < 8 then (cpu.get (.byte .f)).getLsbD index
      else (cpu.get (.byte .a)).getLsbD (index - 8) := by
  have haf : cpu.get (.word .af) =
      Word.ofBytes (cpu.registers.byte .f) (cpu.registers.byte .a) :=
    (Word.ofBytes_low_high _).symm
  rw [haf, Word.getLsbD_ofBytes, get, get, Registers.get, Registers.get, Byte.getLsbD_setWidth,
    Byte.getLsbD_setWidth]

theorem getLsbD_setFlag {cpu : Cpu} (hcanonical : cpu.registers.IsCanonical) (flag : Flag)
    (value : Bool) (index : Nat) :
    ((cpu.setFlag flag value).get (.byte .f)).getLsbD index =
      if index = flag.bit then value else (cpu.get (.byte .f)).getLsbD index := by
  have hafter : (cpu.setFlag flag value).registers.byte .f =
      (cpu.registers.flags.set flag value).toByte :=
    Registers.byte_setFlags_self cpu.registers _
  rw [get, get, Registers.get, Registers.get, Byte.getLsbD_setWidth, Byte.getLsbD_setWidth, hafter,
    hcanonical.byte_f, Flags.getLsbD_toByte_set]

theorem get_setFlag_of_ne {other : Register} (hf : other ≠ .byte .f) (haf : other ≠ .word .af)
    (cpu : Cpu) (flag : Flag) (value : Bool) :
    (cpu.setFlag flag value).get other = cpu.get other := by
  cases other with
  | byte other =>
    have hne : other ≠ .f := fun heq => hf (congrArg _ heq)
    exact congrArg (BitVec.setWidth 16) (Registers.byte_setByte_of_ne hne cpu.registers _)
  | word other =>
    have hne : other ≠ ByteRegister.f.pair := fun heq => haf (congrArg _ heq)
    exact Registers.word_setByte_of_ne hne cpu.registers _

theorem changesFlag_setFlag {cpu : Cpu} (hcanonical : cpu.registers.IsCanonical) (flag : Flag)
    (value : Bool) : cpu.ChangesFlag (cpu.setFlag flag value) flag value where
  bits := getLsbD_setFlag hcanonical flag value
  pairBits index := by
    have hbit := flag.bit_lt
    have ha := cpu.get_setFlag_of_ne (show Register.byte .a ≠ .byte .f by decide)
      (by decide) flag value
    rw [getLsbD_word_af, getLsbD_word_af, getLsbD_setFlag hcanonical, ha]
    split
    · rfl
    · rw [if_neg (by omega)]
  other other hf haf := cpu.get_setFlag_of_ne hf haf flag value
  own := by
    rw [flag_eq_getLsbD, getLsbD_setFlag hcanonical, if_pos rfl]
  otherFlag other hne := by
    rw [flag_eq_getLsbD, flag_eq_getLsbD, getLsbD_setFlag hcanonical,
      if_neg (fun hbit => hne (Flag.eq_of_bit_eq hbit))]
  rest := rfl

end Cpu

namespace Machine

theorem satisfies_eq_reads (machine : Machine) (condition : Condition) :
    machine.satisfies condition = condition.reads (machine.cpu.get (.byte .f)) := by
  have hflag := machine.cpu.flag_eq_getLsbD
  cases condition with
  | zero => exact (Bool.bne_false _).trans (hflag .zero)
  | notZero => exact (Bool.bne_true _).trans (congrArg _ (hflag .zero))
  | subtract => exact (Bool.bne_false _).trans (hflag .subtract)
  | halfCarry => exact (Bool.bne_false _).trans (hflag .halfCarry)
  | carry => exact (Bool.bne_false _).trans (hflag .carry)
  | notCarry => exact (Bool.bne_true _).trans (congrArg _ (hflag .carry))
  | always => rfl

/-- The registers are six words under fourteen names, and the flags are four bits of them. -/
theorem register_file_is_consistent {machine : Machine} (hcanonical : machine.IsCanonical) :
    (∀ (name : Register) (storage : WordRegister), storage.index = name.index →
        machine.cpu.get name = name.part.of (machine.cpu.get (.word storage))) ∧
      (∀ name value, machine.cpu.Shows (machine.cpu.set name value) name value) ∧
      (∀ upper lower : ByteRegister, lower.pair = upper.pair → upper.isHigh = true →
        lower.isHigh = false → ∀ value : Word,
          (machine.cpu.set (.byte upper) (value >>> 8)).set (.byte lower) value =
              machine.cpu.set (.word upper.pair) value ∧
            (machine.cpu.set (.byte lower) value).set (.byte upper) (value >>> 8) =
              machine.cpu.set (.word upper.pair) value) ∧
      (∀ flag value, machine.cpu.ChangesFlag (machine.cpu.setFlag flag value) flag value) ∧
      (∀ entry ∈ [(Condition.zero, Flag.zero), (.subtract, .subtract), (.halfCarry, .halfCarry),
          (.carry, .carry)], ∀ value,
        entry.1.assign value machine = machine.mapCpu (·.setFlag entry.2 value) ∧
          (entry.1.assign value machine).satisfies entry.1 = value) ∧
      (∀ condition ∈ [Condition.notZero, .notCarry, .always], ∀ value,
        condition.assign value machine = machine) ∧
      ∀ after : Machine,
        (∀ flag, after.cpu.flag flag = (after.cpu.get (.byte .f)).getLsbD flag.bit) ∧
          ∀ condition, after.satisfies condition = condition.reads (after.cpu.get (.byte .f)) := by
  refine ⟨?_, machine.cpu.shows_set, ?_, Cpu.changesFlag_setFlag hcanonical, ?_, ?_, ?_⟩
  · intro name storage hindex
    exact Registers.get_eq_part hindex machine.cpu.registers
  · intro upper lower hpair hupper hlower value
    have hfirst := Registers.setByte_setByte_lower hpair hupper hlower machine.cpu.registers value
    have hsecond := Registers.setByte_setByte_upper hpair hupper hlower machine.cpu.registers value
    rw [← Word.low_ushiftRight] at hfirst hsecond
    constructor
    · exact congrArg (fun registers => { machine.cpu with registers }) hfirst
    · exact congrArg (fun registers => { machine.cpu with registers }) hsecond
  · intro entry hentry value
    have hown (flag : Flag) := (Cpu.changesFlag_setFlag hcanonical flag value).own
    simp only [List.mem_cons, List.not_mem_nil, or_false] at hentry
    rcases hentry with rfl | rfl | rfl | rfl <;>
      exact ⟨rfl, (Bool.bne_false _).trans (hown _)⟩
  · intro condition hcondition value
    simp only [List.mem_cons, List.not_mem_nil, or_false] at hcondition
    rcases hcondition with rfl | rfl | rfl <;> rfl
  · intro after
    exact ⟨after.cpu.flag_eq_getLsbD, after.satisfies_eq_reads⟩

theorem register_file_is_consistent_afterBoot :
    (initial (Config.afterBoot .gb)).IsCanonical ∧
      ((initial (Config.afterBoot .gb)).cpu.set (.byte .b) 0x01FF).get (.word .bc) = 0xFF13 ∧
      ((initial (Config.afterBoot .gb)).cpu.set (.byte .b) 0x01FF).get (.byte .c) = 0x0013 ∧
      ((initial (Config.afterBoot .gb)).cpu.setFlag .carry false).get (.byte .e) = 0x00D8 ∧
      (Condition.carry.assign false (initial (Config.afterBoot .gb))).satisfies .carry = false ∧
      Condition.notCarry.assign true (initial (Config.afterBoot .gb)) =
        initial (Config.afterBoot .gb) := by
  have hcanonical : (initial (Config.afterBoot .gb)).IsCanonical := Cpu.isCanonical_initial _
  obtain ⟨-, hshows, -, hflags, hassign, hreadOnly, -⟩ := register_file_is_consistent hcanonical
  refine ⟨hcanonical, (hshows (.byte .b) 0x01FF).pair .b rfl, ?_, ?_, ?_, ?_⟩
  · exact (hshows (.byte .b) 0x01FF).other (.byte .c) (by decide) (by simp)
      (fun half _ hname => by cases hname)
  · exact (hflags .carry false).other (.byte .e) (by decide) (by decide)
  · exact (hassign (.carry, .carry) (by decide) false).2
  · exact hreadOnly .notCarry (by decide) true

end Machine

end Sm83

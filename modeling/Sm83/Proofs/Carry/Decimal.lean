import Sm83.Proofs.Carry.Chain

/-!
# Long decimal arithmetic

A byte with a decimal digit in each half stands for a number below one hundred. A sum or difference
of two such bytes, with whatever carry came in, becomes such a byte again when it is adjusted, and
the carry flag then tells the carry to the next hundred. Chains of such rounds therefore compute
with decimal numbers of any length.
-/

namespace Sm83

namespace Byte

/-- Both halves are decimal digits. -/
def IsDecimal (byte : Byte) : Prop := byte.toNat / 16 ≤ 9 ∧ byte.toNat % 16 ≤ 9

instance (byte : Byte) : Decidable (IsDecimal byte) := inferInstanceAs (Decidable (_ ∧ _))

/-- The number that the halves denote as decimal digits. -/
def decimal (byte : Byte) : Nat := byte.toNat / 16 * 10 + byte.toNat % 16

theorem isDecimal_of_digits {byte : Byte} {high low : Nat} (hdigits : byte.toNat = 16 * high + low)
    (hhigh : high ≤ 9) (hlow : low ≤ 9) : IsDecimal byte ∧ decimal byte = 10 * high + low := by
  rw [IsDecimal, decimal, hdigits]
  omega

theorem IsDecimal.exists_digits {byte : Byte} (hdecimal : IsDecimal byte) :
    ∃ high low, byte.toNat = 16 * high + low ∧ decimal byte = 10 * high + low ∧ high ≤ 9 ∧
      low ≤ 9 := by
  obtain ⟨hhigh, hlow⟩ := hdecimal
  have hdigits := (Nat.div_add_mod byte.toNat 16).symm
  exact ⟨_, _, hdigits, (isDecimal_of_digits hdigits hhigh hlow).2, hhigh, hlow⟩

section Digit

variable {left right : Nat} {carry outgoing : Bool} (hleft : left ≤ 9) (hright : right ≤ 9)

include hleft hright

theorem exists_digit_of_add (hover : outgoing = true ↔ 10 ≤ left + right + carry.toNat) :
    ∃ digit, digit ≤ 9 ∧ left + right + carry.toNat = 10 * outgoing.toNat + digit := by
  have hcarry := Bool.toNat_le carry
  have hbit := Bool.toNat_le outgoing
  rw [← Bool.toNat_eq_one] at hover
  have hle : 10 * outgoing.toNat ≤ left + right + carry.toNat := by omega
  obtain ⟨digit, hdigit⟩ := Nat.exists_eq_add_of_le hle
  exact ⟨digit, by omega, hdigit⟩

theorem exists_digit_of_sub (hunder : outgoing = true ↔ left < right + carry.toNat) :
    ∃ digit, digit ≤ 9 ∧ left + 10 * outgoing.toNat = right + carry.toNat + digit := by
  have hcarry := Bool.toNat_le carry
  have hbit := Bool.toNat_le outgoing
  rw [← Bool.toNat_eq_one] at hunder
  have hle : right + carry.toNat ≤ left + 10 * outgoing.toNat := by omega
  obtain ⟨digit, hdigit⟩ := Nat.exists_eq_add_of_le hle
  exact ⟨digit, by omega, hdigit⟩

end Digit

end Byte

namespace Outcome

theorem toNat_adjustment (low high : Bool) :
    ((if low then 0x06 else 0x00 : Byte) ||| (if high then 0x60 else 0x00)).toNat =
      6 * low.toNat + 96 * high.toNat := by
  cases low <;> cases high <;> rfl

theorem ult_nine_lowHalf (value : Byte) :
    BitVec.ult 0x09 (value &&& 0x0F) = decide (9 < value.toNat % 16) := by
  have hlow : (value &&& 0x0F).toNat = value.toNat % 16 := by
    rw [BitVec.toNat_and]
    exact Nat.and_two_pow_sub_one_eq_mod value.toNat 4
  rw [BitVec.ult, hlow]
  rfl

/-- What has to be added to the halves of a sum, and the carry. -/
theorem decimalAdjust_of_not_subtract {flags : Flags} (value : Byte)
    (hsubtract : flags.subtract = false) :
    let low := flags.halfCarry || decide (9 < value.toNat % 16)
    let high := flags.carry || decide (0x99 < value.toNat)
    (decimalAdjust value flags).value.toNat =
        (value.toNat + (6 * low.toNat + 96 * high.toNat)) % 256 ∧
      (decimalAdjust value flags).flags.carry = high := by
  simp only [decimalAdjust, hsubtract, ult_nine_lowHalf, Bool.not_false, Bool.true_and]
  constructor
  · rw [if_neg Bool.false_ne_true, BitVec.toNat_add, toNat_adjustment]
    rfl
  · rfl

theorem decimalAdjust_of_subtract {flags : Flags} (value : Byte)
    (hsubtract : flags.subtract = true) :
    (decimalAdjust value flags).value.toNat =
        (256 - (6 * flags.halfCarry.toNat + 96 * flags.carry.toNat) + value.toNat) % 256 ∧
      (decimalAdjust value flags).flags.carry = flags.carry := by
  simp only [decimalAdjust, hsubtract, Bool.not_true, Bool.false_and, Bool.or_false]
  constructor
  · rw [if_pos trivial, BitVec.toNat_sub, toNat_adjustment]
  · trivial

open Byte

variable {outcome : Outcome 8} {left right : Byte} {carry : Bool}

theorem IsSum.decimalAdjust (hsum : outcome.IsSum left right carry) (hleft : IsDecimal left)
    (hright : IsDecimal right) :
    let adjusted := decimalAdjust outcome.value outcome.flags
    IsDecimal adjusted.value ∧
      decimal adjusted.value + 100 * adjusted.flags.carry.toNat =
        decimal left + decimal right + carry.toNat := by
  obtain ⟨hvalue, hcarry⟩ := decimalAdjust_of_not_subtract outcome.value hsum.subtract
  have htotal := hsum.value_add_carry
  -- Each half is adjusted just where the decimal digits of the two bytes have a carry.
  obtain ⟨leftHigh, leftLow, hdigits, hleft, hleftHigh, hleftLow⟩ := hleft.exists_digits
  obtain ⟨rightHigh, rightLow, hdigits', hright, hrightHigh, hrightLow⟩ := hright.exists_digits
  have hlow : (outcome.flags.halfCarry || decide (9 < outcome.value.toNat % 16)) = true ↔
      10 ≤ leftLow + rightLow + carry.toNat := by
    rw [Bool.or_eq_true, hsum.halfCarry, decide_eq_true_iff]
    omega
  generalize (outcome.flags.halfCarry || decide (9 < outcome.value.toNat % 16)) = low
    at hvalue hlow
  obtain ⟨resultLow, hresultLow, hlowSum⟩ := exists_digit_of_add hleftLow hrightLow hlow
  have hbit := Bool.toNat_le low
  have hhigh : (outcome.flags.carry || decide (0x99 < outcome.value.toNat)) = true ↔
      10 ≤ leftHigh + rightHigh + low.toNat := by
    rw [Bool.or_eq_true, ← Bool.toNat_eq_one, decide_eq_true_iff]
    omega
  generalize (outcome.flags.carry || decide (0x99 < outcome.value.toNat)) = high
    at hvalue hcarry hhigh
  obtain ⟨resultHigh, hresultHigh, hhighSum⟩ := exists_digit_of_add hleftHigh hrightHigh hhigh
  have hresult : (Outcome.decimalAdjust outcome.value outcome.flags).value.toNat =
      16 * resultHigh + resultLow := by
    omega
  obtain ⟨hdecimal, hnumber⟩ := isDecimal_of_digits hresult hresultHigh hresultLow
  refine ⟨hdecimal, ?_⟩
  rw [hnumber, hcarry, hleft, hright]
  omega

theorem IsDifference.decimalAdjust (hdifference : outcome.IsDifference left right carry)
    (hleft : IsDecimal left) (hright : IsDecimal right) :
    let adjusted := decimalAdjust outcome.value outcome.flags
    IsDecimal adjusted.value ∧
      decimal left + 100 * adjusted.flags.carry.toNat =
        decimal adjusted.value + decimal right + carry.toNat := by
  obtain ⟨hvalue, hcarry⟩ := decimalAdjust_of_subtract outcome.value hdifference.subtract
  have htotal := hdifference.value_add_borrow
  -- The binary borrows are the decimal ones, since the digits compare as the halves do.
  obtain ⟨leftHigh, leftLow, hdigits, hleft, hleftHigh, hleftLow⟩ := hleft.exists_digits
  obtain ⟨rightHigh, rightLow, hdigits', hright, hrightHigh, hrightLow⟩ := hright.exists_digits
  have hlow : outcome.flags.halfCarry = true ↔ leftLow < rightLow + carry.toNat := by
    rw [hdifference.halfCarry]
    omega
  obtain ⟨resultLow, hresultLow, hlowSum⟩ := exists_digit_of_sub hleftLow hrightLow hlow
  have hbit := Bool.toNat_le outcome.flags.halfCarry
  have hhigh : outcome.flags.carry = true ↔
      leftHigh < rightHigh + outcome.flags.halfCarry.toNat := by
    rw [hdifference.carry]
    omega
  obtain ⟨resultHigh, hresultHigh, hhighSum⟩ := exists_digit_of_sub hleftHigh hrightHigh hhigh
  have hresult : (Outcome.decimalAdjust outcome.value outcome.flags).value.toNat =
      16 * resultHigh + resultLow := by
    omega
  obtain ⟨hdecimal, hnumber⟩ := isDecimal_of_digits hresult hresultHigh hresultLow
  refine ⟨hdecimal, ?_⟩
  rw [hnumber, hcarry, hleft, hright]
  omega

end Outcome

namespace Machine

/-- The accumulator is left with a decimal byte, and the flags tell of it and of the operation that
it comes from. -/
structure ShowsDecimal (machine : Machine) (subtract : Bool) : Prop where
  isDecimal : Byte.IsDecimal (machine.byte .a)
  zero : machine.flags.zero = true ↔ machine.byte .a = 0
  subtract : machine.flags.subtract = subtract
  halfCarry : machine.flags.halfCarry = false

end Machine

namespace Accumulation

open CarryChain

variable (round : Accumulation)

/-- The machine after the operation and the adjustment. -/
def adjusted : Machine := round.after.daa

def adjustment : Outcome 8 := .decimalAdjust round.outcome.value round.outcome.flags

theorem adjusted_eq : round.adjusted = round.after.accumulate round.adjustment := by
  rw [adjustment, ← flags_after, ← result_eq]
  rfl

theorem flags_adjusted : round.adjusted.flags = round.adjustment.flags := by
  rw [adjusted_eq, Machine.flags_accumulate]

theorem byte_adjusted : round.adjusted.byte .a = round.adjustment.value := by
  rw [adjusted_eq, Machine.byte_accumulate]

/-- Both bytes are decimal. -/
def IsDecimal : Prop := Byte.IsDecimal round.left ∧ Byte.IsDecimal round.right

instance : Decidable round.IsDecimal := inferInstanceAs (Decidable (_ ∧ _))

variable {round}

theorem showsDecimal {subtract : Bool} (hdecimal : Byte.IsDecimal round.adjustment.value)
    (hsubtract : round.outcome.flags.subtract = subtract) :
    round.adjusted.ShowsDecimal subtract where
  isDecimal := by
    rw [byte_adjusted]
    exact hdecimal
  zero := by
    rw [flags_adjusted, byte_adjusted]
    exact beq_iff_eq
  subtract := by
    rw [flags_adjusted]
    exact hsubtract
  halfCarry := by
    rw [flags_adjusted]
    rfl

/-- The accumulator after the adjustment. -/
def adjustedResult (round : Accumulation) : Byte := round.adjusted.byte .a

theorem addsDigit_of_adc (hoperation : round.operation = .adc) (hdecimal : round.IsDecimal) :
    round.adjusted.ShowsDecimal false ∧
      AddsDigit adjusted 100 Byte.decimal adjustedResult left right round.machine.flags.carry
        round := by
  have hsum := isSum_of_adc hoperation
  obtain ⟨hresult, hnumber⟩ := hsum.decimalAdjust hdecimal.1 hdecimal.2
  refine ⟨showsDecimal hresult hsum.subtract, ?_⟩
  rw [AddsDigit, adjustedResult, byte_adjusted, flags_adjusted]
  exact hnumber

theorem addsDigit_of_sbc (hoperation : round.operation = .sbc) (hdecimal : round.IsDecimal) :
    round.adjusted.ShowsDecimal true ∧
      AddsDigit adjusted 100 Byte.decimal left adjustedResult right round.machine.flags.carry
        round := by
  have hdifference := isDifference_of_sbc hoperation
  obtain ⟨hresult, hnumber⟩ := hdifference.decimalAdjust hdecimal.1 hdecimal.2
  refine ⟨showsDecimal hresult hdifference.subtract, ?_⟩
  rw [AddsDigit, adjustedResult, byte_adjusted, flags_adjusted]
  exact hnumber

end Accumulation

namespace CarryChain

open Accumulation

/-- Decimal bytes worked on one after the other, each result being adjusted and the carry flag left
alone in between, make up long decimal sums and differences. -/
theorem computes_decimal_numbers {rounds : List Accumulation} {carry final : Bool}
    (hdecimal : ∀ round ∈ rounds, round.IsDecimal)
    (hchain : CarryChain machine adjusted carry rounds final) :
    ((∀ round ∈ rounds, round.operation = .adc) →
      (∀ round ∈ rounds, round.adjusted.ShowsDecimal false) ∧
        IsLongSum 100 Byte.decimal adjustedResult left right rounds carry final) ∧
    ((∀ round ∈ rounds, round.operation = .sbc) →
      (∀ round ∈ rounds, round.adjusted.ShowsDecimal true) ∧
        IsLongDifference 100 Byte.decimal adjustedResult left right rounds carry final) := by
  constructor
  · intro hoperation
    have hrounds (round : Accumulation) (hmem : round ∈ rounds) :=
      addsDigit_of_adc (hoperation round hmem) (hdecimal round hmem)
    refine ⟨fun round hmem => (hrounds round hmem).1, ?_⟩
    exact hchain.isLongSum fun round hmem => (hrounds round hmem).2
  · intro hoperation
    have hrounds (round : Accumulation) (hmem : round ∈ rounds) :=
      addsDigit_of_sbc (hoperation round hmem) (hdecimal round hmem)
    refine ⟨fun round hmem => (hrounds round hmem).1, ?_⟩
    apply IsLongSum.isLongDifference
    exact hchain.isLongSum fun round hmem => (hrounds round hmem).2

theorem computes_decimal_numbers_selfCarried :
    let nines := [selfCarried .adc 0x99, selfCarried .adc 0x99]
    let zeros := [selfCarried .sbc 0x00, selfCarried .sbc 0x00]
    (∀ round ∈ nines ++ zeros, round.IsDecimal) ∧
      CarryChain machine adjusted true nines true ∧
      CarryChain machine adjusted true zeros true ∧
      IsLongSum 100 Byte.decimal adjustedResult left right nines true true ∧
      IsLongDifference 100 Byte.decimal adjustedResult left right zeros true true := by
  intro nines zeros
  have hnines : ∀ round ∈ nines, round.IsDecimal := by
    rw [List.forall_mem_cons, List.forall_mem_singleton]
    exact ⟨by decide, by decide⟩
  have hzeros : ∀ round ∈ zeros, round.IsDecimal := by
    rw [List.forall_mem_cons, List.forall_mem_singleton]
    exact ⟨by decide, by decide⟩
  have hsum : CarryChain machine adjusted true nines true :=
    .cons (by decide) (.cons (by decide) (.nil _))
  have hdifference : CarryChain machine adjusted true zeros true :=
    .cons (by decide) (.cons (by decide) (.nil _))
  refine ⟨List.forall_mem_append.mpr ⟨hnines, hzeros⟩, hsum, hdifference, ?_, ?_⟩
  · exact ((computes_decimal_numbers hnines hsum).1 (by decide)).2
  · exact ((computes_decimal_numbers hzeros hdifference).2 (by decide)).2

end CarryChain

end Sm83

import Sm83.Proofs.Carry.Chain
import Sm83.Proofs.Step.Extended

/-!
# Long binary arithmetic

Chains of additions and subtractions on the accumulator, and of rotations through the carry, compute
with numbers of any length what their single rounds compute with bytes. A byte's shift obeys one
equation for each direction, whatever bit is let in: to the left, twice the byte and the bit let in
are the result and the bit let out, and to the right the same is said of the result. The equations
also tell that the rotations through the carry undo each other.
-/

namespace Sm83

/-! ### Sums and differences -/

namespace Accumulation

open CarryChain

variable {round : Accumulation}

theorem addsDigit_of_isSum {carry : Bool}
    (hsum : round.outcome.IsSum round.left round.right carry) :
    AddsDigit after 256 BitVec.toNat result left right carry round := by
  rw [AddsDigit, flags_after, result_eq]
  exact hsum.value_add_carry

theorem addsDigit_of_isDifference {borrow : Bool}
    (hdifference : round.outcome.IsDifference round.left round.right borrow) :
    AddsDigit after 256 BitVec.toNat left result right borrow round := by
  rw [AddsDigit, flags_after, result_eq]
  exact hdifference.value_add_borrow

variable {rounds : List Accumulation} {carry incoming final : Bool}

theorem isLongSum (hchain : CarryChain machine after carry rounds final)
    (hexecutes : Executes operation .add .adc carry rounds incoming) :
    IsLongSum 256 BitVec.toNat result left right rounds incoming final := by
  apply hchain.isLongSum_of_executes hexecutes
  · intro round hround
    exact addsDigit_of_isSum (isSum_of_adc hround)
  · intro round hround
    apply addsDigit_of_isSum
    rw [outcome_of_operation_eq hround]
    exact Outcome.isSum_add round.left round.right false

theorem isLongDifference (hchain : CarryChain machine after carry rounds final)
    (hexecutes : Executes operation .sub .sbc carry rounds incoming) :
    IsLongDifference 256 BitVec.toNat result left right rounds incoming final := by
  apply IsLongSum.isLongDifference
  apply hchain.isLongSum_of_executes hexecutes
  · intro round hround
    exact addsDigit_of_isDifference (isDifference_of_sbc hround)
  · intro round hround
    apply addsDigit_of_isDifference
    rw [outcome_of_operation_eq hround]
    exact Outcome.isDifference_sub round.left round.right false

end Accumulation

/-! ### Shifts -/

namespace Shift

theorem toNat_result_of_isLeft {shift : Shift} (hleft : shift.isLeft = true) (value : Byte)
    (carry : Bool) :
    (shift.result value carry).toNat + 256 * (shift.outgoing value).toNat =
      2 * value.toNat + (shift.incoming value carry).toNat := by
  have hvalue := value.isLt
  have hbit := Bool.toNat_lt (shift.incoming value carry)
  rw [result, outgoing, if_pos hleft, if_pos hleft, BitVec.toNat_append, BitVec.toNat_ofBool,
    BitVec.extractLsb'_toNat, BitVec.getLsbD, Nat.toNat_testBit,
    ← Nat.shiftLeft_add_eq_or_of_lt (by omega), Nat.shiftLeft_eq, Nat.shiftRight_zero]
  omega

theorem toNat_result_of_not_isLeft {shift : Shift} (hright : shift.isLeft = false) (value : Byte)
    (carry : Bool) :
    2 * (shift.result value carry).toNat + (shift.outgoing value).toNat =
      value.toNat + 256 * (shift.incoming value carry).toNat := by
  have hvalue := value.isLt
  have hnot : ¬shift.isLeft = true := Bool.eq_false_iff.mp hright
  rw [result, outgoing, if_neg hnot, if_neg hnot, BitVec.toNat_append, BitVec.toNat_ofBool,
    BitVec.extractLsb'_toNat, BitVec.getLsbD, Nat.toNat_testBit,
    ← Nat.shiftLeft_add_eq_or_of_lt (Nat.mod_lt _ (by decide)), Nat.shiftLeft_eq,
    Nat.shiftRight_eq_div_pow]
  omega

/-- A rotation to the right takes back what one to the left has done. -/
theorem rr_rl (value : Byte) (carry : Bool) :
    rr.result (rl.result value carry) (rl.outgoing value) = value ∧
      rr.outgoing (rl.result value carry) = carry := by
  have hleft := toNat_result_of_isLeft (rfl : rl.isLeft = true) value carry
  have hright := toNat_result_of_not_isLeft (rfl : rr.isLeft = false) (rl.result value carry)
    (rl.outgoing value)
  have hlow : rl.incoming value carry = carry := rfl
  have hhigh : rr.incoming (rl.result value carry) (rl.outgoing value) = rl.outgoing value := rfl
  rw [hlow] at hleft
  rw [hhigh] at hright
  have hin := Bool.toNat_lt carry
  have hout := Bool.toNat_lt (rr.outgoing (rl.result value carry))
  constructor
  · apply BitVec.eq_of_toNat_eq
    omega
  · rw [Bool.eq_iff_iff, ← Bool.toNat_eq_one, ← Bool.toNat_eq_one]
    omega

theorem rl_rr (value : Byte) (carry : Bool) :
    rl.result (rr.result value carry) (rr.outgoing value) = value ∧
      rl.outgoing (rr.result value carry) = carry := by
  have hright := toNat_result_of_not_isLeft (rfl : rr.isLeft = false) value carry
  have hleft := toNat_result_of_isLeft (rfl : rl.isLeft = true) (rr.result value carry)
    (rr.outgoing value)
  have hhigh : rr.incoming value carry = carry := rfl
  have hlow : rl.incoming (rr.result value carry) (rr.outgoing value) = rr.outgoing value := rfl
  rw [hhigh] at hright
  rw [hlow] at hleft
  have hvalue := value.isLt
  have hback := (rl.result (rr.result value carry) (rr.outgoing value)).isLt
  constructor
  · apply BitVec.eq_of_toNat_eq
    omega
  · rw [Bool.eq_iff_iff, ← Bool.toNat_eq_one, ← Bool.toNat_eq_one]
    omega

end Shift

/-- A machine about to shift one of the byte targets. -/
structure Shifting where
  kind : Shift
  machine : Machine
  index : Nat
  zeroFlag : Bool

namespace Shifting

open CarryChain

variable (round : Shifting)

def place : Place := round.machine.target round.index

def value : Byte := round.machine.peek round.place

def after : Machine :=
  round.machine.shift round.kind (Slot.cell round.index).operand round.zeroFlag

def result : Byte := round.after.peek round.place

/-- What the shift makes of the byte and of the flags. -/
def outcome : Outcome 8 :=
  round.kind.apply round.value round.machine.flags.carry round.zeroFlag

theorem sameData_after :
    round.after.SameData
      ((round.machine.setFlags round.outcome.flags).poke round.place round.outcome.value) :=
  round.machine.sameData_modify_cell
    (round.kind.apply · round.machine.flags.carry round.zeroFlag) round.index

theorem flags_after : round.after.flags = round.outcome.flags :=
  (round.sameData_after.stores (round.machine.target_ne_f round.index)).2

theorem result_eq : round.result = round.outcome.value :=
  (round.sameData_after.stores (round.machine.target_ne_f round.index)).1.target

/-- A shift does not move its target. -/
theorem target_after : round.after.target round.index = round.place := by
  rw [round.sameData_after.target, place]
  generalize round.outcome.value = value
  match round.index with
  | 0 | 1 | 2 | 3 | 4 | 5 | 6 => rfl
  | _ + 7 => rfl

variable {round}

theorem addsDigit_of_isLeft {shift : Shift} {carry : Bool} (hkind : round.kind = shift)
    (hleft : shift.isLeft = true)
    (hincoming : shift.incoming round.value round.machine.flags.carry = carry) :
    AddsDigit after 256 BitVec.toNat result value value carry round := by
  have hshift := Shift.toNat_result_of_isLeft hleft round.value round.machine.flags.carry
  rw [hincoming, Nat.two_mul] at hshift
  rw [AddsDigit, flags_after, result_eq, outcome, hkind]
  exact hshift

theorem halvesDigit_of_not_isLeft {shift : Shift} {carry : Bool} (hkind : round.kind = shift)
    (hright : shift.isLeft = false)
    (hincoming : shift.incoming round.value round.machine.flags.carry = carry) :
    HalvesDigit after 256 BitVec.toNat result value carry round := by
  have hshift := Shift.toNat_result_of_not_isLeft hright round.value round.machine.flags.carry
  rw [hincoming] at hshift
  rw [HalvesDigit, flags_after, result_eq, outcome, hkind]
  exact hshift

variable {rounds : List Shifting} {carry incoming final : Bool}

/-- The results and the last carry are twice the number, with the first carry let in. -/
def IsLongDouble (rounds : List Shifting) (carry final : Bool) : Prop :=
  numeral 256 BitVec.toNat (rounds.map result) + 256 ^ rounds.length * final.toNat =
    2 * numeral 256 BitVec.toNat (rounds.map value) + carry.toNat

/-- The results are half the number that the first carry and the bytes make up, the most significant
one coming first, and the last carry is its lowest bit. -/
def IsLongHalf (rounds : List Shifting) (carry final : Bool) : Prop :=
  numeral 256 BitVec.toNat (rounds.map result).reverse =
      (numeral 256 BitVec.toNat (rounds.map value).reverse +
        256 ^ rounds.length * carry.toNat) / 2 ∧
    final.toNat = numeral 256 BitVec.toNat (rounds.map value).reverse % 2

theorem isLongDouble (hchain : CarryChain machine after carry rounds final)
    (hexecutes : Executes kind .sla .rl carry rounds incoming) :
    IsLongDouble rounds incoming final := by
  rw [IsLongDouble, Nat.two_mul]
  apply hchain.isLongSum_of_executes hexecutes
  · intro round hround
    exact addsDigit_of_isLeft hround rfl rfl
  · intro round hround
    exact addsDigit_of_isLeft hround rfl rfl

theorem isLongHalf (hchain : CarryChain machine after carry rounds final)
    (hexecutes : Executes kind .srl .rr carry rounds incoming) (hrounds : rounds ≠ []) :
    IsLongHalf rounds incoming final := by
  have hhalf : HalvesNumber 256 BitVec.toNat result value rounds incoming final := by
    apply hchain.halvesNumber_of_executes hexecutes
    · intro round hround
      exact halvesDigit_of_not_isLeft hround rfl rfl
    · intro round hround
      exact halvesDigit_of_not_isLeft hround rfl rfl
  -- With a byte at least, the carry is worth an even number.
  have hbase : 2 ∣ 256 ^ rounds.length :=
    dvd_pow (by decide) (mt List.length_eq_zero_iff.mp hrounds)
  have heven : 2 ∣ 256 ^ rounds.length * incoming.toNat := hbase.mul_right _
  have hfinal := Bool.toNat_lt final
  rw [HalvesNumber] at hhalf
  rw [IsLongHalf]
  omega

/-- Shifting the same byte again restores it if the one shift undoes the other. -/
theorem restores (first second : Shifting) (hmachine : second.machine = first.after)
    (hindex : second.index = first.index)
    (hundoes : ∀ value carry,
      second.kind.result (first.kind.result value carry) (first.kind.outgoing value) = value ∧
        second.kind.outgoing (first.kind.result value carry) = carry) :
    second.after.peek first.place = first.value ∧
      second.after.flags.carry = first.machine.flags.carry := by
  have hplace : second.place = first.place := by
    rw [place, hmachine, hindex, target_after]
  have hvalue : second.value = first.kind.result first.value first.machine.flags.carry := by
    rw [value, hplace, hmachine]
    exact first.result_eq
  have hcarry : second.machine.flags.carry = first.kind.outgoing first.value := by
    rw [hmachine, flags_after]
    rfl
  obtain ⟨hback, hout⟩ := hundoes first.value first.machine.flags.carry
  rw [← hvalue, ← hcarry] at hback
  rw [← hvalue] at hout
  rw [← hplace]
  constructor
  · exact second.result_eq.trans hback
  · rw [flags_after]
    exact hout

/-- The accumulator is about to be shifted, a carry having come in. -/
def carried (kind : Shift) (value : Byte) : Shifting where
  kind
  machine := { cpu.registers := (({} : Registers).setFlag .carry true).setByte .a value }
  index := 7
  zeroFlag := true

end Shifting

theorem Machine.shift_shift_restores {kind kind' : Shift}
    (hkinds : kind = .rl ∧ kind' = .rr ∨ kind = .rr ∧ kind' = .rl) (machine : Machine)
    (index : Nat) (zeroFlag zeroFlag' : Bool) :
    let after := (machine.shift kind (Slot.cell index).operand zeroFlag).shift kind'
      (Slot.cell index).operand zeroFlag'
    after.peek (machine.target index) = machine.peek (machine.target index) ∧
      after.flags.carry = machine.flags.carry := by
  let first : Shifting := { kind, machine, index, zeroFlag }
  let second : Shifting := { kind := kind', machine := first.after, index, zeroFlag := zeroFlag' }
  have hundoes (value : Byte) (carry : Bool) :
      kind'.result (kind.result value carry) (kind.outgoing value) = value ∧
        kind'.outgoing (kind.result value carry) = carry := by
    obtain ⟨rfl, rfl⟩ | ⟨rfl, rfl⟩ := hkinds
    · exact Shift.rr_rl value carry
    · exact Shift.rl_rr value carry
  exact Shifting.restores first second rfl rfl hundoes

namespace CarryChain

/-- Bytes worked on one after the other, the carry flag being left alone in between, make up long
sums, differences, doubles and halves, and the rotations by way of the carry undo each other. -/
theorem computes_long_numbers :
    (∀ rounds carry incoming final,
      CarryChain Accumulation.machine Accumulation.after carry rounds final →
        (Executes Accumulation.operation .add .adc carry rounds incoming →
          IsLongSum 256 BitVec.toNat Accumulation.result Accumulation.left Accumulation.right
            rounds incoming final) ∧
        (Executes Accumulation.operation .sub .sbc carry rounds incoming →
          IsLongDifference 256 BitVec.toNat Accumulation.result Accumulation.left
            Accumulation.right rounds incoming final)) ∧
    (∀ rounds carry incoming final,
      CarryChain Shifting.machine Shifting.after carry rounds final →
        (Executes Shifting.kind .sla .rl carry rounds incoming →
          Shifting.IsLongDouble rounds incoming final) ∧
        (Executes Shifting.kind .srl .rr carry rounds incoming → rounds ≠ [] →
          Shifting.IsLongHalf rounds incoming final)) ∧
    ∀ kind kind', (kind = .rl ∧ kind' = .rr ∨ kind = .rr ∧ kind' = .rl) →
      ∀ (machine : Machine) (index : Nat) (zeroFlag zeroFlag' : Bool),
        let after := (machine.shift kind (Slot.cell index).operand zeroFlag).shift kind'
          (Slot.cell index).operand zeroFlag'
        after.peek (machine.target index) = machine.peek (machine.target index) ∧
          after.flags.carry = machine.flags.carry := by
  refine ⟨?_, ?_, ?_⟩
  · intro rounds carry incoming final hchain
    exact ⟨Accumulation.isLongSum hchain, Accumulation.isLongDifference hchain⟩
  · intro rounds carry incoming final hchain
    exact ⟨Shifting.isLongDouble hchain, Shifting.isLongHalf hchain⟩
  · intro kind kind' hkinds machine index zeroFlag zeroFlag'
    exact machine.shift_shift_restores hkinds index zeroFlag zeroFlag'

theorem computes_long_numbers_selfCarried :
    let sum : List Accumulation := [.selfCarried .add 0x80, .selfCarried .adc 0x80]
    let half : List Shifting := [.carried .rr 0x81, .carried .rr 0x81]
    CarryChain Accumulation.machine Accumulation.after true sum true ∧
      Executes Accumulation.operation .add .adc true sum false ∧
      IsLongSum 256 BitVec.toNat Accumulation.result Accumulation.left Accumulation.right sum
        false true ∧
      CarryChain Shifting.machine Shifting.after true half true ∧
      Executes Shifting.kind .srl .rr true half true ∧ Shifting.IsLongHalf half true true := by
  intro sum half
  have hsum : CarryChain Accumulation.machine Accumulation.after true sum true :=
    .cons (by decide) (.cons (by decide) (.nil _))
  have hadds : Executes Accumulation.operation .add .adc true sum false :=
    .afresh (by decide) (by decide)
  have hhalf : CarryChain Shifting.machine Shifting.after true half true :=
    .cons (by decide) (.cons (by decide) (.nil _))
  have hrotates : Executes Shifting.kind .srl .rr true half true := .throughout (by decide)
  obtain ⟨hadd, hshift, -⟩ := computes_long_numbers
  exact ⟨hsum, hadds, (hadd sum true false true hsum).1 hadds, hhalf, hrotates,
    (hshift half true true true hhalf).2 hrotates (List.cons_ne_nil _ _)⟩

end CarryChain

end Sm83

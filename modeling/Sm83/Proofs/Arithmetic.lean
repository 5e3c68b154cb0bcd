import Mathlib.Algebra.Group.Int.Defs
import Mathlib.Algebra.Group.Nat.Defs
import Sm83.Arithmetic

/-!
# The arithmetic unit against integer arithmetic

What the outcomes of the arithmetic unit are as numbers, with the flags told by comparisons of the
inputs (`Outcome.IsSum`, `Outcome.IsDifference`) or bit by bit (`Outcome.IsBitwise`). The carry
flags come out of one observation: the exclusive or of two summands and their sum is the carry into
each place. A difference is the same equation, solved for one of the summands. Operations that have
no bit to spare and tell an overflow instead come to the same (`Outcome.add_eq_addInTurn`,
`Outcome.sub_eq_subInTurn`).
-/

namespace Sm83

/-! ### Carries -/

section Carries

variable {width index : Nat}

theorem toNat_carry (hwidth : 0 < width) (carry : Bool) :
    ((BitVec.ofBool carry).setWidth width).toNat = carry.toNat := by
  have hone : 1 < 2 ^ width := Nat.one_lt_two_pow (by omega)
  have hcarry : carry.toNat < 2 ^ width := Nat.lt_of_le_of_lt (Bool.toNat_le carry) hone
  rw [BitVec.toNat_setWidth, BitVec.toNat_ofBool, Nat.mod_eq_of_lt hcarry]

theorem toNat_add_carry (hwidth : 0 < width) (left right : BitVec width) (carry : Bool) :
    (left + right + (BitVec.ofBool carry).setWidth width).toNat =
      (left.toNat + right.toNat + carry.toNat) % 2 ^ width := by
  rw [BitVec.toNat_add, BitVec.toNat_add, Nat.mod_add_mod, toNat_carry hwidth]

theorem toNat_widen (value : BitVec width) : (value.setWidth (width + 1)).toNat = value.toNat :=
  BitVec.toNat_setWidth_of_le (Nat.le_succ width)

theorem setWidth_sub (hle : index ≤ width) (left right : BitVec width) :
    (left - right).setWidth index = left.setWidth index - right.setWidth index := by
  have hsum := BitVec.setWidth_add (left - right) right hle
  rw [BitVec.sub_add_cancel] at hsum
  rw [hsum, BitVec.add_sub_cancel]

/-- Subtracting a number and a borrow is undone by adding them. -/
theorem sub_add_carry (left right : BitVec width) (borrow : Bool) :
    left - right - (BitVec.ofBool borrow).setWidth width + right +
      (BitVec.ofBool borrow).setWidth width = left := by
  rw [BitVec.add_assoc, BitVec.add_comm right, ← BitVec.add_assoc, BitVec.sub_add_cancel,
    BitVec.sub_add_cancel]

/-- The exclusive or of both summands and the sum is the carry into each place. -/
theorem getLsbD_carries (hindex : index < width) (left right : BitVec width) (carry : Bool) :
    (left ^^^ right ^^^ (left + right + (BitVec.ofBool carry).setWidth width)).getLsbD index =
      decide (2 ^ index ≤ left.toNat % 2 ^ index + right.toNat % 2 ^ index + carry.toNat) := by
  have hcarry : BitVec.carry index left right carry =
      decide (2 ^ index ≤ left.toNat % 2 ^ index + right.toNat % 2 ^ index + carry.toNat) := rfl
  rw [BitVec.getLsbD_xor, BitVec.getLsbD_xor, BitVec.getLsbD_add_add_bool hindex, ← hcarry]
  cases left.getLsbD index <;> cases right.getLsbD index <;> simp

/-- A sum has a carry where it ends up below one of its summands. -/
theorem le_add_iff_lt_of_mod_eq {left right difference modulus carry : Nat}
    (hdifference : difference < modulus) (hright : right < modulus) (hcarry : carry ≤ 1)
    (hleft : left = (difference + right + carry) % modulus) :
    modulus ≤ difference + right + carry ↔ left < right + carry := by
  by_cases hfits : difference + right + carry < modulus
  · rw [Nat.mod_eq_of_lt hfits] at hleft
    omega
  · have hover : difference + right + carry - modulus < modulus := by omega
    rw [Nat.mod_eq_sub_mod (Nat.not_lt.mp hfits), Nat.mod_eq_of_lt hover] at hleft
    omega

/-- A difference is known up to multiples of the modulus of the sum. -/
theorem emod_eq_of_add_mod_eq {left right difference modulus carry : Nat}
    (hleft : (difference + right + carry) % (modulus * 2) = left) :
    ((difference % modulus : Nat) : Int) = (left - right - carry) % modulus := by
  have hquotient := Nat.div_add_mod (difference + right + carry) (modulus * 2)
  rw [hleft, Nat.mul_assoc] at hquotient
  generalize (difference + right + carry) / (modulus * 2) = quotient at hquotient
  have hcast : ((modulus * (2 * quotient) : Nat) : Int) = modulus * (2 * quotient : Nat) :=
    Int.natCast_mul modulus (2 * quotient)
  have hdifference : (difference : Int) =
      left - right - carry + modulus * (2 * quotient : Nat) := by omega
  rw [Int.natCast_emod, hdifference, Int.add_mul_emod_self_left]

/-- The exclusive or of both numbers and their difference is the borrow from each place. -/
theorem getLsbD_borrows (hindex : index < width) (left right : BitVec width) (borrow : Bool) :
    (left ^^^ right ^^^ (left - right - (BitVec.ofBool borrow).setWidth width)).getLsbD index =
      decide (left.toNat % 2 ^ index < right.toNat % 2 ^ index + borrow.toNat) := by
  -- The left number is a sum again, and the borrows are its carries.
  have hsum := sub_add_carry left right borrow
  generalize left - right - (BitVec.ofBool borrow).setWidth width = difference at hsum ⊢
  have hcarries := getLsbD_carries hindex difference right borrow
  rw [hsum] at hcarries
  rw [BitVec.xor_comm _ difference, BitVec.xor_comm left, ← BitVec.xor_assoc, hcarries,
    decide_eq_decide]
  have hpositive : 0 < 2 ^ index := Nat.two_pow_pos index
  have hdvd : 2 ^ index ∣ 2 ^ width := Nat.pow_dvd_pow 2 (Nat.le_of_lt hindex)
  apply le_add_iff_lt_of_mod_eq (Nat.mod_lt _ hpositive) (Nat.mod_lt _ hpositive)
    (Bool.toNat_le borrow)
  rw [← hsum, toNat_add_carry (Nat.zero_lt_of_lt hindex), Nat.mod_mod_of_dvd _ hdvd,
    Nat.add_mod (_ + _), Nat.add_mod difference.toNat, ← Nat.add_mod]

end Carries

namespace Outcome

variable {width : Nat}

/-- The outcome is that of adding two numbers and a carry. -/
structure IsSum (outcome : Outcome width) (left right : BitVec width) (carry : Bool) : Prop where
  value : outcome.value.toNat = (left.toNat + right.toNat + carry.toNat) % 2 ^ width
  zero : outcome.flags.zero = true ↔ outcome.value = 0
  subtract : outcome.flags.subtract = false
  halfCarry : outcome.flags.halfCarry = true ↔
    2 ^ (width - 4) ≤
      left.toNat % 2 ^ (width - 4) + right.toNat % 2 ^ (width - 4) + carry.toNat
  carry : outcome.flags.carry = true ↔ 2 ^ width ≤ left.toNat + right.toNat + carry.toNat

/-- The outcome is that of subtracting a number and a borrow from another number. -/
structure IsDifference (outcome : Outcome width) (left right : BitVec width) (borrow : Bool) :
    Prop where
  value : (outcome.value.toNat : Int) = (left.toNat - right.toNat - borrow.toNat) % 2 ^ width
  zero : outcome.flags.zero = true ↔ outcome.value = 0
  subtract : outcome.flags.subtract = true
  halfCarry : outcome.flags.halfCarry = true ↔
    left.toNat % 2 ^ (width - 4) < right.toNat % 2 ^ (width - 4) + borrow.toNat
  carry : outcome.flags.carry = true ↔ left.toNat < right.toNat + borrow.toNat

/-- The outcome is that of an operation on single bits, carried out in every place. -/
structure IsBitwise (outcome : Outcome width) (operation : Bool → Bool → Bool)
    (left right : BitVec width) (halfCarry : Bool) : Prop where
  value : ∀ index < width,
    outcome.value.getLsbD index = operation (left.getLsbD index) (right.getLsbD index)
  zero : outcome.flags.zero = true ↔ outcome.value = 0
  subtract : outcome.flags.subtract = false
  halfCarry : outcome.flags.halfCarry = halfCarry
  carry : outcome.flags.carry = false

theorem isSum_add (left right : BitVec width) (carry : Bool) :
    (add left right carry).IsSum left right carry := by
  have hcarries {index : Nat} (hindex : index < width + 1) :=
    getLsbD_carries hindex (left.setWidth (width + 1)) (right.setWidth (width + 1)) carry
  rw [toNat_widen, toNat_widen] at hcarries
  have hhalf : (add left right carry).flags.halfCarry = _ :=
    hcarries (Nat.lt_succ_of_le (Nat.sub_le width 4))
  have hcarry : (add left right carry).flags.carry = _ := hcarries (Nat.lt_succ_self width)
  rw [Nat.mod_eq_of_lt left.isLt, Nat.mod_eq_of_lt right.isLt] at hcarry
  refine ⟨?_, beq_iff_eq, rfl, ?_, ?_⟩
  · have hdvd : 2 ^ width ∣ 2 ^ (width + 1) := Nat.pow_dvd_pow 2 (Nat.le_succ width)
    have hwide := toNat_add_carry (Nat.succ_pos width) (left.setWidth (width + 1))
      (right.setWidth (width + 1)) carry
    rw [toNat_widen, toNat_widen] at hwide
    change (BitVec.setWidth width _).toNat = _
    rw [BitVec.toNat_setWidth, hwide, Nat.mod_mod_of_dvd _ hdvd]
  · rw [hhalf, decide_eq_true_iff]
  · rw [hcarry, decide_eq_true_iff]

theorem isDifference_sub (left right : BitVec width) (borrow : Bool) :
    (sub left right borrow).IsDifference left right borrow := by
  have hborrows {index : Nat} (hindex : index < width + 1) :=
    getLsbD_borrows hindex (left.setWidth (width + 1)) (right.setWidth (width + 1)) borrow
  rw [toNat_widen, toNat_widen] at hborrows
  have hhalf : (sub left right borrow).flags.halfCarry = _ :=
    hborrows (Nat.lt_succ_of_le (Nat.sub_le width 4))
  have hcarry : (sub left right borrow).flags.carry = _ := hborrows (Nat.lt_succ_self width)
  rw [Nat.mod_eq_of_lt left.isLt, Nat.mod_eq_of_lt right.isLt] at hcarry
  refine ⟨?_, beq_iff_eq, rfl, ?_, ?_⟩
  · have hsum := sub_add_carry (left.setWidth (width + 1)) (right.setWidth (width + 1)) borrow
    change ((BitVec.setWidth width (_ - _ - _)).toNat : Int) = _
    generalize left.setWidth (width + 1) - right.setWidth (width + 1) -
      (BitVec.ofBool borrow).setWidth (width + 1) = wide at hsum ⊢
    have hwide := congrArg BitVec.toNat hsum
    rw [toNat_add_carry (Nat.succ_pos width), toNat_widen, toNat_widen] at hwide
    rw [Nat.pow_succ] at hwide
    rw [BitVec.toNat_setWidth, emod_eq_of_add_mod_eq hwide, Int.natCast_pow]
    rfl
  · rw [hhalf, decide_eq_true_iff]
  · rw [hcarry, decide_eq_true_iff]

/-- A sum and its carry lose nothing. -/
theorem IsSum.value_add_carry {outcome : Outcome width} {left right : BitVec width} {carry : Bool}
    (hsum : outcome.IsSum left right carry) :
    outcome.value.toNat + 2 ^ width * outcome.flags.carry.toNat =
      left.toNat + right.toNat + carry.toNat := by
  have hleft := left.isLt
  have hright := right.isLt
  have hcarry := Bool.toNat_le carry
  rw [hsum.value]
  by_cases hover : 2 ^ width ≤ left.toNat + right.toNat + carry.toNat
  · have hrest : left.toNat + right.toNat + carry.toNat - 2 ^ width < 2 ^ width := by omega
    rw [hsum.carry.mpr hover, Nat.mod_eq_sub_mod hover, Nat.mod_eq_of_lt hrest, Bool.toNat_true]
    omega
  · have hflag : outcome.flags.carry = false := Bool.eq_false_iff.mpr (mt hsum.carry.mp hover)
    rw [hflag, Nat.mod_eq_of_lt (Nat.not_le.mp hover)]
    rfl

/-- A difference and its borrow lose nothing. -/
theorem IsDifference.value_add_borrow {outcome : Outcome width} {left right : BitVec width}
    {borrow : Bool} (hdifference : outcome.IsDifference left right borrow) :
    left.toNat + 2 ^ width * outcome.flags.carry.toNat =
      outcome.value.toNat + right.toNat + borrow.toNat := by
  have hleft := left.isLt
  have hright := right.isLt
  have hborrow := Bool.toNat_le borrow
  have hvalue := hdifference.value
  have hcast : ((2 ^ width : Nat) : Int) = 2 ^ width := Int.natCast_pow 2 width
  rw [← hcast] at hvalue
  by_cases hunder : left.toNat < right.toNat + borrow.toNat
  · have hwrapped := Int.add_mul_emod_self_right (left.toNat - right.toNat - borrow.toNat) 1
      ((2 ^ width : Nat) : Int)
    rw [Int.emod_eq_of_lt (by omega) (by omega)] at hwrapped
    rw [hdifference.carry.mpr hunder, Bool.toNat_true]
    omega
  · have hflag : outcome.flags.carry = false :=
      Bool.eq_false_iff.mpr (mt hdifference.carry.mp hunder)
    rw [Int.emod_eq_of_lt (by omega) (by omega)] at hvalue
    rw [hflag, Bool.toNat_false]
    omega

theorem isBitwise_logic {operation : Bool → Bool → Bool} {left right value : BitVec width}
    (hvalue : ∀ index < width,
      value.getLsbD index = operation (left.getLsbD index) (right.getLsbD index))
    (halfCarry : Bool) : (logic value halfCarry).IsBitwise operation left right halfCarry :=
  ⟨hvalue, beq_iff_eq, rfl, rfl, rfl⟩

/-! ### One number after the other

The same outcomes without a bit to spare: first one number is added or subtracted and then the
carry, and the carry flag tells whether either of the two does not fit. -/

/-- The sum, if it fits. -/
def checkedAdd (left right : BitVec width) : Option (BitVec width) :=
  if left.uaddOverflow right then none else some (left + right)

/-- The difference, if there is one. -/
def checkedSub (left right : BitVec width) : Option (BitVec width) :=
  if left.usubOverflow right then none else some (left - right)

def addInTurn (left right : BitVec width) (carry : Bool) : Outcome width :=
  let bit := (BitVec.ofBool carry).setWidth width
  let value := left + right + bit
  { value
    flags :=
      { zero := value == 0
        subtract := false
        halfCarry := (left ^^^ right ^^^ value).getLsbD (width - 4)
        carry := ((checkedAdd left right).bind (checkedAdd · bit)).isNone } }

def subInTurn (left right : BitVec width) (borrow : Bool) : Outcome width :=
  let bit := (BitVec.ofBool borrow).setWidth width
  let value := left - right - bit
  { value
    flags :=
      { zero := value == 0
        subtract := true
        halfCarry := (left ^^^ right ^^^ value).getLsbD (width - 4)
        carry := ((checkedSub left right).bind (checkedSub · bit)).isNone } }

section InTurn

variable {left right value : BitVec width}

/-- The half-carry flag does not depend on the bit to spare. -/
theorem halfCarry_ofWide (hwidth : 0 < width) (left right : BitVec width)
    (wide : BitVec (width + 1)) (subtract : Bool) :
    (ofWide left right wide subtract).flags.halfCarry =
      (left ^^^ right ^^^ wide.setWidth width).getLsbD (width - 4) := by
  have hindex : width - 4 < width := by omega
  have hwide : width - 4 < width + 1 := by omega
  simp only [ofWide, BitVec.getLsbD_xor, BitVec.getLsbD_setWidth, decide_eq_true hindex,
    decide_eq_true hwide, Bool.true_and]

theorem isNone_checkedAdd_iff : (checkedAdd left right).isNone = true ↔
    2 ^ width ≤ left.toNat + right.toNat := by
  simp [checkedAdd, BitVec.uaddOverflow]

theorem toNat_of_checkedAdd (hadd : checkedAdd left right = some value) :
    value.toNat = left.toNat + right.toNat := by
  rw [checkedAdd] at hadd
  split at hadd
  · cases hadd
  · next hfits =>
    cases hadd
    exact BitVec.toNat_add_of_not_uaddOverflow hfits

theorem isNone_checkedSub_iff : (checkedSub left right).isNone = true ↔
    left.toNat < right.toNat := by
  simp [checkedSub, BitVec.usubOverflow]

theorem toNat_of_checkedSub (hsub : checkedSub left right = some value) :
    value.toNat + right.toNat = left.toNat := by
  rw [checkedSub] at hsub
  split at hsub
  · cases hsub
  · next hfits =>
    cases hsub
    have hle : ¬ left.toNat < right.toNat := fun hlt => hfits (decide_eq_true hlt)
    rw [BitVec.toNat_sub_of_not_usubOverflow hfits]
    omega

/-- One of the additions overflows if and only if both together do. -/
theorem carry_addInTurn (hwidth : 0 < width) (left right : BitVec width) (carry : Bool) :
    (addInTurn left right carry).flags.carry = true ↔
      2 ^ width ≤ left.toNat + right.toNat + carry.toNat := by
  simp only [addInTurn]
  cases hfirst : checkedAdd left right with
  | none =>
    have hover := isNone_checkedAdd_iff.mp (Option.isNone_iff_eq_none.mpr hfirst)
    simp only [Option.bind_none, Option.isNone_none, true_iff]
    omega
  | some sum =>
    rw [Option.bind_some, isNone_checkedAdd_iff, toNat_of_checkedAdd hfirst, toNat_carry hwidth]

theorem carry_subInTurn (hwidth : 0 < width) (left right : BitVec width) (borrow : Bool) :
    (subInTurn left right borrow).flags.carry = true ↔
      left.toNat < right.toNat + borrow.toNat := by
  simp only [subInTurn]
  cases hfirst : checkedSub left right with
  | none =>
    have hunder := isNone_checkedSub_iff.mp (Option.isNone_iff_eq_none.mpr hfirst)
    simp only [Option.bind_none, Option.isNone_none, true_iff]
    omega
  | some difference =>
    have hdifference := toNat_of_checkedSub hfirst
    rw [Option.bind_some, isNone_checkedSub_iff, toNat_carry hwidth]
    omega

theorem add_eq_addInTurn (hwidth : 0 < width) (left right : BitVec width) (carry : Bool) :
    add left right carry = addInTurn left right carry := by
  have hvalue : (add left right carry).value = (addInTurn left right carry).value := by
    simp only [add, ofWide, addInTurn, BitVec.setWidth_add _ _ (Nat.le_succ width),
      BitVec.setWidth_setWidth_of_le _ (Nat.le_succ width), BitVec.setWidth_eq]
  refine Outcome.ext hvalue (Flags.ext (congrArg (· == 0) hvalue) rfl ?_ ?_)
  · rw [add, halfCarry_ofWide hwidth]
    exact congrArg (fun value => (left ^^^ right ^^^ value).getLsbD (width - 4)) hvalue
  · rw [Bool.eq_iff_iff, (isSum_add left right carry).carry, carry_addInTurn hwidth]

theorem sub_eq_subInTurn (hwidth : 0 < width) (left right : BitVec width) (borrow : Bool) :
    sub left right borrow = subInTurn left right borrow := by
  have hvalue : (sub left right borrow).value = (subInTurn left right borrow).value := by
    simp only [sub, ofWide, subInTurn, setWidth_sub (Nat.le_succ width),
      BitVec.setWidth_setWidth_of_le _ (Nat.le_succ width), BitVec.setWidth_eq]
  refine Outcome.ext hvalue (Flags.ext (congrArg (· == 0) hvalue) rfl ?_ ?_)
  · rw [sub, halfCarry_ofWide hwidth]
    exact congrArg (fun value => (left ^^^ right ^^^ value).getLsbD (width - 4)) hvalue
  · rw [Bool.eq_iff_iff, (isDifference_sub left right borrow).carry, carry_subInTurn hwidth]

end InTurn

end Outcome

end Sm83

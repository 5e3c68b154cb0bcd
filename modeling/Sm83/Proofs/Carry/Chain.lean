import Mathlib.Data.Nat.Digits.Defs
import Mathlib.Tactic.Ring
import Sm83.Proofs.Arithmetic
import Sm83.Proofs.Operand

/-!
# Chains of carries

A long number is worked on in rounds, a byte in each, and all that one round hands on to the next is
the carry flag: whatever else a program does in between, a `CarryChain` is what remains of it. If
every round accounts for its carry in its own digit, the chain does so in the whole number, from the
least significant digit upwards or from the most significant one downwards. A first round that does
not look at the flag acts as if it were clear (`CarryChain.Executes`).
-/

namespace Sm83

/-- The number whose digits the bytes denote, the least significant one coming first. -/
def numeral (base : Nat) (digit : Byte → Nat) (bytes : List Byte) : Nat :=
  Nat.ofDigits base (bytes.map digit)

section Numeral

variable {base : Nat} {digit : Byte → Nat}

theorem numeral_cons (byte : Byte) (bytes : List Byte) :
    numeral base digit (byte :: bytes) = digit byte + base * numeral base digit bytes := by
  rw [numeral, List.map_cons, Nat.ofDigits_cons]
  rfl

theorem numeral_reverse_cons (byte : Byte) (bytes : List Byte) :
    numeral base digit (byte :: bytes).reverse =
      numeral base digit bytes.reverse + base ^ bytes.length * digit byte := by
  rw [numeral, numeral, List.map_reverse, List.map_reverse, List.map_cons,
    Nat.ofDigits_reverse_cons, List.length_map]

end Numeral

section Chain

variable {Round : Type} {before after : Round → Machine}

/-- In the first of the rounds the carry flag is `carry` to begin with, in each of the others what
it was after the one before, and after the last it is `final`. -/
inductive CarryChain (before after : Round → Machine) : Bool → List Round → Bool → Prop
  | nil (carry : Bool) : CarryChain before after carry [] carry
  | cons {carry final : Bool} {round : Round} {rounds : List Round}
      (hcarry : (before round).flags.carry = carry)
      (hrounds : CarryChain before after (after round).flags.carry rounds final) :
      CarryChain before after carry (round :: rounds) final

namespace CarryChain

/-- Every round executes `step` and the carry that goes in is the flag, or the first one executes
`fresh` and none goes in. -/
inductive Executes {Operation : Type} (operation : Round → Operation) (fresh step : Operation)
    (carry : Bool) : List Round → Bool → Prop
  | throughout {rounds : List Round} (hrounds : ∀ round ∈ rounds, operation round = step) :
      Executes operation fresh step carry rounds carry
  | afresh {first : Round} {rest : List Round} (hfirst : operation first = fresh)
      (hrest : ∀ round ∈ rest, operation round = step) :
      Executes operation fresh step carry (first :: rest) false

variable {Operation : Type} {operation : Round → Operation} {fresh step : Operation}
  {carry final incoming : Bool} {first : Round} {rounds rest : List Round} {base : Nat}

theorem tail (hchain : CarryChain before after carry (first :: rest) final) :
    CarryChain before after (after first).flags.carry rest final := by
  cases hchain with
  | cons hcarry hrest => exact hrest

/-! ### From the least significant digit -/

section Sum

variable {digit : Byte → Nat} {result left right : Round → Byte}

/-- The round adds a digit of one number and a carry to the same digit of another. -/
def AddsDigit (after : Round → Machine) (base : Nat) (digit : Byte → Nat)
    (result left right : Round → Byte) (carry : Bool) (round : Round) : Prop :=
  digit (result round) + base * (after round).flags.carry.toNat =
    digit (left round) + digit (right round) + carry.toNat

/-- The results and the last carry are the sum of two numbers and the first carry. -/
def IsLongSum (base : Nat) (digit : Byte → Nat) (result left right : Round → Byte)
    (rounds : List Round) (carry final : Bool) : Prop :=
  numeral base digit (rounds.map result) + base ^ rounds.length * final.toNat =
    numeral base digit (rounds.map left) + numeral base digit (rounds.map right) + carry.toNat

/-- The results and the last borrow are the difference of two numbers and the first borrow. -/
def IsLongDifference (base : Nat) (digit : Byte → Nat) (result left right : Round → Byte)
    (rounds : List Round) (borrow final : Bool) : Prop :=
  (numeral base digit (rounds.map result) : Int) - (base : Int) ^ rounds.length * final.toNat =
    numeral base digit (rounds.map left) - numeral base digit (rounds.map right) - borrow.toNat

/-- A difference is the number that has to be added. -/
theorem IsLongSum.isLongDifference
    (hsum : IsLongSum base digit left result right rounds carry final) :
    IsLongDifference base digit result left right rounds carry final := by
  have hcast : ((base ^ rounds.length * final.toNat : Nat) : Int) =
      (base : Int) ^ rounds.length * final.toNat := by push_cast; rfl
  rw [IsLongSum] at hsum
  rw [IsLongDifference, ← hcast]
  omega

theorem isLongSum_cons (hfirst : AddsDigit after base digit result left right incoming first)
    (hrest : IsLongSum base digit result left right rest (after first).flags.carry final) :
    IsLongSum base digit result left right (first :: rest) incoming final := by
  rw [AddsDigit] at hfirst
  rw [IsLongSum] at hrest
  simp only [IsLongSum, List.map_cons, List.length_cons, numeral_cons]
  calc digit (result first) + base * numeral base digit (rest.map result) +
        base ^ (rest.length + 1) * final.toNat
      = digit (result first) + base *
          (numeral base digit (rest.map result) + base ^ rest.length * final.toNat) := by ring
    _ = digit (result first) + base * (after first).flags.carry.toNat +
          base * (numeral base digit (rest.map left) + numeral base digit (rest.map right)) := by
        rw [hrest]
        ring
    _ = _ := by
        rw [hfirst]
        ring

theorem isLongSum (hchain : CarryChain before after carry rounds final)
    (hrounds : ∀ round ∈ rounds,
      AddsDigit after base digit result left right (before round).flags.carry round) :
    IsLongSum base digit result left right rounds carry final := by
  induction hchain with
  | nil carry => simp [IsLongSum, numeral]
  | cons hcarry hrest ih =>
    obtain ⟨hfirst, hrounds⟩ := List.forall_mem_cons.mp hrounds
    rw [hcarry] at hfirst
    exact isLongSum_cons hfirst (ih hrounds)

theorem isLongSum_of_executes (hchain : CarryChain before after carry rounds final)
    (hexecutes : Executes operation fresh step carry rounds incoming)
    (hstep : ∀ round, operation round = step →
      AddsDigit after base digit result left right (before round).flags.carry round)
    (hfresh : ∀ round, operation round = fresh →
      AddsDigit after base digit result left right false round) :
    IsLongSum base digit result left right rounds incoming final := by
  cases hexecutes with
  | throughout hrounds => exact hchain.isLongSum fun round hmem => hstep round (hrounds round hmem)
  | afresh hfirst hrest =>
    have htail := hchain.tail.isLongSum fun round hmem => hstep round (hrest round hmem)
    exact isLongSum_cons (hfresh _ hfirst) htail

end Sum

/-! ### From the most significant digit -/

section Half

variable {digit : Byte → Nat} {result value : Round → Byte}

/-- The round halves a digit, a carry that comes in being worth a whole base. -/
def HalvesDigit (after : Round → Machine) (base : Nat) (digit : Byte → Nat)
    (result value : Round → Byte) (carry : Bool) (round : Round) : Prop :=
  2 * digit (result round) + (after round).flags.carry.toNat =
    digit (value round) + base * carry.toNat

/-- The results are half a number that the first carry is the top of, and the last carry is what is
left over. -/
def HalvesNumber (base : Nat) (digit : Byte → Nat) (result value : Round → Byte)
    (rounds : List Round) (carry final : Bool) : Prop :=
  2 * numeral base digit (rounds.map result).reverse + final.toNat =
    numeral base digit (rounds.map value).reverse + base ^ rounds.length * carry.toNat

theorem halvesNumber_cons (hfirst : HalvesDigit after base digit result value incoming first)
    (hrest : HalvesNumber base digit result value rest (after first).flags.carry final) :
    HalvesNumber base digit result value (first :: rest) incoming final := by
  rw [HalvesDigit] at hfirst
  rw [HalvesNumber] at hrest
  simp only [HalvesNumber, List.map_cons, List.length_cons, numeral_reverse_cons, List.length_map]
  calc 2 * (numeral base digit (rest.map result).reverse +
        base ^ rest.length * digit (result first)) + final.toNat
      = 2 * numeral base digit (rest.map result).reverse + final.toNat +
          base ^ rest.length * (2 * digit (result first)) := by ring
    _ = numeral base digit (rest.map value).reverse +
          base ^ rest.length *
            (2 * digit (result first) + (after first).flags.carry.toNat) := by
        rw [hrest]
        ring
    _ = _ := by
        rw [hfirst]
        ring

theorem halvesNumber (hchain : CarryChain before after carry rounds final)
    (hrounds : ∀ round ∈ rounds,
      HalvesDigit after base digit result value (before round).flags.carry round) :
    HalvesNumber base digit result value rounds carry final := by
  induction hchain with
  | nil carry => simp [HalvesNumber, numeral]
  | cons hcarry hrest ih =>
    obtain ⟨hfirst, hrounds⟩ := List.forall_mem_cons.mp hrounds
    rw [hcarry] at hfirst
    exact halvesNumber_cons hfirst (ih hrounds)

theorem halvesNumber_of_executes (hchain : CarryChain before after carry rounds final)
    (hexecutes : Executes operation fresh step carry rounds incoming)
    (hstep : ∀ round, operation round = step →
      HalvesDigit after base digit result value (before round).flags.carry round)
    (hfresh : ∀ round, operation round = fresh →
      HalvesDigit after base digit result value false round) :
    HalvesNumber base digit result value rounds incoming final := by
  cases hexecutes with
  | throughout hrounds =>
    exact hchain.halvesNumber fun round hmem => hstep round (hrounds round hmem)
  | afresh hfirst hrest =>
    have htail := hchain.tail.halvesNumber fun round hmem => hstep round (hrest round hmem)
    exact halvesNumber_cons (hfresh _ hfirst) htail

end Half

end CarryChain

end Chain

/-! ### Rounds on the accumulator -/

namespace Machine

/-- Puts an outcome into the flags and the accumulator. -/
def accumulate (machine : Machine) (outcome : Outcome 8) : Machine :=
  (machine.setFlags outcome.flags).setByte .a outcome.value

variable (machine : Machine) (outcome : Outcome 8)

theorem flags_accumulate : (machine.accumulate outcome).flags = outcome.flags :=
  (Registers.flags_setByte_of_ne (by decide) _ _).trans (Registers.flags_setFlags _ _)

theorem byte_accumulate : (machine.accumulate outcome).byte .a = outcome.value :=
  Registers.byte_setByte_self _ _ _

end Machine

/-- A machine about to combine the accumulator with a byte, which it may fetch, or find in a
register or in memory. -/
structure Accumulation where
  operation : Binary
  machine : Machine
  source : Operand 8
  isPlain_source : source.isPlain = true

namespace Accumulation

variable (round : Accumulation)

def left : Byte := round.machine.byte .a

def right : Byte := (round.source.read round.machine).value

def after : Machine := round.machine.binary round.operation (.byteRegister .a) round.source

def result : Byte := round.after.byte .a

def outcome : Outcome 8 := round.operation.apply round.left round.right round.machine.flags.carry

theorem after_eq :
    round.after = (round.source.read round.machine).machine.accumulate round.outcome := by
  rw [outcome, ← Operand.flags_read round.isPlain_source round.machine]
  rfl

theorem flags_after : round.after.flags = round.outcome.flags := by
  rw [after_eq, Machine.flags_accumulate]

theorem result_eq : round.result = round.outcome.value := by
  rw [result, after_eq, Machine.byte_accumulate]

theorem outcome_of_operation_eq {round : Accumulation} {operation : Binary}
    (hoperation : round.operation = operation) :
    round.outcome = operation.apply round.left round.right round.machine.flags.carry := by
  rw [outcome, hoperation]

theorem isSum_of_adc {round : Accumulation} (hoperation : round.operation = .adc) :
    round.outcome.IsSum round.left round.right round.machine.flags.carry := by
  rw [outcome_of_operation_eq hoperation]
  exact Outcome.isSum_add round.left round.right round.machine.flags.carry

theorem isDifference_of_sbc {round : Accumulation} (hoperation : round.operation = .sbc) :
    round.outcome.IsDifference round.left round.right round.machine.flags.carry := by
  rw [outcome_of_operation_eq hoperation]
  exact Outcome.isDifference_sub round.left round.right round.machine.flags.carry

/-- A byte is about to be combined with itself, a carry having come in. -/
def selfCarried (operation : Binary) (value : Byte) : Accumulation where
  operation
  machine :=
    { cpu.registers := ((({} : Registers).setFlag .carry true).setByte .a value).setByte .b value }
  source := .byteRegister .b
  isPlain_source := rfl

end Accumulation

end Sm83

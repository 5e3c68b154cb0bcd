import Sm83.Machine

/-!
# Conditions

The conditions a jump, call or return may depend on. All but one test a flag, for being set or for
being clear. Those that test for a set flag can also be assigned, which writes the flag; assigning
another condition changes nothing.
-/

namespace Sm83

inductive Condition where
  | zero
  | notZero
  | subtract
  | halfCarry
  | carry
  | notCarry
  | always
  deriving DecidableEq

namespace Condition

/-- The flag tested. -/
def flag? : Condition → Option Flag
  | .zero | .notZero => some .zero
  | .subtract => some .subtract
  | .halfCarry => some .halfCarry
  | .carry | .notCarry => some .carry
  | .always => none

/-- Whether the condition holds when its flag is clear. -/
def isNegated : Condition → Bool
  | .notZero | .notCarry => true
  | _ => false

def holds (condition : Condition) (flags : Flags) : Bool :=
  match condition.flag? with
  | some flag => flags.get flag != condition.isNegated
  | none => true

def assign (condition : Condition) (value : Bool) (machine : Machine) : Machine :=
  match condition.flag?, condition.isNegated with
  | some flag, false => machine.setFlag flag value
  | _, _ => machine

end Condition

def Machine.satisfies (machine : Machine) (condition : Condition) : Bool :=
  condition.holds machine.flags

end Sm83

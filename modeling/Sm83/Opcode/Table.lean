import Sm83.Opcode.Base

/-!
# The opcode tables

Both descriptions, laid out as tables of 256 entries so that decoding is a lookup. An entry of a
table is the description of its opcode, and a lookup is never unfolded to anything else.
-/

namespace Sm83

namespace Opcode

def baseTable : Vector Opcode 256 := Vector.ofFn fun index => describeBase (BitVec.ofFin index)

def extendedTable : Vector Opcode 256 :=
  Vector.ofFn fun index => describeExtended (BitVec.ofFin index)

/-- The opcode a first byte stands for. -/
def base (opcode : Byte) : Opcode := baseTable[opcode.toFin]

/-- The opcode a byte after the prefix stands for. -/
def extended (opcode : Byte) : Opcode := extendedTable[opcode.toFin]

theorem base_eq_describeBase (opcode : Byte) : base opcode = describeBase opcode := by
  simp [base, baseTable]

theorem extended_eq_describeExtended (opcode : Byte) :
    extended opcode = describeExtended opcode := by
  simp [extended, extendedTable]

attribute [irreducible] base extended

end Opcode

end Sm83

import Sm83.Arithmetic
import Sm83.Condition
import Sm83.Operand

/-!
# Instructions

What the processor can be told to do, with the operands spelled out. An instruction is more general
than the opcodes that encode one: its operands are arbitrary, so the effect of an instruction is
described once and every encoding of it is an instance.
-/

namespace Sm83

inductive Instruction where
  | nop
  /-- What an opcode without a meaning of its own does: nothing. -/
  | undefined
  | ld {width : Nat} (target source : Operand width)
  | binary {width : Nat} (operation : Binary) (target source : Operand width)
  | inc (target : Operand 8)
  | dec (target : Operand 8)
  | shift (kind : Shift) (target : Operand 8) (zeroFlag : Bool)
  | swap (target : Operand 8)
  | bit (index : Fin 8) (source : Operand 8)
  | set (index : Fin 8) (target : Operand 8)
  | res (index : Fin 8) (target : Operand 8)
  | incWord (target : Operand 16)
  | decWord (target : Operand 16)
  | addToHl (source : Operand 16)
  | addToSp
  | ldHlSpOffset
  | ldSpHl
  | daa
  | cpl
  | scf
  | ccf
  | push (source : Operand 16)
  | pop (target : Operand 16)
  | jp (condition : Condition) (target : Operand 16)
  | jpHl
  | jr (condition : Condition)
  | call (condition : Condition)
  | ret (condition : Condition)
  | reti
  | rst (target : Operand 16)
  | stop
  | halt
  | ei
  | di

end Sm83

import Sm83.Block
import Sm83.Machine.Step

/-!
# Events

What a trace of the machine reports, besides the effects themselves: oddities in the program, the
ends of runs, loads of images, and what happens to compiled blocks. An event has a level, a message
and named fields.
-/

namespace Sm83

inductive Level where
  | warn
  | debug
  | trace
  deriving DecidableEq

def Level.name : Level → String
  | .warn => "WARN"
  | .debug => "DEBUG"
  | .trace => "TRACE"

inductive Event where
  | undefinedOpcode (opcode : Byte) (address : Word)
  | stopped (pc : Word) (cycles : Nat)
  | halted (pc : Word) (cycles : Nat)
  | budgetSpent (cycles : Nat)
  | loadedImage (length dropped : Nat)
  | loadedStream (length : Nat)
  | compiledBlock (start : Word) (instructions length : Nat)
  | blockChanged (start : Word)
  | invalidatedBlock (start : Word)
  | invalidatedRange (first last : Word) (dropped : Nat)
  | leftCompiledCode (exit : Exit) (cycles : Nat)
  deriving DecidableEq

inductive Event.Field where
  | number (value : Nat)
  | text (value : String)

namespace Event

def level : Event → Level
  | .undefinedOpcode .. => .warn
  | .stopped .. | .halted .. | .loadedImage .. | .loadedStream .. | .compiledBlock .. => .debug
  | .budgetSpent .. | .blockChanged .. | .invalidatedBlock .. | .invalidatedRange ..
  | .leftCompiledCode .. => .trace

def message : Event → String
  | .undefinedOpcode .. => "undefined opcode executed as a no-op"
  | .stopped .. => "cpu stopped"
  | .halted .. => "cpu halted"
  | .budgetSpent .. => "cycle budget spent"
  | .loadedImage .. => "loaded image"
  | .loadedStream .. => "loaded image from stream"
  | .compiledBlock .. => "compiled block"
  | .blockChanged .. => "block code changed, recompiling"
  | .invalidatedBlock .. => "invalidated block"
  | .invalidatedRange .. => "invalidated range"
  | .leftCompiledCode .. => "leaving compiled code"

def fields : Event → List (String × Field)
  | .undefinedOpcode opcode address =>
    [("opcode", .number opcode.toNat), ("address", .number address.toNat)]
  | .stopped pc cycles | .halted pc cycles =>
    [("pc", .number pc.toNat), ("cycles", .number cycles)]
  | .budgetSpent cycles => [("cycles", .number cycles)]
  | .loadedImage length dropped => [("length", .number length), ("dropped", .number dropped)]
  | .loadedStream length => [("length", .number length)]
  | .compiledBlock start instructions length =>
    [("start", .number start.toNat), ("instructions", .number instructions),
      ("length", .number length)]
  | .blockChanged start | .invalidatedBlock start => [("start", .number start.toNat)]
  | .invalidatedRange first last dropped =>
    [("first", .number first.toNat), ("last", .number last.toNat), ("dropped", .number dropped)]
  | .leftCompiledCode exit cycles => [("exit", .text exit.name), ("cycles", .number cycles)]

end Event

end Sm83

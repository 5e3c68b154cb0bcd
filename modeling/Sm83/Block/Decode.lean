import Sm83.Block

/-!
# Decoding and discovering blocks

`Block.decode` cuts given bytes into instructions and accepts them only when they are exactly one
basic block, naming the first defect otherwise. `Block.discover` reads a block out of memory: it
takes instructions until one ends the block, or until there are as many as a block may have, and
decodes their bytes. The second byte of an extended opcode never ends a block, whatever it would
mean as a first byte.
-/

namespace Sm83

/-- What follows the first `count` elements, if there are that many. -/
def dropExactly? {α : Type} : Nat → List α → Option (List α)
  | 0, rest => some rest
  | _ + 1, [] => none
  | count + 1, _ :: rest => dropExactly? count rest

theorem length_of_dropExactly? {α : Type} {count : Nat} {elements rest : List α}
    (hdrop : dropExactly? count elements = some rest) : elements.length = count + rest.length := by
  induction count generalizing elements with
  | zero =>
    cases hdrop
    simp
  | succ count ih =>
    cases elements with
    | nil => cases hdrop
    | cons _ elements =>
      have hlength := ih hdrop
      simp only [List.length_cons, hlength]
      omega

/-- Cuts the first instruction off a run of bytes, unless the bytes end inside it. -/
def Decoded.cut? (address : Word) (bytes : List Byte) : Option (Decoded × List Byte) :=
  match bytes with
  | [] => none
  | first :: rest =>
    if first = Opcode.extensionPrefix then
      match rest with
      | [] => none
      | second :: rest => some (⟨address, Opcode.extended second, true⟩, rest)
    else
      let opcode := Opcode.base first
      (dropExactly? (opcode.length - 1) rest).map (⟨address, opcode, false⟩, ·)

theorem Decoded.length_lt_of_cut? {address : Word} {bytes rest : List Byte} {decoded : Decoded}
    (hcut : cut? address bytes = some (decoded, rest)) : rest.length < bytes.length := by
  match bytes with
  | [] => cases hcut
  | first :: tail =>
    simp only [cut?] at hcut
    split at hcut
    · match tail with
      | [] => cases hcut
      | second :: tail =>
        cases hcut
        simp only [List.length_cons]
        omega
    · obtain ⟨dropped, hdropped, hpair⟩ := Option.map_eq_some_iff.mp hcut
      cases hpair
      have hlength := length_of_dropExactly? hdropped
      simp only [List.length_cons]
      omega

namespace Block

/-- The instructions of a block whose bytes start at `address`, following those already `done`,
which are kept last first. -/
def decodeFrom (address : Word) (bytes : List Byte) (done : List Decoded) :
    Except BlockError (List Decoded) :=
  if bytes.isEmpty then .ok done.reverse
  else
    match _hcut : Decoded.cut? address bytes with
    | none => .error (.truncated address)
    | some (decoded, rest) =>
      let next := address + BitVec.ofNat 16 decoded.opcode.length
      if decoded.opcode.endsBlock then
        if rest.isEmpty then .ok (decoded :: done).reverse else .error (.trailing next)
      else decodeFrom next rest (decoded :: done)
termination_by bytes.length
decreasing_by exact Decoded.length_lt_of_cut? _hcut

/-- The block at `start` that consists of exactly these bytes. -/
def decode (start : Word) (bytes : List Byte) : Except BlockError Block :=
  if bytes.isEmpty then .error (.empty start)
  else (decodeFrom start bytes []).map fun instructions => { start, bytes, instructions }

end Block

/-- The opcode at an address of memory. -/
def Opcode.inMemory (memory : Memory) (address : Word) : Opcode :=
  let first := memory.get address
  if first = extensionPrefix then extended (memory.get (address + 1)) else base first

namespace Block

/-- The most instructions a discovered block has. -/
def maxInstructions : Nat := 64

/-- The bytes of the instructions in memory from `address` on, up to the first that ends a block but
no more than `count` instructions. -/
def scan (memory : Memory) (address : Word) : Nat → List Byte
  | 0 => []
  | count + 1 =>
    let opcode := Opcode.inMemory memory address
    let rest :=
      if opcode.endsBlock then []
      else scan memory (address + BitVec.ofNat 16 opcode.length) count
    memory.window address opcode.length ++ rest

/-- The block that starts at an address of memory. -/
def discover (memory : Memory) (start : Word) : Except BlockError Block :=
  decode start (scan memory start maxInstructions)

end Block

end Sm83

import Sm83.Memory.Image

/-!
# Consecutive bytes

How the contents of a place in memory are made up of the contents of its parts, byte by byte or run
by run, and what a run of bytes written leaves alone.
-/

namespace Sm83

theorem Word.add_one_add_ofNat (address : Word) (count : Nat) :
    address + 1 + BitVec.ofNat 16 count = address + BitVec.ofNat 16 (count + 1) := by
  rw [Nat.add_comm, BitVec.ofNat_add, BitVec.add_assoc]
  rfl

namespace Memory

/-- The word at an address, the low byte first. -/
def word (memory : Memory) (address : Word) : Word :=
  Word.ofBytes (memory.get address) (memory.get (address + 1))

theorem window_succ (memory : Memory) (address : Word) (count : Nat) :
    memory.window address (count + 1) = memory.get address :: memory.window (address + 1) count :=
  rfl

theorem holds_append (memory : Memory) (address : Word) (left right : List Byte) :
    memory.holds address (left ++ right) = true ↔
      memory.holds address left = true ∧
        memory.holds (address + BitVec.ofNat 16 left.length) right = true := by
  induction left generalizing address with
  | nil => simp [holds]
  | cons value left ih =>
    rw [List.cons_append, holds, holds, Bool.and_eq_true, Bool.and_eq_true, ih,
      Word.add_one_add_ofNat, and_assoc, List.length_cons]

theorem holds_take {memory : Memory} {address : Word} {bytes : List Byte}
    (hholds : memory.holds address bytes = true) (count : Nat) :
    memory.holds address (bytes.take count) = true := by
  rw [← List.take_append_drop count bytes, holds_append] at hholds
  exact hholds.1

theorem holds_drop {memory : Memory} {address : Word} {bytes : List Byte} {count : Nat}
    (hholds : memory.holds address bytes = true) (hcount : count ≤ bytes.length) :
    memory.holds (address + BitVec.ofNat 16 count) (bytes.drop count) = true := by
  rw [← List.take_append_drop count bytes, holds_append, List.length_take,
    Nat.min_eq_left hcount] at hholds
  exact hholds.2

theorem window_eq_take {memory : Memory} {address : Word} {bytes : List Byte} {count : Nat}
    (hholds : memory.holds address bytes = true) (hcount : count ≤ bytes.length) :
    memory.window address count = bytes.take count := by
  have hwindow := (memory.holds_iff address _).mp (holds_take hholds count)
  rw [List.length_take, Nat.min_eq_left hcount] at hwindow
  exact hwindow

/-- What a place holds, byte by byte. -/
theorem holds_iff_forall_get {memory : Memory} {address : Word} {bytes : List Byte} :
    memory.holds address bytes = true ↔
      ∀ index (hindex : index < bytes.length),
        memory.get (address + BitVec.ofNat 16 index) = bytes[index] := by
  induction bytes generalizing address with
  | nil => simp [holds]
  | cons value rest ih =>
    rw [holds, Bool.and_eq_true, beq_iff_eq, ih]
    constructor
    · rintro ⟨hfirst, hrest⟩ index hindex
      cases index with
      | zero => simpa using hfirst
      | succ index =>
        rw [← Word.add_one_add_ofNat, List.getElem_cons_succ]
        exact hrest index (Nat.lt_of_succ_lt_succ hindex)
    · intro hall
      refine ⟨by simpa using hall 0 (Nat.succ_pos _), ?_⟩
      intro index hindex
      have hnext := hall (index + 1) (Nat.succ_lt_succ hindex)
      rwa [← Word.add_one_add_ofNat, List.getElem_cons_succ] at hnext

/-- A run of bytes that ends before it comes to an address leaves the byte there alone. -/
theorem get_writeAll_of_length_le {address other : Word} {bytes : List Byte}
    (hbefore : bytes.length ≤ (other - address).toNat) (memory : Memory) :
    (memory.writeAll address bytes).get other = memory.get other := by
  induction bytes generalizing memory address with
  | nil => rfl
  | cons value rest ih =>
    rw [List.length_cons] at hbefore
    have hne : other ≠ address := by
      rintro rfl
      simp at hbefore
    have hnext : rest.length ≤ (other - (address + 1)).toNat := by bv_omega
    rw [writeAll, ih hnext, get_set_of_ne hne]

/-- Bytes that are written are there, if their end does not overwrite their beginning. -/
theorem holds_writeAll {bytes : List Byte} (hfits : bytes.length ≤ addressSpaceSize)
    (memory : Memory) (address : Word) :
    (memory.writeAll address bytes).holds address bytes = true := by
  induction bytes generalizing memory address with
  | nil => rfl
  | cons value rest ih =>
    rw [List.length_cons, addressSpaceSize] at hfits
    have hfirst : rest.length ≤ (address - (address + 1)).toNat := by bv_omega
    rw [writeAll, holds, Bool.and_eq_true, beq_iff_eq, get_writeAll_of_length_le hfirst,
      get_set_self]
    exact ⟨rfl, ih (Nat.le_of_lt hfits) _ _⟩

end Memory

end Sm83

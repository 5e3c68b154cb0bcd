import Mathlib.Data.List.Induction
import Mathlib.Order.Bounds.Basic
import Sm83.Proofs.Memory

/-!
# Runs of bytes that wrap

A run of bytes goes once around the address space every 65536 bytes, so several of its bytes may be
meant for one address. Writing them in order leaves the last of these there, and a run is found in
memory again if its bytes repeat from one turn to the next. An image is cut off at the end of the
address space and does not wrap.
-/

namespace Sm83

theorem Word.add_ofNat_add_size (address : Word) (index : Nat) :
    address + BitVec.ofNat 16 (index + addressSpaceSize) = address + BitVec.ofNat 16 index := by
  rw [addressSpaceSize]
  bv_omega

/-- Two bytes of a run are meant for one address only if they are whole turns apart. -/
theorem Word.add_size_le_of_add_ofNat_eq {address : Word} {index later : Nat}
    (heq : address + BitVec.ofNat 16 later = address + BitVec.ofNat 16 index)
    (hlater : index < later) : index + addressSpaceSize ≤ later := by
  rw [addressSpaceSize]
  bv_omega

namespace Memory

variable {address other : Word} {bytes : List Byte}

/-- The places in a run of the bytes that are meant for an address. -/
def placesAt (address : Word) (bytes : List Byte) (other : Word) : Set Nat :=
  {index | index < bytes.length ∧ address + BitVec.ofNat 16 index = other}

theorem placesAt_append_subset (left right : List Byte) :
    placesAt address left other ⊆ placesAt address (left ++ right) other := by
  rintro index ⟨hindex, haddress⟩
  refine ⟨?_, haddress⟩
  rw [List.length_append]
  omega

theorem writeAll_append (memory : Memory) (address : Word) (left right : List Byte) :
    memory.writeAll address (left ++ right) =
      (memory.writeAll address left).writeAll (address + BitVec.ofNat 16 left.length) right := by
  induction left generalizing memory address with
  | nil => simp [writeAll]
  | cons value left ih =>
    rw [List.cons_append, writeAll, writeAll, ih, Word.add_one_add_ofNat, List.length_cons]

theorem writeAll_concat (memory : Memory) (address : Word) (bytes : List Byte) (value : Byte) :
    memory.writeAll address (bytes ++ [value]) =
      (memory.writeAll address bytes).set (address + BitVec.ofNat 16 bytes.length) value :=
  memory.writeAll_append address bytes [value]

/-- The last byte meant for an address is the one that is found there. -/
theorem get_writeAll_of_isGreatest {index : Nat}
    (hgreatest : IsGreatest (placesAt address bytes other) index) (memory : Memory) :
    bytes[index]? = some ((memory.writeAll address bytes).get other) := by
  -- From the end, so that the byte that counts is the first one to be met.
  induction bytes using List.reverseRecOn with
  | nil => exact absurd hgreatest.1.1 (Nat.not_lt_zero _)
  | append_singleton bytes value ih =>
    obtain ⟨⟨hindex, haddress⟩, hlast⟩ := hgreatest
    rw [List.length_append, List.length_singleton] at hindex
    rw [writeAll_concat]
    by_cases hother : other = address + BitVec.ofNat 16 bytes.length
    · have hle : bytes.length ≤ index := hlast ⟨by simp, hother.symm⟩
      have heq : index = bytes.length := by omega
      rw [hother, get_set_self, heq, List.getElem?_concat_length]
    · have hne : index ≠ bytes.length := by
        rintro rfl
        exact hother haddress.symm
      have hbefore : index < bytes.length := by omega
      rw [get_set_of_ne hother, List.getElem?_append_left hbefore]
      exact ih ⟨⟨hbefore, haddress⟩, fun place hplace =>
        hlast (placesAt_append_subset bytes [value] hplace)⟩

theorem get_writeAll_of_placesAt_eq_empty (hnone : placesAt address bytes other = ∅)
    (memory : Memory) : (memory.writeAll address bytes).get other = memory.get other := by
  apply get_writeAll_of_length_le
  by_contra hinside
  have hplace : (other - address).toNat ∈ placesAt address bytes other := by
    refine ⟨by omega, ?_⟩
    bv_omega
  rw [hnone] at hplace
  exact hplace

/-- A run of bytes is in memory once it has been written, if each turn around the address space
repeats the one before. -/
theorem holds_writeAll_iff (memory : Memory) (address : Word) (bytes : List Byte) :
    (memory.writeAll address bytes).holds address bytes = true ↔
      ∀ index (hindex : index + addressSpaceSize < bytes.length),
        bytes[index] = bytes[index + addressSpaceSize] := by
  rw [holds_iff_forall_get]
  constructor
  · intro hholds index hindex
    rw [← hholds index (by omega), ← hholds (index + addressSpaceSize) hindex,
      Word.add_ofNat_add_size]
  · intro hrepeats index hindex
    -- From the last turn back to the first: the byte of the last turn is the one that is there.
    induction hleft : bytes.length - index using Nat.strong_induction_on generalizing index with
    | _ left ih =>
      by_cases hnext : index + addressSpaceSize < bytes.length
      · have hlater := ih _ (by rw [addressSpaceSize] at *; omega) _ hnext rfl
        rw [hrepeats index hnext, ← hlater, Word.add_ofNat_add_size]
      · have hgreatest :
            IsGreatest (placesAt address bytes (address + BitVec.ofNat 16 index)) index := by
          refine ⟨⟨hindex, rfl⟩, ?_⟩
          rintro later ⟨hlater, haddress⟩
          by_contra hlt
          have hturn := Word.add_size_le_of_add_ofNat_eq haddress (Nat.lt_of_not_le hlt)
          omega
        have hget := get_writeAll_of_isGreatest hgreatest memory
        rw [List.getElem?_eq_getElem hindex] at hget
        exact (Option.some.inj hget).symm

theorem fill_zero (memory : Memory) : memory.fill 0 = zero := by
  ext address
  rw [get_fill, get_zero]

theorem get_load (image : List Byte) (address : Word) :
    (load image).get address = image.getD address.toNat 0 := by
  have hsize : address.toNat < addressSpaceSize := address.isLt
  have hzero : (0 : Word) + BitVec.ofNat 16 address.toNat = address := by simp
  rw [load, List.getD_eq_getElem?_getD]
  by_cases hinside : address.toNat < image.length
  · have hlength : address.toNat < (image.take addressSpaceSize).length := by
      rw [List.length_take]
      omega
    have hholds := holds_iff_forall_get.mp
      (holds_writeAll (List.length_take_le addressSpaceSize image) zero 0) _ hlength
    rw [hzero] at hholds
    rw [hholds, List.getElem_take, List.getElem?_eq_getElem hinside, Option.getD_some]
  · have hbefore : (image.take addressSpaceSize).length ≤ (address - 0).toNat := by
      rw [List.length_take, show address - 0 = address from BitVec.sub_zero address]
      omega
    rw [get_writeAll_of_length_le hbefore, get_zero,
      List.getElem?_eq_none (Nat.le_of_not_lt hinside), Option.getD_none]

/-- What writing, comparing and loading do with runs of bytes of any length. -/
theorem bulk_operations_wrap (memory : Memory) (address : Word) :
    (∀ bytes other index, IsGreatest (placesAt address bytes other) index →
        bytes[index]? = some ((memory.writeAll address bytes).get other)) ∧
      (∀ bytes other, placesAt address bytes other = ∅ →
        (memory.writeAll address bytes).get other = memory.get other) ∧
      (∀ left right, memory.writeAll address (left ++ right) =
        (memory.writeAll address left).writeAll (address + BitVec.ofNat 16 left.length) right) ∧
      (∀ bytes, memory.holds address bytes = true ↔
        ∀ index (hindex : index < bytes.length),
          memory.get (address + BitVec.ofNat 16 index) = bytes[index]) ∧
      (∀ bytes, (memory.writeAll address bytes).holds address bytes = true ↔
        ∀ index (hindex : index + addressSpaceSize < bytes.length),
          bytes[index] = bytes[index + addressSpaceSize]) ∧
      (∀ bytes, bytes.length ≤ addressSpaceSize →
        (memory.writeAll address bytes).holds address bytes = true) ∧
      (∀ image, load image = (memory.fill 0).writeAll 0 (image.take addressSpaceSize)) ∧
      ∀ image other, (load image).get other = image.getD other.toNat 0 := by
  refine ⟨?_, ?_, memory.writeAll_append address, fun _ => holds_iff_forall_get,
    memory.holds_writeAll_iff address, ?_, ?_, get_load⟩
  · intro bytes other index hgreatest
    exact get_writeAll_of_isGreatest hgreatest memory
  · intro bytes other hnone
    exact get_writeAll_of_placesAt_eq_empty hnone memory
  · intro bytes hfits
    exact holds_writeAll hfits memory address
  · intro image
    rw [fill_zero, load]

/-- Zeros for a whole turn, and a one that is meant for where the first of them was written. -/
def turnAndOne : List Byte := List.replicate addressSpaceSize 0 ++ [1]

theorem bulk_operations_wrap_turnAndOne :
    (IsGreatest (placesAt 0x8000 turnAndOne 0x8000) addressSpaceSize ∧
        (zero.writeAll 0x8000 turnAndOne).get 0x8000 = 1 ∧
        ¬(zero.writeAll 0x8000 turnAndOne).holds 0x8000 turnAndOne = true) ∧
      placesAt 0xFFFE [1, 2, 3] 0x0001 = ∅ ∧
      ((zero.fill 4).writeAll 0xFFFE [1, 2, 3]).get 0x0001 = 4 ∧
      ((zero.fill 4).writeAll 0xFFFE [1, 2, 3]).holds 0xFFFE [1, 2, 3] = true := by
  constructor
  · have hlength : turnAndOne.length = addressSpaceSize + 1 := by
      rw [turnAndOne, List.length_append, List.length_replicate, List.length_singleton]
    have hfirst : turnAndOne[0]? = some 0 := by
      rw [turnAndOne, List.getElem?_append_left (by rw [List.length_replicate]; decide),
        List.getElem?_replicate_of_lt (by decide)]
    have hlast : turnAndOne[addressSpaceSize]? = some 1 := by
      rw [turnAndOne, List.getElem?_append_right (by rw [List.length_replicate]),
        List.length_replicate, Nat.sub_self]
      rfl
    have hgreatest : IsGreatest (placesAt 0x8000 turnAndOne 0x8000) addressSpaceSize := by
      refine ⟨⟨by omega, by decide⟩, ?_⟩
      rintro index ⟨hindex, -⟩
      omega
    obtain ⟨hwritten, -, -, -, hrepeats, -⟩ := bulk_operations_wrap zero 0x8000
    have hget := hwritten _ _ _ hgreatest
    rw [hlast] at hget
    refine ⟨hgreatest, (Option.some.inj hget).symm, ?_⟩
    rw [hrepeats]
    intro hall
    have heq := hall 0 (by omega)
    rw [← Option.some_inj, ← List.getElem?_eq_getElem, ← List.getElem?_eq_getElem, Nat.zero_add,
      hfirst, hlast] at heq
    exact absurd heq (by decide)
  · have hnone : placesAt 0xFFFE [1, 2, 3] 0x0001 = ∅ := by
      rw [Set.eq_empty_iff_forall_notMem]
      rintro index ⟨hindex, haddress⟩
      have hsmall : index < 3 := hindex
      bv_omega
    obtain ⟨-, hkept, -, -, -, hfits, -⟩ := bulk_operations_wrap (zero.fill 4) 0xFFFE
    refine ⟨hnone, ?_, hfits _ (by decide)⟩
    rw [hkept _ _ hnone, get_fill]

end Memory

end Sm83

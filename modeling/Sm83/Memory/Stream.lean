import Sm83.Memory.Image

/-!
# Loading an image from a stream

A stream delivers its bytes in pieces and may be interrupted or fail in between. Loading clears the
memory and reads until the stream ends or the memory is full, each time as much as there is room
for; an interruption is passed over, a failure ends the load and what was read before it stays in
memory.
-/

namespace Sm83

inductive Stream.Piece where
  | data (bytes : List Byte)
  | interrupted
  | failed

/-- What a stream has still to deliver. A piece without bytes ends it, as does the end of the list. -/
abbrev Stream := List Stream.Piece

/-- Reads once, no more than `room` bytes. What does not fit is left for the next read. -/
def Stream.read (room : Nat) : Stream → Stream.Piece × Stream
  | [] => (.data [], [])
  | .interrupted :: rest => (.interrupted, rest)
  | .failed :: rest => (.failed, rest)
  | .data bytes :: rest =>
    if room < bytes.length then (.data (bytes.take room), .data (bytes.drop room) :: rest)
    else (.data bytes, rest)

inductive ImageError where
  | readFailed
  deriving DecidableEq

def ImageError.message : ImageError → String
  | .readFailed => "io error: failed to read the image"

namespace Memory

/-- The memory after a load from a stream, the number of bytes loaded, and the rest of the stream. -/
structure Loaded where
  memory : Memory
  result : Except ImageError Nat
  rest : Stream

/-- A load under way: the first `length` bytes of the memory have been read. -/
structure Loading where
  memory : Memory
  length : Nat
  stream : Stream

namespace Loading

/-- What comes of a read that has left `rest`: the load goes on, or it has ended. -/
def receive (loading : Loading) (rest : Stream) : Stream.Piece → Loading ⊕ Loaded
  | .data [] => .inr ⟨loading.memory, .ok loading.length, rest⟩
  | .data (value :: more) =>
    let bytes := value :: more
    .inl {
      memory := loading.memory.writeAll (BitVec.ofNat 16 loading.length) bytes
      length := loading.length + bytes.length
      stream := rest }
  | .interrupted => .inl { loading with stream := rest }
  | .failed => .inr ⟨loading.memory, .error .readFailed, rest⟩

/-- Reads once, unless the memory is full. -/
def round (loading : Loading) : Loading ⊕ Loaded :=
  if loading.length < addressSpaceSize then
    let (piece, rest) := loading.stream.read (addressSpaceSize - loading.length)
    loading.receive rest piece
  else .inr ⟨loading.memory, .ok loading.length, loading.stream⟩

/-- The rounds after which a load goes on: an interruption, a piece that is read to its end, and a
piece that is longer than what is left of the memory. -/
inductive Continues : Loading → Loading → Prop
  | interrupted {memory : Memory} {length : Nat} {rest : Stream} (hroom : length < addressSpaceSize) :
      Continues ⟨memory, length, .interrupted :: rest⟩ ⟨memory, length, rest⟩
  | whole {memory : Memory} {length : Nat} {bytes : List Byte} {rest : Stream} (hbytes : bytes ≠ [])
      (hfits : length + bytes.length ≤ addressSpaceSize) :
      Continues ⟨memory, length, .data bytes :: rest⟩
        ⟨memory.writeAll (BitVec.ofNat 16 length) bytes, length + bytes.length, rest⟩
  | part {memory : Memory} {length : Nat} {bytes left : List Byte} {rest : Stream}
      (hbytes : bytes ≠ []) (hleft : left ≠ [])
      (hfills : length + bytes.length = addressSpaceSize) :
      Continues ⟨memory, length, .data (bytes ++ left) :: rest⟩
        ⟨memory.writeAll (BitVec.ofNat 16 length) bytes, length + bytes.length,
          .data left :: rest⟩

theorem receive_data {bytes : List Byte} (hbytes : bytes ≠ []) (loading : Loading)
    (rest : Stream) :
    loading.receive rest (.data bytes) =
      .inl ⟨loading.memory.writeAll (BitVec.ofNat 16 loading.length) bytes,
        loading.length + bytes.length, rest⟩ := by
  cases bytes with
  | nil => exact absurd rfl hbytes
  | cons => rfl

theorem continues_of_round {loading next : Loading} (hround : loading.round = .inl next) :
    loading.Continues next := by
  obtain ⟨memory, length, stream⟩ := loading
  rw [round] at hround
  split at hround
  next hroom =>
    change length < addressSpaceSize at hroom
    cases stream with
    | nil => cases hround
    | cons piece rest =>
      cases piece with
      | failed => cases hround
      | interrupted =>
        cases hround
        exact .interrupted hroom
      | data bytes =>
        simp only [Stream.read] at hround
        split at hround
        next hlong =>
          let room := addressSpaceSize - length
          have hlength : (bytes.take room).length = room :=
            List.length_take_of_le (Nat.le_of_lt hlong)
          have hbytes : bytes.take room ≠ [] := List.ne_nil_of_length_pos (by omega)
          have hleft : bytes.drop room ≠ [] := by
            rw [ne_eq, List.drop_eq_nil_iff]
            omega
          rw [receive_data hbytes] at hround
          cases hround
          have hfills : length + (bytes.take room).length = addressSpaceSize := by omega
          have hpart : Continues
              ⟨memory, length, .data (bytes.take room ++ bytes.drop room) :: rest⟩ _ :=
            .part hbytes hleft hfills
          rwa [List.take_append_drop] at hpart
        next hfits =>
          cases bytes with
          | nil => cases hround
          | cons value more =>
            cases hround
            exact .whole (List.cons_ne_nil _ _) (by omega)
  next => cases hround

/-- A bound on the pieces still to be read. -/
def pending (loading : Loading) : Nat :=
  if loading.length < addressSpaceSize then loading.stream.length else 0

theorem Continues.pending_lt {loading next : Loading} (hcontinues : loading.Continues next) :
    next.pending < loading.pending := by
  cases hcontinues with
  | interrupted hroom =>
    simp only [pending, if_pos hroom, List.length_cons]
    exact Nat.lt_succ_self _
  | whole hbytes hfits =>
    have hlength := List.length_pos_iff.mpr hbytes
    simp only [pending, List.length_cons]
    split <;> split <;> omega
  | part hbytes _ hfills =>
    have hlength := List.length_pos_iff.mpr hbytes
    simp only [pending, List.length_cons]
    split <;> split <;> omega

/-- Reads to the end. -/
def run (loading : Loading) : Loaded :=
  match _hround : loading.round with
  | .inl next => next.run
  | .inr loaded => loaded
termination_by loading.pending
decreasing_by exact (continues_of_round _hround).pending_lt

end Loading

/-- Replaces what is in memory by what a stream delivers. -/
def loadStream (stream : Stream) (memory : Memory := zero) : Loaded :=
  Loading.run { memory := memory.fill 0, length := 0, stream }

end Memory

end Sm83

import Sm83.Machine
import Sm83.Proofs.Memory.Wrapping

/-!
# How a stream is cut does not show

What a load from a stream ends with depends on two things about the stream: the bytes that it
delivers before it ends or fails, and which of the two it does. The memory is the one that loading
those bytes as an image gives. Nothing is read any more once they have filled it, so what comes after
them, be it a failure, is left in the stream.
-/

namespace Sm83

namespace Stream

/-- What the stream delivers up to its end or its first failure. -/
def data : Stream → List Byte
  | [] | .data [] :: _ | .failed :: _ => []
  | .interrupted :: rest => data rest
  | .data (value :: more) :: rest => value :: more ++ data rest

/-- Whether it is a failure that the data ends with. -/
def fails : Stream → Bool
  | [] | .data [] :: _ => false
  | .failed :: _ => true
  | .interrupted :: rest => fails rest
  | .data (_ :: _) :: rest => fails rest

theorem data_cons {bytes : List Byte} (hbytes : bytes ≠ []) (rest : Stream) :
    data (.data bytes :: rest) = bytes ++ data rest := by
  cases bytes with
  | nil => exact absurd rfl hbytes
  | cons => rfl

theorem fails_cons {bytes : List Byte} (hbytes : bytes ≠ []) (rest : Stream) :
    fails (.data bytes :: rest) = fails rest := by
  cases bytes with
  | nil => exact absurd rfl hbytes
  | cons => rfl

/-- How a stream is left when its first bytes have been read and nothing after them. -/
inductive Leaves : Stream → List Byte → Stream → Prop
  | nothing {stream : Stream} : Leaves stream [] stream
  | interrupted {rest left : Stream} {bytes : List Byte} (hbytes : bytes ≠ [])
      (hrest : Leaves rest bytes left) : Leaves (.interrupted :: rest) bytes left
  | whole {rest left : Stream} {bytes more : List Byte} (hbytes : bytes ≠ [])
      (hrest : Leaves rest more left) : Leaves (.data bytes :: rest) (bytes ++ more) left
  | part {rest : Stream} {bytes left : List Byte} (hbytes : bytes ≠ []) (hleft : left ≠ []) :
      Leaves (.data (bytes ++ left) :: rest) bytes (.data left :: rest)

theorem Leaves.eq_of_eq_nil {stream left : Stream} {bytes : List Byte}
    (hleaves : stream.Leaves bytes left) (hnil : bytes = []) : left = stream := by
  cases hleaves with
  | nothing => rfl
  | interrupted hbytes => exact absurd hnil hbytes
  | whole hbytes => exact absurd (List.append_eq_nil_iff.mp hnil).1 hbytes
  | part hbytes => exact absurd hnil hbytes

theorem Leaves.unique {stream left other : Stream} {bytes : List Byte}
    (hleaves : stream.Leaves bytes left) (hother : stream.Leaves bytes other) : other = left := by
  induction hleaves with
  | nothing => exact hother.eq_of_eq_nil rfl
  | interrupted hbytes _ ih =>
    cases hother with
    | nothing => exact absurd rfl hbytes
    | interrupted _ hrest => exact ih hrest
  | @whole rest left bytes more hbytes _ ih =>
    generalize hall : bytes ++ more = all at hother
    cases hother with
    | nothing => exact absurd (List.append_eq_nil_iff.mp hall).1 hbytes
    | whole _ hrest =>
      rw [List.append_cancel_left hall] at ih
      exact ih hrest
    | @part _ bytes left _ hleft =>
      have hlength := congrArg List.length hall
      have hpositive := List.length_pos_iff.mpr hleft
      simp only [List.length_append] at hlength
      omega
  | @part rest bytes left hbytes hleft =>
    generalize hall : bytes ++ left = all at hother
    cases hother with
    | nothing => exact absurd rfl hbytes
    | whole =>
      have hlength := congrArg List.length hall
      have hpositive := List.length_pos_iff.mpr hleft
      simp only [List.length_append] at hlength
      omega
    | part => rw [List.append_cancel_left hall]

end Stream

namespace Memory

namespace Loading

variable {loading next : Loading} {loaded : Loaded}

/-- The rounds that end a load: a full memory, the end of the stream, a piece without bytes, and a
failure. -/
inductive Stops : Loading → Loaded → Prop
  | full {memory : Memory} {length : Nat} {stream : Stream} (hfull : addressSpaceSize ≤ length) :
      Stops ⟨memory, length, stream⟩ ⟨memory, .ok length, stream⟩
  | ended {memory : Memory} {length : Nat} (hroom : length < addressSpaceSize) :
      Stops ⟨memory, length, []⟩ ⟨memory, .ok length, []⟩
  | blank {memory : Memory} {length : Nat} {rest : Stream} (hroom : length < addressSpaceSize) :
      Stops ⟨memory, length, .data [] :: rest⟩ ⟨memory, .ok length, rest⟩
  | failed {memory : Memory} {length : Nat} {rest : Stream} (hroom : length < addressSpaceSize) :
      Stops ⟨memory, length, .failed :: rest⟩ ⟨memory, .error .readFailed, rest⟩

theorem stops_of_round (hround : loading.round = .inr loaded) : loading.Stops loaded := by
  obtain ⟨memory, length, stream⟩ := loading
  rw [round] at hround
  split at hround
  next hroom =>
    change length < addressSpaceSize at hroom
    cases stream with
    | nil =>
      cases hround
      exact .ended hroom
    | cons piece rest =>
      cases piece with
      | interrupted => cases hround
      | failed =>
        cases hround
        exact .failed hroom
      | data bytes =>
        by_cases hbytes : bytes = []
        · rw [hbytes] at hround ⊢
          cases hround
          exact .blank hroom
        · simp only [Stream.read] at hround
          split at hround
          next hlong =>
            have htake : bytes.take (addressSpaceSize - length) ≠ [] :=
              List.ne_nil_of_length_pos (by rw [List.length_take_of_le (Nat.le_of_lt hlong)]; omega)
            rw [receive_data htake] at hround
            cases hround
          next =>
            rw [receive_data hbytes] at hround
            cases hround
  next hfull =>
    cases hround
    exact .full (Nat.le_of_not_lt hfull)

/-- A load that is cut off after a number of rounds. -/
def runWithin : Nat → Loading → Option Loaded
  | 0, _ => none
  | rounds + 1, loading =>
    match loading.round with
    | .inl next => runWithin rounds next
    | .inr loaded => some loaded

/-- Each round brings the load nearer to its end. -/
theorem runWithin_eq_some_run {rounds : Nat} (hrounds : loading.pending < rounds) :
    runWithin rounds loading = some loading.run := by
  induction rounds generalizing loading with
  | zero => exact absurd hrounds (Nat.not_lt_zero _)
  | succ rounds ih =>
    rw [runWithin, run]
    cases hround : loading.round with
    | inl next =>
      have hless := (continues_of_round hround).pending_lt
      exact ih (by omega)
    | inr loaded => rfl

/-- What the load is going to read still. -/
def coming (loading : Loading) : List Byte :=
  loading.stream.data.take (addressSpaceSize - loading.length)

/-- What a load that has come so far ends with, in terms of what is left of the stream. -/
structure EndsWith (loading : Loading) (loaded : Loaded) : Prop where
  memory : loaded.memory = loading.memory.writeAll (BitVec.ofNat 16 loading.length) loading.coming
  result : loaded.result =
    if addressSpaceSize ≤ loading.length + loading.stream.data.length then .ok addressSpaceSize
    else if loading.stream.fails then .error .readFailed
    else .ok (loading.length + loading.stream.data.length)
  rest (hfull : addressSpaceSize ≤ loading.length + loading.stream.data.length) :
    loading.stream.Leaves loading.coming loaded.rest

theorem Stops.endsWith (hstops : loading.Stops loaded)
    (hlength : loading.length ≤ addressSpaceSize) : loading.EndsWith loaded := by
  cases hstops with
  | @full memory length stream hfull =>
    have heq : length = addressSpaceSize := Nat.le_antisymm hlength hfull
    have hcoming : coming ⟨memory, length, stream⟩ = [] := by
      rw [coming, heq, Nat.sub_self, List.take_zero]
    refine ⟨?_, ?_, fun _ => ?_⟩
    · rw [hcoming, writeAll]
    · rw [if_pos (Nat.le_add_right_of_le hfull), heq]
    · rw [hcoming]
      exact .nothing
  | ended hroom | blank hroom =>
    refine ⟨?_, ?_, fun hfull => ?_⟩
    · rw [coming, Stream.data, List.take_nil, writeAll]
    · exact (if_neg (Nat.not_le.mpr hroom)).symm
    · exact absurd hfull (Nat.not_le.mpr hroom)
  | failed hroom =>
    refine ⟨?_, ?_, fun hfull => ?_⟩
    · rw [coming, Stream.data, List.take_nil, writeAll]
    · exact (if_neg (Nat.not_le.mpr hroom)).symm
    · exact absurd hfull (Nat.not_le.mpr hroom)

/-- What a round adds comes before what the rest of the load adds. -/
theorem Continues.endsWith (hcontinues : loading.Continues next)
    (hends : next.EndsWith loaded) : loading.EndsWith loaded := by
  obtain ⟨hmemory, hresult, hrest⟩ := hends
  cases hcontinues with
  | @interrupted memory length rest hroom =>
    refine ⟨hmemory, hresult, fun hfull => .interrupted ?_ (hrest hfull)⟩
    change addressSpaceSize ≤ length + rest.data.length at hfull
    change rest.data.take (addressSpaceSize - length) ≠ []
    apply List.ne_nil_of_length_pos
    rw [List.length_take]
    omega
  | @whole memory length bytes rest hbytes hfits =>
    have hdata := Stream.data_cons hbytes rest
    have hroom : bytes.length ≤ addressSpaceSize - length := by omega
    have hcoming : coming ⟨memory, length, .data bytes :: rest⟩ =
        bytes ++ coming
          ⟨memory.writeAll (BitVec.ofNat 16 length) bytes, length + bytes.length, rest⟩ := by
      rw [coming, coming, hdata, List.take_append, List.take_of_length_le hroom, Nat.sub_sub]
    refine ⟨?_, ?_, fun hfull => ?_⟩
    · rw [hmemory, hcoming, writeAll_append, BitVec.ofNat_add]
    · rw [hresult, hdata, Stream.fails_cons hbytes, List.length_append, Nat.add_assoc]
    · rw [hdata, List.length_append, ← Nat.add_assoc] at hfull
      rw [hcoming]
      exact .whole hbytes (hrest hfull)
  | @part memory length bytes left rest hbytes hleft hfills =>
    have hdata := Stream.data_cons (List.append_ne_nil_of_left_ne_nil hbytes left) rest
    have hcoming : coming ⟨memory, length, .data (bytes ++ left) :: rest⟩ = bytes := by
      rw [coming, hdata, List.append_assoc, ← hfills, Nat.add_sub_cancel_left]
      exact List.take_left
    have hfilled : coming ⟨memory.writeAll (BitVec.ofNat 16 length) bytes, length + bytes.length,
        .data left :: rest⟩ = [] := by
      rw [coming, hfills, Nat.sub_self, List.take_zero]
    have hfull (more : List Byte) : addressSpaceSize ≤ length + bytes.length + more.length :=
      Nat.le_add_right_of_le (Nat.le_of_eq hfills.symm)
    refine ⟨?_, ?_, fun _ => ?_⟩
    · rw [hmemory, hcoming, hfilled, writeAll]
    · rw [hresult, if_pos (hfull _), hdata, List.append_assoc, List.length_append, ← Nat.add_assoc,
        if_pos (hfull _)]
    · rw [(hrest (hfull _)).eq_of_eq_nil hfilled, hcoming]
      exact .part hbytes hleft

theorem Continues.length_le (hcontinues : loading.Continues next) :
    next.length ≤ addressSpaceSize := by
  cases hcontinues with
  | interrupted hroom => exact Nat.le_of_lt hroom
  | whole _ hfits => exact hfits
  | part _ _ hfills => exact Nat.le_of_eq hfills

theorem run_endsWith (hlength : loading.length ≤ addressSpaceSize) :
    loading.EndsWith loading.run := by
  induction loading using run.induct with
  | case1 loading next hround ih =>
    have hcontinues := continues_of_round hround
    rw [run.eq_1, hround]
    exact hcontinues.endsWith (ih hcontinues.length_le)
  | case2 loading loaded hround =>
    rw [run.eq_1, hround]
    exact (stops_of_round hround).endsWith hlength

end Loading

end Memory

namespace Machine

/-- A load from a stream is a load of the data of the stream. -/
theorem loadStream_loads_data (machine : Machine) (stream : Stream) :
    let loaded := machine.memory.loadStream stream
    loaded.memory = Memory.load stream.data ∧
      (∀ address, loaded.memory.get address = stream.data.getD address.toNat 0) ∧
      (addressSpaceSize ≤ stream.data.length →
        loaded.result = .ok addressSpaceSize ∧
          stream.Leaves (stream.data.take addressSpaceSize) loaded.rest) ∧
      (stream.data.length < addressSpaceSize →
        loaded.result = if stream.fails then .error .readFailed else .ok stream.data.length) ∧
      Memory.Loading.runWithin (stream.length + 1) ⟨machine.memory.fill 0, 0, stream⟩ =
        some loaded ∧
      machine.loadStream stream = { machine with memory := loaded.memory } := by
  have hends := Memory.Loading.run_endsWith
    (show (Memory.Loading.mk (machine.memory.fill 0) 0 stream).length ≤ addressSpaceSize from
      Nat.zero_le _)
  have hcoming : Memory.Loading.coming ⟨machine.memory.fill 0, 0, stream⟩ =
      stream.data.take addressSpaceSize := rfl
  have hload : (machine.memory.loadStream stream).memory = Memory.load stream.data := by
    rw [Memory.loadStream, hends.memory, hcoming, Memory.fill_zero]
    rfl
  refine ⟨hload, ?_, ?_, ?_, ?_, rfl⟩
  · intro address
    rw [hload, Memory.get_load]
  · intro hfull
    have hreached : addressSpaceSize ≤ 0 + stream.data.length := by omega
    exact ⟨hends.result.trans (if_pos hreached), hends.rest hreached⟩
  · intro hroom
    have hshort : ¬addressSpaceSize ≤ 0 + stream.data.length := by omega
    have hresult := hends.result.trans (if_neg hshort)
    rwa [Nat.zero_add] at hresult
  · apply Memory.Loading.runWithin_eq_some_run
    exact Nat.lt_succ_self _

/-- All bytes but one, an interruption, one byte more than there is room for, and a failure. -/
def fillingStream : Stream :=
  [.data (List.replicate 0xFFFF 7), .interrupted, .data [8, 9], .failed]

theorem loadStream_loads_data_fillingStream :
    (Memory.loadStream fillingStream (Memory.zero.fill 0xFF)).result = .ok addressSpaceSize ∧
      (Memory.loadStream fillingStream (Memory.zero.fill 0xFF)).rest = [.data [9], .failed] ∧
      (Memory.loadStream [.data [7], .interrupted, .failed] (Memory.zero.fill 0xFF)).result =
        .error .readFailed ∧
      (Memory.loadStream [.data [7], .interrupted, .failed] (Memory.zero.fill 0xFF)).memory.get 1 =
        0 := by
  have hnonempty : List.replicate 0xFFFF (7 : Byte) ≠ [] :=
    List.ne_nil_of_length_pos (by rw [List.length_replicate]; decide)
  have hdata : fillingStream.data = List.replicate 0xFFFF 7 ++ [8, 9] := by
    rw [fillingStream, Stream.data_cons hnonempty]
    rfl
  have hfull : addressSpaceSize ≤ fillingStream.data.length := by
    rw [hdata, List.length_append, List.length_replicate]
    decide
  have htake : fillingStream.data.take addressSpaceSize = List.replicate 0xFFFF 7 ++ [8] := by
    rw [hdata, List.take_append, List.length_replicate, List.take_of_length_le]
    · rfl
    · rw [List.length_replicate]
      decide
  have hread : ([8] : List Byte) ≠ [] := List.cons_ne_nil _ _
  have hleft : ([9] : List Byte) ≠ [] := List.cons_ne_nil _ _
  have hleaves : fillingStream.Leaves (List.replicate 0xFFFF 7 ++ [8]) [.data [9], .failed] :=
    .whole hnonempty (.interrupted hread (.part hread hleft))
  obtain ⟨-, -, hends, -⟩ :=
    loadStream_loads_data { initial {} with memory := Memory.zero.fill 0xFF } fillingStream
  obtain ⟨hresult, hrest⟩ := hends hfull
  rw [htake] at hrest
  obtain ⟨-, hget, -, hfails, -⟩ := loadStream_loads_data
    { initial {} with memory := Memory.zero.fill 0xFF } [.data [7], .interrupted, .failed]
  exact ⟨hresult, hleaves.unique hrest, hfails (by decide), hget 1⟩

end Machine

end Sm83

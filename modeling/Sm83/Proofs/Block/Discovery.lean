import Sm83.Proofs.Block.Layout
import Sm83.Proofs.Memory

/-!
# A discovered block is determined by its own bytes

The scan of memory reads nothing outside the bytes it returns, the second byte of an extended opcode
among them. Discovery therefore always finds a block, and a memory that holds the bytes of a block
found in another memory has the very same block there.
-/

namespace Sm83

namespace Opcode

theorem length_inMemory_pos (memory : Memory) (address : Word) :
    0 < (inMemory memory address).length := by
  rw [inMemory]
  split
  · rw [length_extended]
    omega
  · exact (isEntry_base _).length_pos

end Opcode

/-- The instruction in memory is the first that is cut off a run of bytes starting with its own. -/
theorem Decoded.cut?_window_append (memory : Memory) (address : Word) (rest : List Byte) :
    ∃ decoded, decoded.opcode = Opcode.inMemory memory address ∧
      cut? address (memory.window address (Opcode.inMemory memory address).length ++ rest) =
        some (decoded, rest) := by
  obtain ⟨count, hcount⟩ := Nat.exists_eq_add_of_lt (Opcode.length_inMemory_pos memory address)
  rw [Nat.zero_add] at hcount
  have hopcode : (ofBytes address (memory.get address)
      ((memory.window (address + 1) count ++ rest).headD 0)).opcode =
        Opcode.inMemory memory address := by
    rw [ofBytes, Opcode.inMemory]
    by_cases hextends : memory.get address = Opcode.extensionPrefix
    · have hlength : (Opcode.inMemory memory address).length = 2 := by
        rw [Opcode.inMemory, if_pos hextends, Opcode.length_extended]
      have hone : count = 1 := by omega
      rw [if_pos hextends, if_pos hextends, hone]
      rfl
    · rw [if_neg hextends, if_neg hextends]
  refine ⟨_, hopcode, ?_⟩
  rw [hcount, Memory.window_succ, List.cons_append, cut?_eq_some_iff]
  refine ⟨rfl, ?_, ?_⟩
  · rw [hopcode, hcount, List.length_append, Memory.length_window]
    omega
  · rw [hopcode, hcount, List.drop_succ_cons]
    exact List.drop_left' (Memory.length_window _ _ _)

/-- The opcode at an address depends only on the bytes of its instruction. -/
theorem Opcode.inMemory_eq_of_holds {memory memory' : Memory} {address : Word}
    (hholds : memory'.holds address
      (memory.window address (inMemory memory address).length) = true) :
    inMemory memory' address = inMemory memory address := by
  obtain ⟨decoded, hopcode, hcut⟩ := Decoded.cut?_window_append memory address []
  rw [List.append_nil] at hcut
  rw [← hopcode]
  exact (Decoded.inMemory_of_cut? hcut (Decoded.holds_leadingBytes hholds)).1

namespace Decoded

/-- The last of the instructions ends a block. -/
def Terminated (instructions : List Decoded) : Prop :=
  ∃ last ∈ instructions.getLast?, last.opcode.endsBlock = true

/-- Whoever takes instructions one after the other, but no more than `limit`, stops behind these. -/
def StopsAt (limit : Nat) (instructions : List Decoded) : Prop :=
  instructions.length ≤ limit ∧ (instructions.length = limit ∨ Terminated instructions)

theorem terminated_singleton {decoded : Decoded} :
    Terminated [decoded] ↔ decoded.opcode.endsBlock = true := by
  simp [Terminated]

theorem terminated_cons_cons {decoded next : Decoded} {instructions : List Decoded} :
    Terminated (decoded :: next :: instructions) ↔ Terminated (next :: instructions) := by
  rw [Terminated, Terminated, List.getLast?_cons_cons]

theorem Terminated.cons {instructions : List Decoded} (hterminated : Terminated instructions)
    (decoded : Decoded) : Terminated (decoded :: instructions) := by
  cases instructions with
  | nil =>
    obtain ⟨last, hlast, -⟩ := hterminated
    cases hlast
  | cons next instructions => exact terminated_cons_cons.mpr hterminated

theorem StopsAt.cons {limit : Nat} {instructions : List Decoded}
    (hstops : StopsAt limit instructions) (decoded : Decoded) :
    StopsAt (limit + 1) (decoded :: instructions) := by
  obtain ⟨hlimit, hend⟩ := hstops
  exact ⟨Nat.succ_le_succ hlimit,
    hend.imp (congrArg Nat.succ) fun hterminated => hterminated.cons decoded⟩

/-- An instruction that does not end a block is taken if there is room for it, and then the others
are. -/
theorem StopsAt.exists_tail {limit : Nat} {decoded : Decoded} {instructions : List Decoded}
    (hstops : StopsAt limit (decoded :: instructions)) (hgoes : decoded.opcode.endsBlock = false) :
    ∃ rest, limit = rest + 1 ∧ StopsAt rest instructions := by
  obtain ⟨hlimit, hend⟩ := hstops
  cases limit with
  | zero => cases hlimit
  | succ rest =>
    refine ⟨rest, rfl, Nat.le_of_succ_le_succ hlimit, hend.imp Nat.succ.inj ?_⟩
    intro hterminated
    cases instructions with
    | nil =>
      rw [terminated_singleton, hgoes] at hterminated
      cases hterminated
    | cons next instructions => exact terminated_cons_cons.mp hterminated

end Decoded

namespace Block

theorem scan_succ (memory : Memory) (address : Word) (count : Nat) :
    scan memory address (count + 1) =
      memory.window address (Opcode.inMemory memory address).length ++
        if (Opcode.inMemory memory address).endsBlock then []
        else scan memory (address + BitVec.ofNat 16 (Opcode.inMemory memory address).length) count :=
  rfl

/-- What a scan returns is accepted as a block. -/
theorem exists_encodes_scan (memory : Memory) (address : Word) (limit : Nat) :
    ∃ instructions, Encodes address (scan memory address limit) instructions ∧
      Decoded.StopsAt limit instructions := by
  induction limit generalizing address with
  | zero => exact ⟨[], .nil address, Nat.le_refl _, .inl rfl⟩
  | succ limit ih =>
    rw [scan_succ]
    split
    · next hends =>
      obtain ⟨decoded, hopcode, hcut⟩ := Decoded.cut?_window_append memory address []
      rw [← hopcode] at hends
      exact ⟨[decoded], .last hcut hends, Nat.succ_le_succ (Nat.zero_le _),
        .inr ⟨decoded, rfl, hends⟩⟩
    · next hgoes =>
      obtain ⟨instructions, htail, hstops⟩ :=
        ih (address + BitVec.ofNat 16 (Opcode.inMemory memory address).length)
      obtain ⟨decoded, hopcode, hcut⟩ := Decoded.cut?_window_append memory address
        (scan memory (address + BitVec.ofNat 16 (Opcode.inMemory memory address).length) limit)
      rw [← hopcode] at htail hgoes hcut ⊢
      exact ⟨decoded :: instructions, .cons hcut (Bool.not_eq_true _ ▸ hgoes) htail,
        hstops.cons decoded⟩

theorem scan_ne_nil (memory : Memory) (address : Word) (count : Nat) :
    scan memory address (count + 1) ≠ [] := by
  intro hnil
  have hlength := congrArg List.length hnil
  rw [scan_succ, List.length_append, Memory.length_window, List.length_nil] at hlength
  have hpos := Opcode.length_inMemory_pos memory address
  omega

/-- A scan returns bytes that are there. -/
theorem holds_scan (memory : Memory) (address : Word) (count : Nat) :
    memory.holds address (scan memory address count) = true := by
  induction count generalizing address with
  | zero => rfl
  | succ count ih =>
    rw [scan_succ, Memory.holds_append, Memory.length_window]
    refine ⟨memory.holds_window _ _, ?_⟩
    split
    · rfl
    · exact ih _

/-- A scan depends only on the bytes that it returns. -/
theorem scan_eq_of_holds {memory memory' : Memory} {address : Word} {count : Nat}
    (hholds : memory'.holds address (scan memory address count) = true) :
    scan memory' address count = scan memory address count := by
  induction count generalizing address with
  | zero => rfl
  | succ count ih =>
    rw [scan_succ, Memory.holds_append, Memory.length_window] at hholds
    obtain ⟨hfirst, hrest⟩ := hholds
    have hwindow := (memory'.holds_iff _ _).mp hfirst
    rw [Memory.length_window] at hwindow
    rw [scan_succ, scan_succ, Opcode.inMemory_eq_of_holds hfirst, hwindow]
    by_cases hends : (Opcode.inMemory memory address).endsBlock = true
    · rw [if_pos hends, if_pos hends]
    · rw [if_neg hends] at hrest
      rw [if_neg hends, if_neg hends, ih hrest]

/-- Discovery never fails. -/
theorem exists_discover_eq_ok (memory : Memory) (start : Word) :
    ∃ block, discover memory start = .ok block := by
  obtain ⟨instructions, hencodes, -⟩ := exists_encodes_scan memory start maxInstructions
  refine ⟨⟨start, scan memory start maxInstructions, instructions⟩, ?_⟩
  rw [discover, decode_eq_ok_iff]
  exact ⟨scan_ne_nil memory start 63, rfl, rfl, hencodes⟩

theorem bytes_of_discover {memory : Memory} {start : Word} {block : Block}
    (hdiscover : discover memory start = .ok block) :
    block.bytes = scan memory start maxInstructions :=
  (decode_eq_ok_iff.mp hdiscover).2.2.1

theorem decode_of_discover {memory : Memory} {start : Word} {block : Block}
    (hdiscover : discover memory start = .ok block) :
    decode start block.bytes = .ok block := by
  rw [bytes_of_discover hdiscover]
  exact hdiscover

theorem holds_of_discover {memory : Memory} {start : Word} {block : Block}
    (hdiscover : discover memory start = .ok block) :
    memory.holds start block.bytes = true := by
  rw [bytes_of_discover hdiscover]
  exact holds_scan memory start maxInstructions

/-- A discovered block goes on for as long as it may. -/
theorem stopsAt_of_discover {memory : Memory} {start : Word} {block : Block}
    (hdiscover : discover memory start = .ok block) :
    Decoded.StopsAt maxInstructions block.instructions := by
  obtain ⟨instructions, hencodes, hstops⟩ := exists_encodes_scan memory start maxInstructions
  have hfound : discover memory start =
      .ok ⟨start, scan memory start maxInstructions, instructions⟩ :=
    decode_eq_ok_iff.mpr ⟨scan_ne_nil memory start 63, rfl, rfl, hencodes⟩
  cases hdiscover.symm.trans hfound
  exact hstops

/-- Where the bytes of a discovered block are, that block is what would be discovered. -/
theorem discover_eq_of_holds {memory memory' : Memory} {start : Word} {block : Block}
    (hdiscover : discover memory start = .ok block)
    (hholds : memory'.holds start block.bytes = true) :
    discover memory' start = .ok block := by
  rw [bytes_of_discover hdiscover] at hholds
  rw [discover, scan_eq_of_holds hholds]
  exact hdiscover

end Block

end Sm83

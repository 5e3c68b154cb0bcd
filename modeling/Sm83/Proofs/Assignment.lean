import Sm83.Proofs.Place

/-!
# Assignments

An instruction may have more than one result: bytes in places, words in registers, flags. Its effect
is then a list of assignments. `Machine.Assigns` says that each of them has been made and that what
none of them reaches is as it was, the clock and the program counter again left out of account. An
instruction makes its assignments one after the other (`Machine.assignAll`); where none of them
disturbs an earlier one (`Assignment.Compatible`), all of them hold in the end.
-/

namespace Sm83

/-- One result of an instruction. -/
inductive Assignment where
  | byte (place : Place) (value : Byte)
  | word (name : WordRegister) (value : Word)
  | flags (value : Flags)
  | enableInterrupts

namespace Assignment

/-- The result is there. -/
def HoldsIn (assignment : Assignment) (machine : Machine) : Prop :=
  match assignment with
  | .byte place value => machine.peek place = value
  | .word name value => machine.word name = value
  | .flags value => machine.flags = value
  | .enableInterrupts => machine.cpu.interrupts = true

/-- The assignment may change the byte in the place. -/
def Covers (assignment : Assignment) (place : Place) : Prop :=
  match assignment with
  | .byte target _ => place = target
  | .word name _ => ∃ half : ByteRegister, half.pair = name ∧ place = .register half
  | .flags _ => place = .register .f
  | .enableInterrupts => False

/-- The assignment may change the word register. -/
def Moves (assignment : Assignment) (name : WordRegister) : Prop :=
  match assignment with
  | .byte (.register half) _ => half.pair = name
  | .byte (.memory _) _ => False
  | .word target _ => name = target
  | .flags _ => name = .af
  | .enableInterrupts => False

/-- What is assigned stays there whole. F and its pair drop a part, and the program counter is left
out of account. -/
def IsStorable (assignment : Assignment) : Prop :=
  match assignment with
  | .byte place _ => place ≠ .register .f
  | .word name _ => name ≠ .af ∧ name ≠ .pc
  | .flags _ | .enableInterrupts => True

/-- The later assignment does not disturb the earlier one. -/
def Spares (earlier later : Assignment) : Prop :=
  match earlier with
  | .byte place _ => ¬ later.Covers place
  | .word name _ => ¬ later.Moves name
  | .flags _ => ¬ later.Covers (.register .f)
  | .enableInterrupts => True

/-- The assignments can be made one after the other. -/
structure Compatible (assignments : List Assignment) : Prop where
  storable : ∀ assignment ∈ assignments, assignment.IsStorable
  spares : assignments.Pairwise Spares

theorem compatible_nil : Compatible [] where
  storable _ hmem := absurd hmem List.not_mem_nil
  spares := .nil

theorem compatible_singleton {assignment : Assignment} (hstorable : assignment.IsStorable) :
    Compatible [assignment] where
  storable := List.forall_mem_singleton.mpr hstorable
  spares := List.pairwise_singleton _ _

namespace Compatible

variable {assignments : List Assignment} {assignment : Assignment}
  (hcompatible : Compatible assignments) (hstorable : assignment.IsStorable)

include hcompatible hstorable

theorem cons (hspares : ∀ later ∈ assignments, assignment.Spares later) :
    Compatible (assignment :: assignments) where
  storable := List.forall_mem_cons.mpr ⟨hstorable, hcompatible.storable⟩
  spares := List.pairwise_cons.mpr ⟨hspares, hcompatible.spares⟩

theorem concat (hspares : ∀ earlier ∈ assignments, earlier.Spares assignment) :
    Compatible (assignments ++ [assignment]) where
  storable := List.forall_mem_append.mpr
    ⟨hcompatible.storable, List.forall_mem_singleton.mpr hstorable⟩
  spares := by
    apply List.pairwise_append.mpr
    refine ⟨hcompatible.spares, List.pairwise_singleton _ _, ?_⟩
    intro earlier hearlier later hlater
    rw [List.mem_singleton.mp hlater]
    exact hspares earlier hearlier

end Compatible

theorem isStorable_memory (address : Word) (value : Byte) :
    (byte (.memory address) value).IsStorable := by
  intro heq
  cases heq

theorem spares_word (address : Word) (value : Byte) (name : WordRegister) (value' : Word) :
    (byte (.memory address) value).Spares (.word name value') := by
  rintro ⟨half, -, heq⟩
  cases heq

theorem flags_spares_word {name : WordRegister} (hname : name ≠ .af) (flags : Flags)
    (value : Word) : (Assignment.flags flags).Spares (.word name value) := by
  rintro ⟨half, rfl, heq⟩
  cases heq
  exact hname rfl

theorem compatible_pair {first second : Assignment} (hfirst : first.IsStorable)
    (hsecond : second.IsStorable) (hspares : first.Spares second) :
    Compatible [first, second] :=
  (compatible_singleton hsecond).cons hfirst (List.forall_mem_singleton.mpr hspares)

theorem compatible_memory {first second : Word} (hne : first ≠ second) (value value' : Byte) :
    Compatible [.byte (.memory first) value, .byte (.memory second) value'] := by
  apply compatible_pair (isStorable_memory first value) (isStorable_memory second value')
  intro heq
  cases heq
  exact hne rfl

end Assignment

namespace Machine

/-- The data of `after` is that of `before` with the assignments made. -/
structure Assigns (before : Machine) (assignments : List Assignment) (after : Machine) :
    Prop where
  made : ∀ assignment ∈ assignments, assignment.HoldsIn after
  places : ∀ place, (∀ assignment ∈ assignments, ¬ assignment.Covers place) →
    after.peek place = before.peek place
  words : ∀ name, name ≠ .pc → (∀ assignment ∈ assignments, ¬ assignment.Moves name) →
    after.word name = before.word name
  stopped : after.cpu.stopped = before.cpu.stopped
  halted : after.cpu.halted = before.cpu.halted
  interrupts : .enableInterrupts ∉ assignments → after.cpu.interrupts = before.cpu.interrupts

def assign (machine : Machine) : Assignment → Machine
  | .byte place value => machine.poke place value
  | .word name value => machine.setWord name value
  | .flags value => machine.setFlags value
  | .enableInterrupts => machine.mapCpu Cpu.enableInterrupts

def assignAll (machine : Machine) (assignments : List Assignment) : Machine :=
  assignments.foldl assign machine

theorem assignAll_append (machine : Machine) (first second : List Assignment) :
    machine.assignAll (first ++ second) = (machine.assignAll first).assignAll second :=
  List.foldl_append

/-! ### One assignment -/

theorem peek_setWord_of_ne {name : WordRegister} {place : Place}
    (hne : ∀ half : ByteRegister, half.pair = name → place ≠ .register half) (machine : Machine)
    (value : Word) : (machine.setWord name value).peek place = machine.peek place := by
  cases place with
  | register half =>
    apply Registers.byte_setWord_of_ne
    intro hpair
    exact hne half hpair rfl
  | memory address => rfl

theorem peek_assign_of_not_covers {assignment : Assignment} {place : Place}
    (hcovers : ¬ assignment.Covers place) (machine : Machine) :
    (machine.assign assignment).peek place = machine.peek place := by
  cases assignment with
  | byte target value => exact peek_poke_of_ne hcovers machine value
  | word name value =>
    apply peek_setWord_of_ne
    intro half hpair heq
    exact hcovers ⟨half, hpair, heq⟩
  | flags value => exact peek_poke_of_ne hcovers machine value.toByte
  | enableInterrupts => cases place <;> rfl

theorem word_assign_of_not_moves {assignment : Assignment} {name : WordRegister}
    (hmoves : ¬ assignment.Moves name) (machine : Machine) :
    (machine.assign assignment).word name = machine.word name := by
  cases assignment with
  | byte target value =>
    cases target with
    | register half =>
      apply Registers.word_setByte_of_ne
      rintro rfl
      exact hmoves rfl
    | memory address => rfl
  | word target value => exact Registers.word_setWord_of_ne hmoves _ value
  | flags value =>
    have hname : name ≠ ByteRegister.f.pair := hmoves
    exact Registers.word_setByte_of_ne hname _ value.toByte
  | enableInterrupts => rfl

/-- What is in a place after an assignment depends on nothing but what was there. -/
theorem peek_assign_congr {left right : Machine} {place : Place}
    (hpeek : left.peek place = right.peek place) (assignment : Assignment) :
    (left.assign assignment).peek place = (right.assign assignment).peek place := by
  by_cases hcovers : assignment.Covers place
  · cases assignment with
    | byte target value =>
      cases hcovers
      cases place with
      | register name =>
        exact (Registers.byte_setByte_self _ name value).trans
          (Registers.byte_setByte_self _ name value).symm
      | memory address =>
        exact (Memory.get_set_self _ address value).trans (Memory.get_set_self _ address value).symm
    | word name value =>
      obtain ⟨half, rfl, rfl⟩ := hcovers
      have hbyte (machine : Machine) : (machine.setWord half.pair value).byte half =
          if half.isHigh then Word.high (half.pair.kept value)
          else Word.low (half.pair.kept value) := by
        change (machine.cpu.registers.setWord half.pair value).byte half = _
        rw [Registers.byte, Registers.word_setWord_self]
      exact (hbyte left).trans (hbyte right).symm
    | flags value =>
      cases hcovers
      exact (Registers.byte_setFlags_self _ value).trans (Registers.byte_setFlags_self _ value).symm
    | enableInterrupts => cases hcovers
  · rw [peek_assign_of_not_covers hcovers, peek_assign_of_not_covers hcovers, hpeek]

theorem control_assign (assignment : Assignment) (machine : Machine) :
    (machine.assign assignment).control =
      { machine.control with
        interrupts := match assignment with
          | .enableInterrupts => true
          | _ => machine.cpu.interrupts } := by
  cases assignment with
  | byte target value => exact machine.control_poke target value
  | word name value => rfl
  | flags value => rfl
  | enableInterrupts => rfl

end Machine

namespace Assignment

theorem holdsIn_assign {assignment : Assignment} (hstorable : assignment.IsStorable)
    (machine : Machine) : assignment.HoldsIn (machine.assign assignment) := by
  cases assignment with
  | byte place value => exact Machine.peek_poke_self hstorable machine value
  | word name value =>
    have hkept : name.kept value = value := by
      cases name with
      | af => exact absurd rfl hstorable.1
      | _ => rfl
    exact (Registers.word_setWord_self _ name value).trans hkept
  | flags value => exact Machine.flags_setFlags machine value
  | enableInterrupts => rfl

theorem HoldsIn.assign {earlier later : Assignment} {machine : Machine}
    (hholds : earlier.HoldsIn machine) (hspares : earlier.Spares later) :
    earlier.HoldsIn (machine.assign later) := by
  cases earlier with
  | byte place value => exact (Machine.peek_assign_of_not_covers hspares machine).trans hholds
  | word name value => exact (Machine.word_assign_of_not_moves hspares machine).trans hholds
  | flags value =>
    have hflags := Machine.peek_assign_of_not_covers hspares machine
    exact (congrArg Flags.ofByte hflags).trans hholds
  | enableInterrupts =>
    have hcontrol := congrArg Machine.Control.interrupts (machine.control_assign later)
    have hkept : (machine.assign later).cpu.interrupts = machine.cpu.interrupts ∨
        (machine.assign later).cpu.interrupts = true := by
      cases later with
      | enableInterrupts => exact .inr rfl
      | _ => exact .inl hcontrol
    rcases hkept with hkept | hkept
    · exact hkept.trans hholds
    · exact hkept

end Assignment

/-! ### All assignments -/

namespace Machine

variable {assignments : List Assignment}

theorem holdsIn_assignAll {earlier : Assignment} {machine : Machine}
    (hholds : earlier.HoldsIn machine) (hspares : ∀ later ∈ assignments, earlier.Spares later) :
    earlier.HoldsIn (machine.assignAll assignments) := by
  induction assignments generalizing machine with
  | nil => exact hholds
  | cons first rest ih =>
    obtain ⟨hfirst, hrest⟩ := List.forall_mem_cons.mp hspares
    exact ih (hholds.assign hfirst) hrest

theorem made_assignAll (hcompatible : Assignment.Compatible assignments) (machine : Machine) :
    ∀ assignment ∈ assignments, assignment.HoldsIn (machine.assignAll assignments) := by
  obtain ⟨hstorable, hspares⟩ := hcompatible
  induction assignments generalizing machine with
  | nil =>
    intro assignment hmem
    exact absurd hmem List.not_mem_nil
  | cons first rest ih =>
    obtain ⟨hfirst, hrest⟩ := List.forall_mem_cons.mp hstorable
    obtain ⟨hspared, hlater⟩ := List.pairwise_cons.mp hspares
    rw [List.forall_mem_cons]
    constructor
    · show first.HoldsIn ((machine.assign first).assignAll rest)
      exact holdsIn_assignAll (Assignment.holdsIn_assign hfirst machine) hspared
    · exact ih (machine.assign first) hrest hlater

theorem peek_assignAll_of_not_covers {place : Place}
    (hcovers : ∀ assignment ∈ assignments, ¬ assignment.Covers place) (machine : Machine) :
    (machine.assignAll assignments).peek place = machine.peek place := by
  induction assignments generalizing machine with
  | nil => rfl
  | cons first rest ih =>
    obtain ⟨hfirst, hrest⟩ := List.forall_mem_cons.mp hcovers
    exact (ih hrest (machine.assign first)).trans (peek_assign_of_not_covers hfirst machine)

theorem word_assignAll_of_not_moves {name : WordRegister}
    (hmoves : ∀ assignment ∈ assignments, ¬ assignment.Moves name) (machine : Machine) :
    (machine.assignAll assignments).word name = machine.word name := by
  induction assignments generalizing machine with
  | nil => rfl
  | cons first rest ih =>
    obtain ⟨hfirst, hrest⟩ := List.forall_mem_cons.mp hmoves
    exact (ih hrest (machine.assign first)).trans (word_assign_of_not_moves hfirst machine)

theorem control_assignAll (assignments : List Assignment) (machine : Machine) :
    (machine.assignAll assignments).cpu.stopped = machine.cpu.stopped ∧
      (machine.assignAll assignments).cpu.halted = machine.cpu.halted ∧
      (.enableInterrupts ∉ assignments →
        (machine.assignAll assignments).cpu.interrupts = machine.cpu.interrupts) := by
  induction assignments generalizing machine with
  | nil => exact ⟨rfl, rfl, fun _ => rfl⟩
  | cons first rest ih =>
    obtain ⟨hstopped, hhalted, hinterrupts⟩ := ih (machine.assign first)
    have hcontrol := machine.control_assign first
    refine ⟨hstopped.trans (congrArg Control.stopped hcontrol),
      hhalted.trans (congrArg Control.halted hcontrol), ?_⟩
    intro hmem
    have hfirst : .enableInterrupts ≠ first := List.ne_of_not_mem_cons hmem
    apply (hinterrupts (List.not_mem_of_not_mem_cons hmem)).trans
    cases first with
    | enableInterrupts => exact absurd rfl hfirst
    | _ => exact congrArg Control.interrupts hcontrol

namespace SameData

variable {before after left right : Machine}

/-- Flags that are set again need not have been set. -/
theorem setFlags_assign (assignment : Assignment) (machine : Machine) (flags flags' : Flags) :
    (((machine.setFlags flags).assign assignment).setFlags flags').SameData
      ((machine.assign assignment).setFlags flags') := by
  refine of_peek ?_ ?_ ?_
  · intro place
    by_cases hplace : place = .register .f
    · rw [hplace]
      exact (Registers.byte_setFlags_self _ flags').trans
        (Registers.byte_setFlags_self _ flags').symm
    · have hflags (machine : Machine) (flags : Flags) :
          (machine.setFlags flags).peek place = machine.peek place :=
        peek_poke_of_ne hplace machine flags.toByte
      rw [hflags, hflags]
      exact peek_assign_congr (hflags machine flags) assignment
  · change ((machine.setFlags flags).assign assignment).word .sp =
      (machine.assign assignment).word .sp
    cases assignment with
    | byte target value =>
      rw [assign, assign, word_sp_poke, word_sp_poke]
      rfl
    | word name value => cases name <;> rfl
    | flags value => rfl
    | enableInterrupts => rfl
  · exact (control_assign assignment (machine.setFlags flags)).trans
      (control_assign assignment machine).symm

theorem interrupts (hsame : left.SameData right) : left.cpu.interrupts = right.cpu.interrupts :=
  congrArg Control.interrupts hsame.control

theorem enableInterrupts (hsame : left.SameData right) :
    (left.mapCpu Cpu.enableInterrupts).SameData (right.mapCpu Cpu.enableInterrupts) where
  word := hsame.word
  memory := hsame.memory
  control := congrArg (fun control => { control with interrupts := true }) hsame.control

theorem holdsIn (hsame : left.SameData right) {assignment : Assignment}
    (hstorable : assignment.IsStorable) (hholds : assignment.HoldsIn right) :
    assignment.HoldsIn left := by
  cases assignment with
  | byte place value => exact (hsame.peek place).trans hholds
  | word name value => exact (hsame.word name hstorable.2).trans hholds
  | flags value => exact hsame.flags.trans hholds
  | enableInterrupts => exact hsame.interrupts.trans hholds

/-- An instruction that makes the assignments one after the other. -/
theorem assigns (hsame : after.SameData (before.assignAll assignments))
    (hcompatible : Assignment.Compatible assignments) : before.Assigns assignments after := by
  obtain ⟨hstopped, hhalted, hinterrupts⟩ := before.control_assignAll assignments
  refine ⟨?_, ?_, ?_, (congrArg Control.stopped hsame.control).trans hstopped,
    (congrArg Control.halted hsame.control).trans hhalted, ?_⟩
  · intro assignment hmem
    exact hsame.holdsIn (hcompatible.storable assignment hmem)
      (made_assignAll hcompatible before assignment hmem)
  · intro place hcovers
    exact (hsame.peek place).trans (peek_assignAll_of_not_covers hcovers before)
  · intro name hname hmoves
    exact (hsame.word name hname).trans (word_assignAll_of_not_moves hmoves before)
  · intro hmem
    exact hsame.interrupts.trans (hinterrupts hmem)

end SameData

end Machine

end Sm83

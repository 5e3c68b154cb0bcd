import Sm83.Proofs.Stack

/-!
# Nested use of the stack

Pushes and pops that match like brackets (`StackOperation.Nested`) treat the stack as last-in
first-out: every pop returns what the push it belongs to has stored, the stack pointer ends where it
began, and memory changes nowhere but in the bytes below it that as many words fill as were on the
stack at once. The words may fill the address space: the bytes that hold a pushed word are out of
reach of all that is pushed later, up to 32767 words above it.
-/

namespace Sm83

/-- What a program does to the stack, and what it does in between. -/
inductive StackOperation where
  | push (source : WordRegister)
  | pop (target : WordRegister)
  /-- Anything that leaves memory and the stack pointer alone. -/
  | change (cpu : Cpu)

namespace StackOperation

/-- The greatest number of words on the stack at once, as far as the operations put them there. -/
def depth : List StackOperation → Nat
  | [] => 0
  | .push _ :: rest => depth rest + 1
  | .pop _ :: rest => depth rest - 1
  | .change _ :: rest => depth rest

/-- Every push has a pop that belongs to it, and the pairs do not cross. Nothing pops the stack
pointer itself. -/
inductive Nested : List StackOperation → Prop
  | nil : Nested []
  | change {rest : List StackOperation} (cpu : Cpu) (hrest : Nested rest) :
      Nested (.change cpu :: rest)
  | pair {inner rest : List StackOperation} {target : WordRegister} (source : WordRegister)
      (hinner : Nested inner) (htarget : target ≠ .sp) (hrest : Nested rest) :
      Nested (.push source :: (inner ++ .pop target :: rest))

/-- What is nested goes as deep as it goes by itself, whatever follows. -/
theorem Nested.depth_append {inner : List StackOperation} (hinner : Nested inner)
    (rest : List StackOperation) : depth (inner ++ rest) = max (depth inner) (depth rest) := by
  induction hinner generalizing rest with
  | nil => exact (Nat.zero_max _).symm
  | change cpu hrest ih => exact ih rest
  | @pair inner tail target source hinner htarget htail ihinner ihtail =>
    have hpop (after : List StackOperation) :
        depth (inner ++ .pop target :: after) = max (depth inner) (depth after - 1) :=
      ihinner _
    rw [List.cons_append, List.append_assoc, List.cons_append, depth, depth, hpop, hpop, ihtail]
    omega

theorem Nested.depth_pair {inner : List StackOperation} (hinner : Nested inner)
    (source target : WordRegister) (rest : List StackOperation) :
    depth (.push source :: (inner ++ .pop target :: rest)) =
      max (depth inner + 1) (depth rest) := by
  rw [depth, hinner.depth_append, depth]
  omega

end StackOperation

namespace Machine

def perform (machine : Machine) : StackOperation → Machine
  | .push source => machine.push (.wordRegister source)
  | .pop target => machine.pop (.wordRegister target)
  | .change cpu => (machine.mapCpu fun _ => cpu).setWord .sp (machine.word .sp)

def performAll (machine : Machine) (operations : List StackOperation) : Machine :=
  operations.foldl perform machine

theorem performAll_append (machine : Machine) (first second : List StackOperation) :
    machine.performAll (first ++ second) = (machine.performAll first).performAll second :=
  List.foldl_append

theorem performAll_cons (machine : Machine) (first : StackOperation)
    (rest : List StackOperation) :
    machine.performAll (first :: rest) = (machine.perform first).performAll rest := rfl

theorem performAll_pair (machine : Machine) (source target : WordRegister)
    (inner rest : List StackOperation) :
    machine.performAll (.push source :: (inner ++ .pop target :: rest)) =
      (((machine.push (.wordRegister source)).performAll inner).pop
        (.wordRegister target)).performAll rest := by
  rw [performAll_cons, performAll_append, performAll_cons, perform, perform]

/-! ### One push and one pop -/

theorem word_sp_push (machine : Machine) (source : WordRegister) :
    (machine.push (.wordRegister source)).word .sp = machine.word .sp - 2 := by
  have hread : ((Operand.wordRegister source).read machine).machine.SameData machine :=
    .refl machine
  exact (sameData_push (.refl machine) hread).word .sp (by decide)

theorem get_memory_push_of_ne {machine : Machine} {address : Word}
    (hlow : address ≠ machine.word .sp - 2) (hhigh : address ≠ machine.word .sp - 1)
    (source : WordRegister) :
    (machine.push (.wordRegister source)).memory.get address = machine.memory.get address := by
  rw [memory_push]
  exact (Memory.get_set_of_ne hhigh _ _).trans (Memory.get_set_of_ne hlow _ _)

theorem word_memory_push (machine : Machine) (source : WordRegister) :
    (machine.push (.wordRegister source)).memory.word (machine.word .sp - 2) =
      machine.word source := by
  have hnext : machine.word .sp - 2 + 1 = machine.word .sp - 1 := by bv_omega
  have hne : machine.word .sp - 2 ≠ machine.word .sp - 1 := by bv_omega
  have hlow : (machine.push (.wordRegister source)).memory.get (machine.word .sp - 2) =
      Word.low (machine.word source) := by
    rw [memory_push]
    exact (Memory.get_set_of_ne hne _ _).trans (Memory.get_set_self _ _ _)
  have hhigh : (machine.push (.wordRegister source)).memory.get (machine.word .sp - 1) =
      Word.high (machine.word source) := by
    rw [memory_push]
    exact Memory.get_set_self _ _ _
  rw [Memory.word, hnext, hlow, hhigh, Word.ofBytes_low_high]

theorem word_sp_pop {target : WordRegister} (htarget : target ≠ .sp) (machine : Machine) :
    (machine.pop (.wordRegister target)).word .sp = machine.word .sp + 2 := by
  have hread := Pointer.sameData_readWord_pop (.refl machine)
  have hkept := Registers.word_setWord_of_ne htarget.symm
    (Pointer.pop.readWord machine).machine.cpu.registers (Pointer.pop.readWord machine).value
  exact hkept.trans (hread.word .sp (by decide))

theorem memory_pop (machine : Machine) (target : WordRegister) :
    (machine.pop (.wordRegister target)).memory = machine.memory := by
  have hread := Pointer.sameData_readWord_pop (.refl machine)
  exact hread.memory

theorem word_pop_self (machine : Machine) (target : WordRegister) :
    (machine.pop (.wordRegister target)).word target =
      target.kept (machine.memory.word (machine.word .sp)) := by
  rw [← Pointer.value_readWord_pop]
  exact Registers.word_setWord_self _ target _

/-! ### Below the stack pointer -/

/-- The stack pointer is where it was, and so is memory, except in the bytes below it that `depth`
words fill. -/
structure Returns (before : Machine) (depth : Nat) (after : Machine) : Prop where
  sp : after.word .sp = before.word .sp
  memory : ∀ address, 2 * depth ≤ (before.word .sp - 1 - address).toNat →
    after.memory.get address = before.memory.get address

namespace Returns

variable {before middle after machine : Machine} {depth depth' : Nat}

theorem refl (machine : Machine) : machine.Returns depth machine where
  sp := rfl
  memory _ _ := rfl

theorem mono (hreturns : before.Returns depth after) (hdepth : depth ≤ depth') :
    before.Returns depth' after where
  sp := hreturns.sp
  memory address haddress := by
    apply hreturns.memory address
    omega

theorem trans (hfirst : before.Returns depth middle) (hsecond : middle.Returns depth after) :
    before.Returns depth after where
  sp := hsecond.sp.trans hfirst.sp
  memory address haddress := by
    have hmiddle : 2 * depth ≤ (middle.word .sp - 1 - address).toNat := by
      rw [hfirst.sp]
      exact haddress
    exact (hsecond.memory address hmiddle).trans (hfirst.memory address haddress)

theorem change (machine : Machine) (cpu : Cpu) :
    machine.Returns depth (machine.perform (.change cpu)) where
  sp := rfl
  memory _ _ := rfl

/-- A pair of a push and a pop, `depth` words at most being used in between. -/
theorem pop {source target : WordRegister} (htarget : target ≠ .sp)
    (hinner : (machine.push (.wordRegister source)).Returns depth after) :
    machine.Returns (depth + 1) (after.pop (.wordRegister target)) where
  sp := by
    rw [word_sp_pop htarget, hinner.sp, word_sp_push]
    exact BitVec.sub_add_cancel _ _
  memory address haddress := by
    have hpushed := hinner.memory address
    rw [word_sp_push] at hpushed
    have hlow : address ≠ machine.word .sp - 2 := by
      rintro rfl
      bv_omega
    have hhigh : address ≠ machine.word .sp - 1 := by
      rintro rfl
      bv_omega
    have hbelow : 2 * depth ≤ (machine.word .sp - 2 - 1 - address).toNat := by bv_omega
    rw [memory_pop, hpushed hbelow, get_memory_push_of_ne hlow hhigh]

/-- The word pushed is still there at the pop, as long as the words in between do not go all the way
around the address space. -/
theorem word_pop {source : WordRegister} (hdepth : depth < 32768)
    (hinner : (machine.push (.wordRegister source)).Returns depth after) (target : WordRegister) :
    (after.pop (.wordRegister target)).word target = target.kept (machine.word source) := by
  have hpushed := hinner.memory
  rw [word_sp_push] at hpushed
  -- Counted downwards from below the word, its bytes are the last two of the address space.
  have hlow := hpushed (machine.word .sp - 2) (by bv_omega)
  have hhigh := hpushed (machine.word .sp - 2 + 1) (by bv_omega)
  rw [word_pop_self, hinner.sp, word_sp_push, Memory.word, hlow, hhigh]
  exact congrArg target.kept (machine.word_memory_push source)

end Returns

end Machine

namespace StackOperation

theorem Nested.returns {operations : List StackOperation} (hnested : Nested operations)
    (machine : Machine) : machine.Returns (depth operations) (machine.performAll operations) := by
  induction hnested generalizing machine with
  | nil => exact .refl machine
  | change cpu hrest ih => exact (Machine.Returns.change machine cpu).trans (ih _)
  | @pair inner rest target source hinner htarget hrest ihinner ihrest =>
    rw [hinner.depth_pair, Machine.performAll_pair]
    have hpair := Machine.Returns.pop htarget (ihinner (machine.push (.wordRegister source)))
    have hafter := ihrest ((((machine.push (.wordRegister source)).performAll inner).pop
      (.wordRegister target)))
    exact (hpair.mono (Nat.le_max_left _ _)).trans (hafter.mono (Nat.le_max_right _ _))

/-- An operation of a list lies before another one, is that one, or comes after it. -/
theorem append_cons_cases {inner rest earlier later : List StackOperation}
    {last operation : StackOperation}
    (hsplit : inner ++ last :: rest = earlier ++ operation :: later) :
    (∃ between, inner = earlier ++ operation :: between) ∨ earlier = inner ∨
      ∃ between, earlier = inner ++ last :: between ∧ rest = between ++ operation :: later := by
  obtain ⟨between, hearlier, hlast⟩ | ⟨between, hinner, hoperation⟩ :=
    List.append_eq_append_iff.mp hsplit
  · cases between with
    | nil =>
      rw [List.append_nil] at hearlier
      exact .inr (.inl hearlier)
    | cons first between =>
      obtain ⟨rfl, hrest⟩ := List.cons.inj hlast
      exact .inr (.inr ⟨between, hearlier, hrest⟩)
  · cases between with
    | nil =>
      rw [List.append_nil] at hinner
      exact .inr (.inl hinner.symm)
    | cons first between =>
      obtain ⟨rfl, -⟩ := List.cons.inj hoperation
      exact .inl ⟨between, hinner⟩

end StackOperation

namespace Machine

open StackOperation

/-- The pop that comes after the earlier operations has its push among them, with nothing but nested
operations in between, and returns what that has stored. AF drops a part of it. -/
def PopReturns (machine : Machine) (earlier : List StackOperation) (target : WordRegister) : Prop :=
  ∃ before source inner, earlier = before ++ .push source :: inner ∧ Nested inner ∧
    (machine.performAll (earlier ++ [.pop target])).word target =
      if target = .af then (machine.performAll before).word source &&& 0xFFF0
      else (machine.performAll before).word source

theorem PopReturns.append {machine : Machine} {first earlier : List StackOperation}
    {target : WordRegister} (hpop : (machine.performAll first).PopReturns earlier target) :
    machine.PopReturns (first ++ earlier) target := by
  obtain ⟨before, source, inner, rfl, hinner, hvalue⟩ := hpop
  refine ⟨first ++ before, source, inner, (List.append_assoc _ _ _).symm, hinner, ?_⟩
  rw [List.append_assoc, machine.performAll_append first, machine.performAll_append first, hvalue]

/-- The pop that ends a pair. -/
theorem popReturns_pair {inner : List StackOperation} (hinner : Nested inner)
    (hdepth : depth inner < 32768) (machine : Machine) (source target : WordRegister) :
    machine.PopReturns (.push source :: inner) target := by
  have hkept (value : Word) :
      target.kept value = if target = .af then value &&& 0xFFF0 else value := by
    cases target <;> rfl
  have hreturns := hinner.returns (machine.push (.wordRegister source))
  refine ⟨[], source, inner, rfl, hinner, ?_⟩
  rw [List.cons_append, performAll_pair]
  exact (hreturns.word_pop hdepth target).trans (hkept _)

end Machine

namespace StackOperation

theorem Nested.popReturns {operations earlier later : List StackOperation}
    {target : WordRegister} (hnested : Nested operations) (hdepth : depth operations ≤ 32768)
    (hpop : operations = earlier ++ .pop target :: later) (machine : Machine) :
    machine.PopReturns earlier target := by
  induction hnested generalizing machine earlier later with
  | nil => exact absurd hpop.symm (List.append_ne_nil_of_right_ne_nil _ (List.cons_ne_nil _ _))
  | @change rest cpu hrest ih =>
    cases earlier with
    | nil => cases hpop
    | cons first earlier =>
      obtain ⟨rfl, hrest⟩ := List.cons.inj hpop
      have hlater : (machine.performAll [.change cpu]).PopReturns earlier target :=
        ih hdepth hrest (machine.perform (.change cpu))
      exact hlater.append
  | @pair inner rest last source hinner hlast hrest ihinner ihrest =>
    rw [hinner.depth_pair] at hdepth
    have hdepthInner : depth inner < 32768 := by omega
    have hdepthRest : depth rest ≤ 32768 := by omega
    cases earlier with
    | nil => cases hpop
    | cons first earlier =>
      obtain ⟨rfl, hsplit⟩ := List.cons.inj hpop
      -- The pop lies inside the pair, ends it or comes after it.
      obtain ⟨between, hin⟩ | rfl | ⟨between, rfl, hafter⟩ := append_cons_cases hsplit
      · have hinside : (machine.performAll [.push source]).PopReturns earlier target :=
          ihinner (Nat.le_of_lt hdepthInner) hin (machine.perform (.push source))
        exact hinside.append
      · exact Machine.popReturns_pair hinner hdepthInner machine source target
      · have hlater := ihrest hdepthRest hafter
          (machine.performAll (.push source :: (inner ++ [.pop last])))
        have happend : .push source :: (inner ++ .pop last :: between) =
            (.push source :: (inner ++ [.pop last])) ++ between := by simp
        rw [happend]
        exact hlater.append

/-- The stack is last-in first-out: whatever nested operations find in a register when they push it,
the pop that belongs to the push puts into its target, the stack pointer comes back, and only as
much memory below it is used as the words on the stack at once take up. -/
theorem Nested.last_in_first_out {operations : List StackOperation} (hnested : Nested operations)
    (hdepth : depth operations ≤ 32768) (machine : Machine) :
    (∀ earlier target later, operations = earlier ++ .pop target :: later →
      machine.PopReturns earlier target) ∧
    (machine.performAll operations).word .sp = machine.word .sp ∧
    ∀ address, 2 * depth operations ≤ (machine.word .sp - 1 - address).toNat →
      (machine.performAll operations).memory.get address = machine.memory.get address := by
  have hreturns := hnested.returns machine
  refine ⟨?_, hreturns.sp, hreturns.memory⟩
  intro earlier target later hpop
  exact hnested.popReturns hdepth hpop machine

/-- A word goes to AF through a stack that lies across the end of the address space. -/
def throughStack : List StackOperation :=
  [.push .bc, .change { stopped := true }, .push .pc, .pop .hl, .pop .af]

theorem nested_throughStack : Nested throughStack := by
  have hinner : Nested (.push .pc :: ([] ++ .pop .hl :: [])) :=
    .pair .pc .nil (by decide) .nil
  exact .pair .bc (.change { stopped := true } hinner) (by decide) .nil

theorem last_in_first_out_throughStack :
    Nested throughStack ∧ depth throughStack ≤ 32768 ∧
      ((Machine.initial {}).setWord .sp 1).PopReturns (throughStack.take 4) .af ∧
      (((Machine.initial {}).setWord .sp 1).performAll throughStack).word .sp = 1 := by
  have hdepth : depth throughStack ≤ 32768 := by decide
  obtain ⟨hpops, hsp, -⟩ := nested_throughStack.last_in_first_out hdepth
    ((Machine.initial {}).setWord .sp 1)
  exact ⟨nested_throughStack, hdepth, hpops (throughStack.take 4) .af [] rfl, hsp⟩

end StackOperation

end Sm83

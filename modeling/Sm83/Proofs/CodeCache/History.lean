import Mathlib.Logic.Relation
import Sm83.CodeCache.Run
import Sm83.Proofs.Block.Execution
import Sm83.Proofs.Budget
import Sm83.Proofs.CodeCache.Contents

/-!
# Runs of compiled code and the caches they leave behind

A run passes through stages, one before each block and one at its end. Both kinds of runs differ only
in when a stage is the last (`CodeCache.Stage.exit?`), so they are treated as one here
(`CodeCache.runTo`), a missing deadline being the run without a budget.

A cache has a history: it was empty once, and then code was compiled, run or dropped. What holds of
every cache with a history is proved from what is compiled in it (`CodeCache.History.all`).
-/

namespace Sm83

namespace CodeCache

/-- Where a run looks at the processor. -/
structure Stage where
  cache : CodeCache
  machine : Machine

namespace Stage

/-- Why a run with this deadline, or with none, ends at the stage. -/
def exit? (deadline : Option Nat) (stage : Stage) : Option Exit :=
  match stage.machine.exit? with
  | some exit => some exit
  | none =>
    match deadline with
    | none => none
    | some limit => if limit ≤ stage.machine.clock then some .outOfCycles else none

/-- The run goes on at the first stage and comes to the second with the next block. -/
structure Enters (deadline : Option Nat) (before after : Stage) : Prop where
  goesOn : before.exit? deadline = none
  lookup : ∃ routine, before.cache.lookup before.machine = ⟨.ok routine, after.cache⟩ ∧
    after.machine = routine.execute before.machine

/-- A run that is at the first stage comes to the second. -/
def Visits (deadline : Option Nat) : Stage → Stage → Prop :=
  Relation.ReflTransGen (Enters deadline)

theorem exit?_none (stage : Stage) : stage.exit? none = stage.machine.exit? := by
  simp only [exit?]
  cases stage.machine.exit? with
  | none => rfl
  | some exit => rfl

theorem exit?_of_machine {deadline : Option Nat} {stage : Stage} {exit : Exit}
    (hexit : stage.machine.exit? = some exit) : stage.exit? deadline = some exit := by
  simp only [Stage.exit?, hexit]

theorem exit?_eq_none_iff {deadline : Option Nat} {stage : Stage} :
    stage.exit? deadline = none ↔
      stage.machine.exit? = none ∧
        ∀ limit, deadline = some limit → stage.machine.clock < limit := by
  simp only [exit?]
  cases stage.machine.exit? with
  | some exit => simp
  | none =>
    cases deadline with
    | none => simp
    | some limit => simp

theorem exit?_some_eq_none_iff {limit : Nat} {stage : Stage} :
    stage.exit? (some limit) = none ↔ ¬ stage.machine.IsOver limit := by
  rw [Machine.not_isOver_iff, exit?_eq_none_iff]
  simp

/-- A stage where a run ends tells the reason by its machine. -/
theorem exit?_some_of_isOver {limit : Nat} {stage : Stage} (hover : stage.machine.IsOver limit) :
    stage.exit? (some limit) = some stage.machine.reason := by
  cases hmachine : stage.machine.exit? with
  | some exit => rw [exit?_of_machine hmachine, Machine.reason_of_exit? hmachine]
  | none =>
    have hreason := Machine.reason_eq_outOfCycles_iff.mpr hmachine
    simp only [Stage.exit?, hmachine, if_pos (hover.le_clock hreason), hreason]

theorem isOver_of_exit?_some {limit : Nat} {stage : Stage} {exit : Exit}
    (hexit : stage.exit? (some limit) = some exit) :
    stage.machine.IsOver limit ∧ exit = stage.machine.reason := by
  have hover : stage.machine.IsOver limit := by
    refine Decidable.not_not.mp fun hgoes => ?_
    rw [exit?_some_eq_none_iff.mpr hgoes] at hexit
    cases hexit
  rw [exit?_some_of_isOver hover] at hexit
  exact ⟨hover, (Option.some.inj hexit).symm⟩

/-- Where a run ends, the machine tells the reason. -/
theorem reason_of_exit? {deadline : Option Nat} {stage : Stage} {exit : Exit}
    (hexit : stage.exit? deadline = some exit) : exit = stage.machine.reason := by
  cases deadline with
  | none =>
    rw [exit?_none] at hexit
    exact (Machine.reason_of_exit? hexit).symm
  | some limit => exact (isOver_of_exit?_some hexit).2

theorem exit?_none_of_exit? {deadline : Option Nat} {stage : Stage}
    (hgoes : stage.exit? deadline = none) : stage.exit? none = none := by
  rw [exit?_none]
  exact (exit?_eq_none_iff.mp hgoes).1

theorem exists_enters {deadline : Option Nat} {before : Stage}
    (hgoes : before.exit? deadline = none) : ∃ after, Enters deadline before after := by
  rcases before.cache.lookup_cases before.machine with ⟨compiled, -, -, hlookup⟩ | hfound
  · exact ⟨⟨before.cache, compiled.routine.execute before.machine⟩, hgoes, _, hlookup, rfl⟩
  · obtain ⟨block, -, hlookup⟩ := hfound
    exact ⟨⟨(before.cache.insert block).cache, block.compile.execute before.machine⟩, hgoes, _,
      hlookup, rfl⟩

/-- There is only one way to go on. -/
theorem Enters.unique {deadline : Option Nat} {before after other : Stage}
    (henters : Enters deadline before after) (hother : Enters deadline before other) :
    after = other := by
  obtain ⟨-, routine, hlookup, hafter⟩ := henters
  obtain ⟨-, routine', hlookup', hafter'⟩ := hother
  cases after
  cases other
  rw [hlookup] at hlookup'
  cases hlookup'
  exact congrArg (Stage.mk _) (hafter.trans hafter'.symm)

/-- A run stays at the stage where it ends. -/
theorem Visits.eq_of_exit? {deadline : Option Nat} {first last : Stage} {exit : Exit}
    (hvisits : Visits deadline first last) (hexit : first.exit? deadline = some exit) :
    last = first := by
  rcases hvisits.cases_head with heq | ⟨next, henters, -⟩
  · exact heq.symm
  · rw [henters.goesOn] at hexit
    cases hexit

end Stage

open Stage

/-- A run with this deadline, or with none, that enters no more than `fuel` blocks. -/
def runTo (deadline : Option Nat) (fuel : Nat) (first : Stage) : Option Ended :=
  match deadline with
  | none => first.cache.runWithin fuel first.machine
  | some limit => first.cache.runUntilWithin limit fuel first.machine

/-- A run without a budget is one that has no deadline. -/
theorem runWithin_eq_runTo (cache : CodeCache) (fuel : Nat) (machine : Machine) :
    cache.runWithin fuel machine = runTo none fuel ⟨cache, machine⟩ := rfl

/-- A run with a budget is one to the machine's deadline, with as many blocks as cycles. -/
theorem runFor_eq_runTo (cache : CodeCache) (budget : Nat) (machine : Machine) :
    cache.runFor budget machine =
      runTo (some (machine.deadline budget)) budget ⟨cache, machine⟩ := rfl

section Runs

variable {deadline : Option Nat} {first before after last : Stage} {fuel : Nat} {exit : Exit}

theorem runTo_of_exit? (hexit : first.exit? deadline = some exit) (fuel : Nat) :
    runTo deadline fuel first = some ⟨.ok exit, first.machine, first.cache⟩ := by
  simp only [Stage.exit?] at hexit
  cases hmachine : first.machine.exit? with
  | some reason =>
    simp only [hmachine, Option.some.injEq] at hexit
    rw [← hexit]
    cases deadline <;> cases fuel <;> simp only [runTo, runWithin, runUntilWithin, hmachine]
  | none =>
    simp only [hmachine] at hexit
    cases deadline with
    | none => cases hexit
    | some limit =>
      obtain ⟨hlimit, hreason⟩ := Option.ite_some_none_eq_some.mp hexit
      rw [← hreason]
      cases fuel <;> simp only [runTo, runUntilWithin, hmachine, if_pos hlimit]

theorem runTo_zero (hgoes : first.exit? deadline = none) : runTo deadline 0 first = none := by
  obtain ⟨hmachine, hclock⟩ := exit?_eq_none_iff.mp hgoes
  cases deadline with
  | none => simp only [runTo, runWithin, hmachine]
  | some limit =>
    have hlimit : ¬ limit ≤ first.machine.clock := Nat.not_le.mpr (hclock limit rfl)
    simp only [runTo, runUntilWithin, hmachine, if_neg hlimit]

theorem runTo_succ (henters : Enters deadline before after) (fuel : Nat) :
    runTo deadline (fuel + 1) before = runTo deadline fuel after := by
  obtain ⟨hgoes, routine, hlookup, hafter⟩ := henters
  obtain ⟨hmachine, hclock⟩ := exit?_eq_none_iff.mp hgoes
  cases deadline with
  | none => simp only [runTo, runWithin, hmachine, hlookup, hafter]
  | some limit =>
    have hlimit : ¬ limit ≤ before.machine.clock := Nat.not_le.mpr (hclock limit rfl)
    simp only [runTo, runUntilWithin, hmachine, if_neg hlimit, hlookup, hafter]

/-- A run that is allowed enough blocks ends at the last of the stages it visits. -/
theorem exists_runTo_eq_some_iff {ended : Ended} :
    (∃ fuel, runTo deadline fuel first = some ended) ↔
      ∃ last exit, Visits deadline first last ∧ last.exit? deadline = some exit ∧
        ended = ⟨.ok exit, last.machine, last.cache⟩ := by
  constructor
  · intro hrun
    obtain ⟨fuel, hrun⟩ := hrun
    induction fuel generalizing first with
    | zero =>
      cases hexit : first.exit? deadline with
      | none =>
        rw [runTo_zero hexit] at hrun
        cases hrun
      | some exit =>
        rw [runTo_of_exit? hexit] at hrun
        cases hrun
        exact ⟨first, exit, .refl, hexit, rfl⟩
    | succ fuel ih =>
      cases hexit : first.exit? deadline with
      | none =>
        obtain ⟨next, henters⟩ := exists_enters hexit
        rw [runTo_succ henters] at hrun
        obtain ⟨last, exit, hvisits, hlast⟩ := ih hrun
        exact ⟨last, exit, .head henters hvisits, hlast⟩
      | some exit =>
        rw [runTo_of_exit? hexit] at hrun
        cases hrun
        exact ⟨first, exit, .refl, hexit, rfl⟩
  · intro hends
    obtain ⟨last, exit, hvisits, hexit, hended⟩ := hends
    rw [hended]
    induction hvisits using Relation.ReflTransGen.head_induction_on with
    | refl => exact ⟨0, runTo_of_exit? hexit 0⟩
    | head henters _ ih =>
      obtain ⟨fuel, hrun⟩ := ih
      refine ⟨fuel + 1, ?_⟩
      rw [runTo_succ henters, hrun]

/-- A run does not fail, and the machine tells why it has ended. -/
theorem result_of_runTo {ended : Ended} (hrun : runTo deadline fuel first = some ended) :
    ended.result = .ok ended.machine.reason := by
  obtain ⟨last, exit, -, hexit, hended⟩ := exists_runTo_eq_some_iff.mp ⟨fuel, hrun⟩
  rw [hended]
  exact congrArg Except.ok (reason_of_exit? hexit)

section Property

variable {property : Word → Compiled → Prop}

/-- What a run does at a stage where all cached blocks have a property of discovered ones. -/
theorem Stage.Enters.exists_compiled (henters : Enters deadline before after)
    (hall : before.cache.All property) (hdiscovered : OfDiscovery property) :
    ∃ compiled, before.cache.lookup before.machine = ⟨.ok compiled.routine, after.cache⟩ ∧
      after.cache.get? (before.machine.word .pc) = some compiled ∧
      property (before.machine.word .pc) compiled ∧
      after.machine = compiled.routine.execute before.machine ∧
      after.cache.All property := by
  obtain ⟨-, routine, hlookup, hafter⟩ := henters
  obtain ⟨compiled, kept, hkept, hget, hproperty, -, hall⟩ := hall.lookup hdiscovered before.machine
  rw [hlookup] at hkept
  cases hkept
  exact ⟨compiled, hlookup, hget, hproperty, hafter, hall⟩

theorem All.visits (hall : first.cache.All property) (hdiscovered : OfDiscovery property)
    (hvisits : Visits deadline first last) : last.cache.All property := by
  induction hvisits with
  | refl => exact hall
  | tail _ henters ih =>
    obtain ⟨compiled, -, -, -, -, hafter⟩ := henters.exists_compiled ih hdiscovered
    exact hafter

theorem All.runTo (hall : first.cache.All property) (hdiscovered : OfDiscovery property)
    {ended : Ended} (hrun : runTo deadline fuel first = some ended) :
    ended.cache.All property := by
  obtain ⟨last, exit, hvisits, -, hended⟩ := exists_runTo_eq_some_iff.mp ⟨fuel, hrun⟩
  rw [hended]
  exact hall.visits hdiscovered hvisits

end Property

theorem Stage.Enters.clock_lt (henters : Enters deadline before after)
    (hall : before.cache.All Compiled.Accepted) : before.machine.clock < after.machine.clock := by
  obtain ⟨compiled, -, -, haccepted, hafter, -⟩ :=
    henters.exists_compiled hall Compiled.ofDiscovery_accepted
  rw [hafter]
  exact Routine.clock_lt_clock_execute haccepted.steps_ne_nil before.machine

/-- No more blocks are entered than there are cycles until the deadline. -/
theorem exists_runTo_eq_some (hall : first.cache.All Compiled.Accepted) {limit : Nat}
    (hfuel : limit ≤ first.machine.clock + fuel) :
    ∃ exit final kept, runTo (some limit) fuel first = some ⟨.ok exit, final, kept⟩ := by
  induction fuel generalizing first with
  | zero =>
    cases hexit : first.exit? (some limit) with
    | some exit => exact ⟨exit, _, _, runTo_of_exit? hexit 0⟩
    | none =>
      have hclock := (exit?_eq_none_iff.mp hexit).2 limit rfl
      omega
  | succ fuel ih =>
    cases hexit : first.exit? (some limit) with
    | some exit => exact ⟨exit, _, _, runTo_of_exit? hexit (fuel + 1)⟩
    | none =>
      obtain ⟨next, henters⟩ := exists_enters hexit
      have hclock := henters.clock_lt hall
      obtain ⟨exit, final, kept, hrun⟩ :=
        ih (hall.visits Compiled.ofDiscovery_accepted (.single henters)) (by omega)
      refine ⟨exit, final, kept, ?_⟩
      rw [runTo_succ henters, hrun]

theorem exists_runFor_eq_some {cache : CodeCache} (hall : cache.All Compiled.Accepted)
    (machine : Machine) (budget : Nat) :
    ∃ exit final kept, cache.runFor budget machine = some ⟨.ok exit, final, kept⟩ := by
  rw [runFor_eq_runTo]
  exact exists_runTo_eq_some hall (Nat.min_le_left _ _)

end Runs

/-! ### Histories -/

/-- What is done with a cache. -/
inductive Action where
  | compile (start : Word) (bytes : List Byte)
  | run (machine : Machine)
  | runFor (machine : Machine) (budget : Nat)
  | invalidate (start : Word)
  | invalidateRange (first last : Word)
  | clear

def Action.isCompile : Action → Bool
  | .compile .. => true
  | _ => false

/-- The action turns the first cache into the second, whether it succeeds or not. A run does so only
if it ends. -/
inductive Acts : CodeCache → Action → CodeCache → Prop
  | compiled (cache : CodeCache) (start : Word) (bytes : List Byte) :
      Acts cache (.compile start bytes) (cache.compile start bytes).cache
  | ran {cache : CodeCache} {machine : Machine} {fuel : Nat} {ended : Ended}
      (hrun : cache.runWithin fuel machine = some ended) : Acts cache (.run machine) ended.cache
  | ranFor {cache : CodeCache} {machine : Machine} {budget : Nat} {ended : Ended}
      (hrun : cache.runFor budget machine = some ended) :
      Acts cache (.runFor machine budget) ended.cache
  | invalidated (cache : CodeCache) (start : Word) :
      Acts cache (.invalidate start) (cache.invalidate start).2
  | invalidatedRange (cache : CodeCache) (first last : Word) :
      Acts cache (.invalidateRange first last) (cache.invalidateRange first last).2
  | cleared (cache : CodeCache) : Acts cache .clear .empty

/-- The caches that allowed actions make out of an empty one. -/
inductive History (allowed : Action → Prop) : CodeCache → Prop
  | empty : History allowed .empty
  | act {before after : CodeCache} {action : Action} (hbefore : History allowed before)
      (hallowed : allowed action) (hacts : Acts before action after) : History allowed after

/-- The caches that can come about at all. -/
def Reachable : CodeCache → Prop := History fun _ => True

/-- The caches whose blocks were all compiled in the course of a run. -/
def FilledByRuns : CodeCache → Prop := History fun action => action.isCompile = false

/-- All blocks in a cache have what the blocks compiled in its history have. -/
theorem History.all {allowed : Action → Prop} {property : Word → Compiled → Prop}
    (hdecoded : ∀ start bytes block, allowed (.compile start bytes) →
      Block.decode start bytes = .ok block → property start ⟨block, block.compile⟩)
    (hdiscovered : OfDiscovery property)
    {cache : CodeCache} (hhistory : History allowed cache) : cache.All property := by
  induction hhistory with
  | empty => exact all_empty property
  | act _ hallowed hacts ih =>
    cases hacts with
    | compiled start bytes =>
      exact ih.compile fun block hdecode => hdecoded start bytes block hallowed hdecode
    | ran hrun =>
      rw [runWithin_eq_runTo] at hrun
      exact ih.runTo hdiscovered hrun
    | ranFor hrun =>
      rw [runFor_eq_runTo] at hrun
      exact ih.runTo hdiscovered hrun
    | invalidated dropped => exact ih.invalidate _
    | invalidatedRange => exact ih.invalidateRange _ _
    | cleared => exact all_empty property

theorem Reachable.accepted {cache : CodeCache} (hreachable : Reachable cache) :
    cache.All Compiled.Accepted :=
  History.all (fun _ _ _ _ hdecode => Compiled.accepted_of_decode hdecode)
    Compiled.ofDiscovery_accepted hreachable

theorem FilledByRuns.discovered {cache : CodeCache} (hfilled : FilledByRuns cache) :
    cache.All Compiled.Discovered := by
  refine History.all ?_ Compiled.ofDiscovery_discovered hfilled
  intro start bytes block hallowed
  cases hallowed

theorem History.mono {cache : CodeCache} {allowed allowed' : Action → Prop}
    (hmono : ∀ action, allowed action → allowed' action) (hhistory : History allowed cache) :
    History allowed' cache := by
  induction hhistory with
  | empty => exact .empty
  | act _ hallowed hacts ih => exact .act ih (hmono _ hallowed) hacts

theorem FilledByRuns.reachable {cache : CodeCache} (hfilled : FilledByRuns cache) :
    Reachable cache :=
  hfilled.mono fun _ _ => trivial

/-! ### What a run leaves behind -/

/-- The cache after a run with a budget. Such a run always ends (`exists_runFor_eq_some`). -/
def afterRunFor (cache : CodeCache) (machine : Machine) (budget : Nat) : CodeCache :=
  match cache.runFor budget machine with
  | some ended => ended.cache
  | none => cache

theorem FilledByRuns.afterRunFor {cache : CodeCache} (hfilled : FilledByRuns cache)
    (machine : Machine) (budget : Nat) : FilledByRuns (cache.afterRunFor machine budget) := by
  rw [CodeCache.afterRunFor]
  split
  · next hrun => exact .act hfilled rfl (.ranFor hrun)
  · exact hfilled

/-- Two runs have filled the cache: one of the last block of the code that patches itself, before it
is patched, and one of the first. -/
def patchCache : CodeCache :=
  (empty.afterRunFor (Machine.patching.setWord .pc 0x010F) 1).afterRunFor Machine.patching 5

theorem filledByRuns_patchCache : FilledByRuns patchCache :=
  (FilledByRuns.afterRunFor .empty _ 1).afterRunFor _ 5

/-- A run finds the first block unchanged and the last one changed, and compiles that anew. -/
theorem runs_patchCache :
    (∃ compiled ∈ patchCache.get? 0x0100,
        Machine.patching.memory.holds 0x0100 compiled.block.bytes = true) ∧
      (∃ stale ∈ patchCache.get? 0x010F, stale.block.bytes = [0x00, 0x76]) ∧
      (∃ ended ∈ patchCache.runFor 5 Machine.patching,
        ended.machine.reason = .outOfCycles ∧ ended.machine.clock = 18) ∧
      (∃ ended ∈ patchCache.runFor 19 Machine.patching,
        ended.machine.reason = .halted ∧ ended.machine.clock = 20) ∧
      ∃ ended ∈ patchCache.runWithin 2 Machine.patching,
        ended.machine.reason = .halted ∧ ended.machine.clock = 20 ∧
          ∃ compiled ∈ ended.cache.get? 0x010F, compiled.block.bytes = [0x67, 0x76] := by
  decide +kernel

end CodeCache

end Sm83

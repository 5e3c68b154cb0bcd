import Sm83.Proofs.Block.Cost
import Sm83.Proofs.Budget
import Sm83.Proofs.CodeCache.Integrity
import Sm83.Proofs.CodeCache.Transparency

/-!
# Running compiled code with a budget

A run with a budget enters no more blocks than it may spend cycles, since every block takes one. It
passes its deadline only while executing its last block, so it is late by less than that block takes,
however the program changes its own code. As in a run of the machine, interrupting a run early and
going on leads to the same end, and to the same cache.
-/

namespace Sm83

namespace CodeCache

open Stage

section Runs

variable {deadline : Option Nat} {first middle last : Stage} {ended other : Ended}
  {blocks : List Block}

/-- A run that ends goes on as the run from any stage it visits. -/
theorem exists_runTo_of_visits (hvisits : Visits deadline first middle)
    (hrun : ∃ fuel, runTo deadline fuel first = some ended) :
    ∃ fuel, runTo deadline fuel middle = some ended := by
  induction hvisits with
  | refl => exact hrun
  | tail _ henters ih =>
    obtain ⟨fuel, hrun⟩ := ih
    cases fuel with
    | zero =>
      rw [runTo_zero henters.goesOn] at hrun
      cases hrun
    | succ fuel =>
      rw [runTo_succ henters] at hrun
      exact ⟨fuel, hrun⟩

/-- How many blocks a run may enter does not matter to one that ends. -/
theorem runTo_unique {fuel more : Nat} (hended : runTo deadline fuel first = some ended)
    (hother : runTo deadline more first = some other) : ended = other := by
  obtain ⟨last, exit, hvisits, hexit, hlast⟩ := exists_runTo_eq_some_iff.mp ⟨fuel, hended⟩
  obtain ⟨rest, hrest⟩ := exists_runTo_of_visits hvisits ⟨more, hother⟩
  rw [runTo_of_exit? hexit, ← hlast] at hrest
  exact Option.some.inj hrest

/-- A run visits the stages of a run with an earlier deadline. -/
theorem Stage.Visits.of_le {earlier limit : Nat} (hle : earlier ≤ limit)
    (hvisits : Visits (some earlier) first last) : Visits (some limit) first last := by
  refine Relation.ReflTransGen.mono ?_ _ _ hvisits
  intro before after henters
  refine ⟨exit?_some_eq_none_iff.mpr fun hover => ?_, henters.lookup⟩
  exact exit?_some_eq_none_iff.mp henters.goesOn (hover.of_le hle)

theorem Stage.Visits.clock_le (hvisits : Visits deadline first last)
    (hall : first.cache.All Compiled.Accepted) : first.machine.clock ≤ last.machine.clock := by
  induction hvisits with
  | refl => exact Nat.le_refl _
  | tail hbefore henters ih =>
    have hlt := henters.clock_lt (hall.visits Compiled.ofDiscovery_accepted hbefore)
    exact Nat.le_trans ih (Nat.le_of_lt hlt)

/-- The last of the blocks on a path leads to its end. -/
theorem Stage.Path.exists_executes_last (hpath : Path deadline first blocks last) {block : Block}
    (hblock : block ∈ blocks.getLast?) :
    ∃ before, Visits deadline first before ∧ Executes deadline before block last := by
  induction hpath with
  | nil => cases hblock
  | @cons before next last head rest hexecutes hrest ih =>
    cases hrest with
    | nil =>
      cases hblock
      exact ⟨before, .refl, hexecutes⟩
    | cons hnext htail =>
      rw [List.getLast?_cons_cons] at hblock
      obtain ⟨place, hvisits, hlast⟩ := ih hblock
      exact ⟨place, .head hexecutes.enters hvisits, hlast⟩

/-- A run is late by less than its last block takes. -/
theorem Stage.Path.clock_lt {limit : Nat} (hpath : Path (some limit) first blocks last)
    {block : Block} (hblock : block ∈ blocks.getLast?) :
    last.machine.clock < limit + block.cycles := by
  obtain ⟨before, -, hexecutes⟩ := hpath.exists_executes_last hblock
  have hbefore := (Machine.not_isOver_iff.mp (exit?_some_eq_none_iff.mp hexecutes.goesOn)).2
  have hcost := Block.clock_execute_compile_le hexecutes.decode before.machine
  rw [hexecutes.machine]
  omega

/-- The blocks that are executed from a cache of discovered blocks are discovered ones. -/
theorem Stage.Path.cycles_le (hpath : Path deadline first blocks last)
    (hcache : first.cache.Discovered) {block : Block} (hblock : block ∈ blocks.getLast?) :
    block.cycles ≤ 321 := by
  obtain ⟨before, -, hexecutes⟩ := hpath.exists_executes_last hblock
  have hlast : last.cache.Discovered :=
    All.visits hcache Compiled.ofDiscovery_discovered hpath.visits
  obtain ⟨⟨memory, hdiscover⟩, -⟩ := hlast _ _ hexecutes.cached
  exact Block.cycles_le_of_discover hdiscover

/-- A run of discovered blocks is late by the rest of a block of 64 instructions at most. -/
theorem Stage.Path.clock_le {limit : Nat} (hpath : Path (some limit) first blocks last)
    (hcache : first.cache.Discovered) (hbefore : first.machine.clock ≤ limit) :
    last.machine.clock ≤ limit + 320 := by
  cases hblock : blocks.getLast? with
  | none =>
    rw [List.getLast?_eq_none_iff.mp hblock] at hpath
    cases hpath
    omega
  | some block =>
    have hlate := hpath.clock_lt hblock
    have hcycles := hpath.cycles_le hcache hblock
    omega

/-- Below what 64 bits can count, the deadline is the budget away. -/
theorem runFor_eq_runTo_of_clock {cache : CodeCache} {machine : Machine} {budget : Nat}
    (hclock : machine.clock + budget < 2 ^ 64) :
    cache.runFor budget machine = runTo (some (machine.clock + budget)) budget ⟨cache, machine⟩ := by
  rw [runFor_eq_runTo, Machine.deadline_eq hclock]

/-- A run may be taken up again at any stage, with what is left of the budget there. -/
theorem runFor_eq_of_visits {budget : Nat} (hall : first.cache.All Compiled.Accepted)
    (hclock : first.machine.clock + budget < 2 ^ 64)
    (hvisits : Visits (some (first.machine.clock + budget)) first middle) :
    middle.cache.runFor (budget - (middle.machine.clock - first.machine.clock)) middle.machine =
      first.cache.runFor budget first.machine := by
  have hprogress := hvisits.clock_le hall
  obtain ⟨exit, final, kept, hwhole⟩ := exists_runFor_eq_some hall first.machine budget
  have hto := hwhole
  rw [runFor_eq_runTo_of_clock hclock] at hto
  obtain ⟨fuel, hrest⟩ := exists_runTo_of_visits hvisits ⟨budget, hto⟩
  rw [hwhole]
  by_cases hspent : first.machine.clock + budget ≤ middle.machine.clock
  · -- Nothing is left, so the run was at its end.
    have hover : middle.machine.IsOver (first.machine.clock + budget) := .inr (.inr hspent)
    have hnow : middle.machine.IsOver (middle.machine.deadline 0) :=
      .inr (.inr (Nat.min_le_left _ _))
    have hzero : budget - (middle.machine.clock - first.machine.clock) = 0 := by omega
    rw [runTo_of_exit? (exit?_some_of_isOver hover)] at hrest
    rw [hzero, ← hrest, runFor_eq_runTo]
    exact runTo_of_exit? (exit?_some_of_isOver hnow) 0
  · have hsame : middle.machine.clock + (budget - (middle.machine.clock - first.machine.clock)) =
        first.machine.clock + budget := by
      omega
    have hmiddle := hall.visits Compiled.ofDiscovery_accepted hvisits
    obtain ⟨exit', final', kept', hresumed⟩ := exists_runFor_eq_some hmiddle middle.machine
      (budget - (middle.machine.clock - first.machine.clock))
    rw [hresumed]
    rw [runFor_eq_runTo_of_clock (by omega), hsame] at hresumed
    exact congrArg some (runTo_unique hresumed hrest)

/-- A run that ends early and then goes on ends as the whole run does. -/
theorem exists_runFor_runFor {cache : CodeCache} (hall : cache.All Compiled.Accepted)
    {machine : Machine} {budget slice : Nat} (hclock : machine.clock + budget < 2 ^ 64)
    (hslice : slice ≤ budget) :
    ∃ ended, cache.runFor slice machine = some ended ∧
      ended.cache.runFor (budget - (ended.machine.clock - machine.clock)) ended.machine =
        cache.runFor budget machine := by
  obtain ⟨exit, final, kept, hfirst⟩ := exists_runFor_eq_some hall machine slice
  refine ⟨_, hfirst, ?_⟩
  rw [runFor_eq_runTo_of_clock (by omega)] at hfirst
  obtain ⟨last, reason, hvisits, -, hended⟩ := exists_runTo_eq_some_iff.mp ⟨slice, hfirst⟩
  cases hended
  exact runFor_eq_of_visits hall hclock (hvisits.of_le (by simp only; omega))

end Runs

/-- A run with a budget returns whatever the code does to itself, after no more blocks than it may
take cycles. It is late by less than its last block takes, and slices of it end as it does. -/
theorem runFor_ends_in_last_block {cache : CodeCache} (hreachable : Reachable cache)
    {machine : Machine} {budget : Nat} (hclock : machine.clock + budget < 2 ^ 64) :
    (∃ blocks last, Path (some (machine.clock + budget)) ⟨cache, machine⟩ blocks last ∧
        blocks.length ≤ budget ∧
        cache.runFor budget machine = some ⟨.ok last.machine.reason, last.machine, last.cache⟩ ∧
        (last.machine.reason = .outOfCycles →
          machine.clock + budget ≤ last.machine.clock ∧
            (blocks = [] → last.machine.clock = machine.clock + budget)) ∧
        (∀ block ∈ blocks.getLast?,
          last.machine.clock < machine.clock + budget + block.cycles) ∧
        (FilledByRuns cache → last.machine.clock ≤ machine.clock + budget + 320)) ∧
      ∀ slice ≤ budget, ∃ ended, cache.runFor slice machine = some ended ∧
        ended.cache.runFor (budget - (ended.machine.clock - machine.clock)) ended.machine =
          cache.runFor budget machine := by
  have hall : (⟨cache, machine⟩ : Stage).cache.All Compiled.Accepted := hreachable.accepted
  refine ⟨?_, fun slice hslice => exists_runFor_runFor hall hclock hslice⟩
  obtain ⟨exit, final, kept, hrun⟩ := exists_runFor_eq_some hall machine budget
  rw [runFor_eq_runTo_of_clock hclock] at hrun ⊢
  obtain ⟨blocks, last, hpath, hends⟩ :=
    exists_path hall (some (machine.clock + budget)) budget
  rcases hends with ⟨reason, hlast, hlength, hends⟩ | ⟨-, -, hnone⟩
  · obtain ⟨hover, hreason⟩ := isOver_of_exit?_some hlast
    rw [hreason] at hends
    refine ⟨blocks, last, hpath, hlength, hends, ?_, fun block hblock => hpath.clock_lt hblock, ?_⟩
    · intro hout
      have hlate := hover.le_clock hout
      refine ⟨hlate, ?_⟩
      rintro rfl
      cases hpath
      simp only at hlate ⊢
      omega
    · intro hfilled
      exact hpath.clock_le hfilled.discovered (Nat.le_add_right _ _)
  · rw [hrun] at hnone
    cases hnone

/-- With five cycles to spend the first block is executed to its end, thirteen cycles late. The rest
of nineteen cycles is then one cycle, which is enough for the last block. -/
theorem runFor_ends_in_last_block_patching :
    FilledByRuns patchCache ∧
      (∃ blocks last, Path (some 5) ⟨patchCache, Machine.patching⟩ blocks last ∧
        blocks.length ≤ 5 ∧
        patchCache.runFor 5 Machine.patching =
          some ⟨.ok .outOfCycles, last.machine, last.cache⟩ ∧
        last.machine.clock = 18 ∧ ∀ block ∈ blocks.getLast?, 13 < block.cycles) ∧
      ∃ paused whole, patchCache.runFor 5 Machine.patching = some paused ∧
        patchCache.runFor 19 Machine.patching = some whole ∧
        paused.cache.runFor 1 paused.machine = some whole ∧ whole.machine.reason = .halted := by
  have hreachable := filledByRuns_patchCache.reachable
  have hstart : Machine.patching.clock = 0 := rfl
  obtain ⟨-, -, ⟨paused, hpaused, hreason, hclock⟩, ⟨whole, hwhole, hhalted, -⟩, -⟩ :=
    runs_patchCache
  rw [Option.mem_def] at hpaused hwhole
  obtain ⟨⟨blocks, last, hpath, hlength, hrun, -, hlate, -⟩, -⟩ :=
    runFor_ends_in_last_block hreachable (by decide : Machine.patching.clock + 5 < 2 ^ 64)
  obtain ⟨-, hslices⟩ :=
    runFor_ends_in_last_block hreachable (by decide : Machine.patching.clock + 19 < 2 ^ 64)
  cases hpaused.symm.trans hrun
  rw [hreason] at hrun
  refine ⟨filledByRuns_patchCache, ⟨blocks, last, ?_, hlength, hrun, hclock, ?_⟩, ?_⟩
  · rw [hstart] at hpath
    exact hpath
  · intro block hblock
    have hcycles := hlate block hblock
    rw [hclock, hstart] at hcycles
    omega
  · obtain ⟨ended, hfirst, hresume⟩ := hslices 5 (by decide)
    cases hpaused.symm.trans hfirst
    rw [hclock, hstart] at hresume
    exact ⟨_, whole, hfirst, hwhole, hresume.trans hwhole, hhalted⟩

end CodeCache

end Sm83

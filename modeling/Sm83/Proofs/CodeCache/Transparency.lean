import Sm83.Proofs.CodeCache.Interpretation

/-!
# A cache filled by runs does not show

Runs that begin with the blocks of earlier runs and runs that begin with an empty cache go through
the same states, block by block, even when a program overwrites the code it is executing. A cached
block whose bytes are still in memory is the block that discovery would find there, so both runs
execute the same routine at every stage.
-/

namespace Sm83

namespace CodeCache

open Stage

/-- What a run shows, apart from the cache it leaves behind. -/
def Ended.outcome (ended : Ended) : Except BlockError Exit × Machine :=
  (ended.result, ended.machine)

/-- Every block in the cache was discovered in some memory. -/
def Discovered (cache : CodeCache) : Prop := cache.All Compiled.Discovered

theorem discovered_empty : Discovered empty := all_empty _

/-- The routine that is looked up depends only on the machine. -/
theorem Discovered.lookup {cache : CodeCache} (hcache : cache.Discovered) {machine : Machine}
    {block : Block} (hblock : Block.discover machine.memory (machine.word .pc) = .ok block) :
    ∃ after, cache.lookup machine = ⟨.ok block.compile, after⟩ ∧ after.Discovered := by
  obtain ⟨compiled, after, hlookup, -, hdiscovered, hholds, hafter⟩ :=
    All.lookup hcache Compiled.ofDiscovery_discovered machine
  cases hblock.symm.trans (hdiscovered.discover_eq hholds)
  refine ⟨after, ?_, hafter⟩
  rw [hlookup, hdiscovered.2]

theorem map_outcome_of_exit? {deadline : Option Nat} {cache : CodeCache} {machine : Machine}
    {exit : Exit} (hexit : exit? deadline ⟨cache, machine⟩ = some exit) (fuel : Nat) :
    (runTo deadline fuel ⟨cache, machine⟩).map Ended.outcome = some (.ok exit, machine) := by
  rw [runTo_of_exit? hexit]
  rfl

theorem map_outcome_of_runTo {deadline : Option Nat} {fuel : Nat} {first : Stage} {ended : Ended}
    (hrun : runTo deadline fuel first = some ended) :
    (runTo deadline fuel first).map Ended.outcome =
      some (.ok ended.machine.reason, ended.machine) := by
  rw [hrun, Option.map_some, Ended.outcome, result_of_runTo hrun]

/-- Two runs from the same machine proceed in step. -/
theorem map_outcome_runTo {cache other : CodeCache} (hcache : cache.Discovered)
    (hother : other.Discovered) (deadline : Option Nat) (fuel : Nat) (machine : Machine) :
    (runTo deadline fuel ⟨cache, machine⟩).map Ended.outcome =
      (runTo deadline fuel ⟨other, machine⟩).map Ended.outcome := by
  induction fuel generalizing cache other machine with
  | zero =>
    cases hexit : exit? deadline ⟨cache, machine⟩ with
    | some exit =>
      have hsame : exit? deadline ⟨other, machine⟩ = some exit := hexit
      rw [map_outcome_of_exit? hexit, map_outcome_of_exit? hsame]
    | none =>
      have hsame : exit? deadline ⟨other, machine⟩ = none := hexit
      rw [runTo_zero hexit, runTo_zero hsame]
  | succ fuel ih =>
    cases hexit : exit? deadline ⟨cache, machine⟩ with
    | some exit =>
      have hsame : exit? deadline ⟨other, machine⟩ = some exit := hexit
      rw [map_outcome_of_exit? hexit, map_outcome_of_exit? hsame]
    | none =>
      -- Both caches yield the routine of the one block that can be discovered here.
      obtain ⟨block, hblock⟩ := Block.exists_discover_eq_ok machine.memory (machine.word .pc)
      obtain ⟨after, hlookup, hafter⟩ := hcache.lookup hblock
      obtain ⟨after', hlookup', hafter'⟩ := hother.lookup hblock
      have henters : Enters deadline ⟨cache, machine⟩ ⟨after, block.compile.execute machine⟩ :=
        ⟨hexit, block.compile, hlookup, rfl⟩
      have henters' : Enters deadline ⟨other, machine⟩ ⟨after', block.compile.execute machine⟩ :=
        ⟨hexit, block.compile, hlookup', rfl⟩
      rw [runTo_succ henters, runTo_succ henters']
      exact ih hafter hafter' (block.compile.execute machine)

/-- Whatever ran before, a run ends as it does with an empty cache, after as many blocks. -/
theorem run_outcome_eq_of_filledByRuns {cache : CodeCache} (hfilled : FilledByRuns cache)
    (machine : Machine) :
    (∀ fuel, (cache.runWithin fuel machine).map Ended.outcome =
        (empty.runWithin fuel machine).map Ended.outcome) ∧
      (∀ budget, ∃ exit final,
        (cache.runFor budget machine).map Ended.outcome = some (.ok exit, final) ∧
          (empty.runFor budget machine).map Ended.outcome = some (.ok exit, final)) ∧
      ∀ compiled, cache.get? (machine.word .pc) = some compiled →
        machine.memory.holds (machine.word .pc) compiled.block.bytes = true →
          Block.discover machine.memory (machine.word .pc) = .ok compiled.block := by
  have hcache : cache.Discovered := hfilled.discovered
  refine ⟨?_, ?_, ?_⟩
  · intro fuel
    rw [runWithin_eq_runTo, runWithin_eq_runTo]
    exact map_outcome_runTo hcache discovered_empty none fuel machine
  · intro budget
    obtain ⟨exit, final, kept, hrun⟩ := exists_runFor_eq_some (all_empty _) machine budget
    have hempty : (empty.runFor budget machine).map Ended.outcome = some (.ok exit, final) := by
      rw [hrun]
      rfl
    refine ⟨exit, final, ?_, hempty⟩
    rw [← hempty, runFor_eq_runTo, runFor_eq_runTo]
    exact map_outcome_runTo hcache discovered_empty _ budget machine
  · intro compiled hget hholds
    exact (hcache (machine.word .pc) compiled hget).discover_eq hholds

theorem run_outcome_eq_patching :
    FilledByRuns patchCache ∧
      (∃ stale ∈ patchCache.get? 0x010F, stale.block.bytes = [0x00, 0x76]) ∧
      (∃ final, (patchCache.runWithin 2 Machine.patching).map Ended.outcome =
          some (.ok .halted, final) ∧
        (empty.runWithin 2 Machine.patching).map Ended.outcome = some (.ok .halted, final)) ∧
      (∃ final, (patchCache.runFor 5 Machine.patching).map Ended.outcome =
          some (.ok .outOfCycles, final) ∧ final.clock = 18 ∧
        (empty.runFor 5 Machine.patching).map Ended.outcome = some (.ok .outOfCycles, final)) ∧
      ∃ compiled ∈ patchCache.get? 0x0100,
        Block.discover Machine.patching.memory 0x0100 = .ok compiled.block := by
  obtain ⟨⟨compiled, hget, hholds⟩, hstale, ⟨paused, hpaused, hreason, hclock⟩,
    -, ended, hended, hhalted, -⟩ := runs_patchCache
  obtain ⟨hruns, hbudgets, hdiscover⟩ :=
    run_outcome_eq_of_filledByRuns filledByRuns_patchCache Machine.patching
  rw [Option.mem_def, runWithin_eq_runTo] at hended
  rw [Option.mem_def, runFor_eq_runTo] at hpaused
  have hwithin := map_outcome_of_runTo hended
  have hfor := map_outcome_of_runTo hpaused
  rw [← runWithin_eq_runTo, hhalted] at hwithin
  rw [← runFor_eq_runTo, hreason] at hfor
  obtain ⟨exit, final, hcached, hempty⟩ := hbudgets 5
  have hsame := hempty.trans (hcached.symm.trans hfor)
  exact ⟨filledByRuns_patchCache, hstale, ⟨ended.machine, hwithin, (hruns 2).symm.trans hwithin⟩,
    ⟨paused.machine, hfor, hclock, hsame⟩, compiled, hget, hdiscover compiled hget hholds⟩

end CodeCache

end Sm83

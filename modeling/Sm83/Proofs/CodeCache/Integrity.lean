import Sm83.Proofs.CodeCache.Interpretation

/-!
# Nothing stale is executed

Every cached block lies under its own start address and is what decoding makes of its bytes. A lookup
in such a cache finds a block that memory holds at the program counter, and touches no other. A run
is a sequence of such turns (`CodeCache.Stage.Path`), each described in full by
`CodeCache.Stage.Executes`, and there is no other way for it to go (`CodeCache.exists_path`).
-/

namespace Sm83

namespace CodeCache

variable {cache : CodeCache}

namespace Stage

/-- One turn of a run: a block that is in memory at the program counter is looked up and executed. -/
structure Executes (deadline : Option Nat) (before : Stage) (block : Block) (after : Stage) :
    Prop where
  goesOn : before.exit? deadline = none
  start : block.start = before.machine.word .pc
  holds : before.machine.memory.holds block.start block.bytes = true
  decode : Block.decode block.start block.bytes = .ok block
  lookup : before.cache.lookup before.machine = ⟨.ok block.compile, after.cache⟩
  cached : after.cache.get? block.start = some ⟨block, block.compile⟩
  others : ∀ other, other ≠ block.start → after.cache.get? other = before.cache.get? other
  machine : after.machine = block.compile.execute before.machine

/-- A run that goes from the first stage to the last executes these blocks on its way. -/
inductive Path (deadline : Option Nat) : Stage → List Block → Stage → Prop
  | nil (stage : Stage) : Path deadline stage [] stage
  | cons {before next last : Stage} {block : Block} {blocks : List Block}
      (hexecutes : Executes deadline before block next) (hrest : Path deadline next blocks last) :
      Path deadline before (block :: blocks) last

variable {deadline : Option Nat} {before after first last : Stage} {block : Block}
  {blocks : List Block}

theorem Executes.enters (hexecutes : Executes deadline before block after) :
    Enters deadline before after :=
  ⟨hexecutes.goesOn, block.compile, hexecutes.lookup, hexecutes.machine⟩

theorem exists_executes (hall : before.cache.All Compiled.Accepted)
    (hgoes : before.exit? deadline = none) :
    ∃ block after, Executes deadline before block after := by
  rcases before.cache.lookup_cases before.machine with ⟨compiled, hget, hholds, hlookup⟩ | hfound
  · obtain ⟨block, routine⟩ := compiled
    obtain ⟨hdecode, hroutine⟩ := hall _ _ hget
    change Block.decode _ block.bytes = .ok block at hdecode
    change routine = block.compile at hroutine
    subst hroutine
    have hstart : block.start = before.machine.word .pc :=
      (Block.decode_eq_ok_iff.mp hdecode).2.1
    rw [← hstart] at hdecode hholds hget
    exact ⟨block, ⟨before.cache, block.compile.execute before.machine⟩,
      hgoes, hstart, hholds, hdecode, hlookup, hget, fun _ _ => rfl, rfl⟩
  · obtain ⟨block, hdiscover, hlookup⟩ := hfound
    have hdecode := Block.decode_of_discover hdiscover
    have hholds := Block.holds_of_discover hdiscover
    have hstart : block.start = before.machine.word .pc :=
      (Block.decode_eq_ok_iff.mp hdecode).2.1
    rw [← hstart] at hdecode hholds
    refine ⟨block, ⟨(before.cache.insert block).cache, block.compile.execute before.machine⟩,
      hgoes, hstart, hholds, hdecode, hlookup, ?_, ?_, rfl⟩
    · rw [get?_insert, if_pos rfl]
    · intro other hother
      rw [get?_insert, if_neg (Ne.symm hother)]

theorem Path.visits (hpath : Path deadline first blocks last) : Visits deadline first last := by
  induction hpath with
  | nil stage => exact .refl
  | cons hexecutes _ ih => exact .head hexecutes.enters ih

end Stage

open Stage

/-- A run goes along a path of turns and returns from the end of it, never with an error, or has
executed as many blocks as it may. -/
theorem exists_path {first : Stage} (hall : first.cache.All Compiled.Accepted)
    (deadline : Option Nat) (fuel : Nat) :
    ∃ blocks last, Path deadline first blocks last ∧
      ((∃ exit, last.exit? deadline = some exit ∧ blocks.length ≤ fuel ∧
          runTo deadline fuel first = some ⟨.ok exit, last.machine, last.cache⟩) ∨
        last.exit? deadline = none ∧ blocks.length = fuel ∧ runTo deadline fuel first = none) := by
  induction fuel generalizing first with
  | zero =>
    refine ⟨[], first, .nil first, ?_⟩
    cases hexit : first.exit? deadline with
    | some exit => exact .inl ⟨exit, rfl, Nat.le_refl 0, runTo_of_exit? hexit 0⟩
    | none => exact .inr ⟨rfl, rfl, runTo_zero hexit⟩
  | succ fuel ih =>
    cases hexit : first.exit? deadline with
    | some exit =>
      exact ⟨[], first, .nil first, .inl ⟨exit, hexit, Nat.zero_le _, runTo_of_exit? hexit _⟩⟩
    | none =>
      obtain ⟨block, next, hexecutes⟩ := exists_executes hall hexit
      have hnext : next.cache.All Compiled.Accepted :=
        hall.visits Compiled.ofDiscovery_accepted (.single hexecutes.enters)
      obtain ⟨blocks, last, hpath, hends⟩ := ih hnext
      refine ⟨block :: blocks, last, .cons hexecutes hpath, ?_⟩
      rw [runTo_succ hexecutes.enters]
      rcases hends with ⟨exit, hlast, hlength, hrun⟩ | ⟨hlast, hlength, hrun⟩
      · exact .inl ⟨exit, hlast, Nat.succ_le_succ hlength, hrun⟩
      · exact .inr ⟨hlast, congrArg Nat.succ hlength, hrun⟩

/-- However a cache came about, its blocks are what their bytes say, and runs execute only what is in
memory when they come to it. Both kinds of runs are runs as `runTo` describes them
(`runWithin_eq_runTo`, `runFor_eq_runTo`). -/
theorem reachable_executes_memory (hreachable : Reachable cache) :
    (∀ start compiled, cache.get? start = some compiled →
        compiled.block.start = start ∧ compiled.block.bytes ≠ [] ∧
          Block.decode start compiled.block.bytes = .ok compiled.block ∧
          compiled.routine = compiled.block.compile) ∧
      ∀ machine : Machine,
        (∀ deadline fuel, ∃ blocks last, Path deadline ⟨cache, machine⟩ blocks last ∧
          ((∃ exit, last.exit? deadline = some exit ∧ blocks.length ≤ fuel ∧
              runTo deadline fuel ⟨cache, machine⟩ =
                some ⟨.ok exit, last.machine, last.cache⟩) ∨
            last.exit? deadline = none ∧ blocks.length = fuel ∧
              runTo deadline fuel ⟨cache, machine⟩ = none)) ∧
        (∀ fuel ended, cache.runWithin fuel machine = some ended →
          ∃ exit, ended.result = .ok exit) ∧
        ∀ budget, ∃ exit final kept,
          cache.runFor budget machine = some ⟨.ok exit, final, kept⟩ := by
  have hall := hreachable.accepted
  refine ⟨?_, ?_⟩
  · intro start compiled hget
    obtain ⟨hdecode, hroutine⟩ := hall start compiled hget
    obtain ⟨hbytes, hstart, -, -⟩ := Block.decode_eq_ok_iff.mp hdecode
    exact ⟨hstart, hbytes, hdecode, hroutine⟩
  · intro machine
    refine ⟨fun deadline fuel => exists_path hall deadline fuel, ?_,
      fun budget => exists_runFor_eq_some hall machine budget⟩
    intro fuel ended hrun
    rw [runWithin_eq_runTo] at hrun
    exact ⟨ended.machine.reason, result_of_runTo hrun⟩

theorem reachable_executes_memory_patching :
    Reachable patchCache ∧
      (∃ stale ∈ patchCache.get? 0x010F, stale.block.bytes = [0x00, 0x76] ∧
        Block.decode 0x010F [0x00, 0x76] = .ok stale.block) ∧
      (∃ blocks last, Path none ⟨patchCache, Machine.patching⟩ blocks last ∧ blocks.length ≤ 2 ∧
        last.exit? none = some .halted ∧
        ∃ compiled ∈ last.cache.get? 0x010F, compiled.block.bytes = [0x67, 0x76]) ∧
      ∃ exit final kept,
        patchCache.runFor 5 Machine.patching = some ⟨.ok exit, final, kept⟩ := by
  have hreachable := filledByRuns_patchCache.reachable
  obtain ⟨-, ⟨stale, hstale, hbytes⟩, -, -, ended, hended, hreason, -, hrecompiled⟩ :=
    runs_patchCache
  obtain ⟨hcached, hruns⟩ := reachable_executes_memory hreachable
  obtain ⟨hpaths, -, hbudget⟩ := hruns Machine.patching
  have hdecode := (hcached 0x010F stale hstale).2.2.1
  rw [hbytes] at hdecode
  refine ⟨hreachable, ⟨stale, hstale, hbytes, hdecode⟩, ?_, hbudget 5⟩
  have hrun : runTo none 2 ⟨patchCache, Machine.patching⟩ = some ended := by
    rw [← runWithin_eq_runTo]
    exact hended
  obtain ⟨blocks, last, hpath, ⟨exit, hexit, hlength, hlast⟩ | ⟨-, -, hnone⟩⟩ := hpaths none 2
  · cases hrun.symm.trans hlast
    rw [reason_of_exit? hexit, hreason] at hexit
    exact ⟨blocks, last, hpath, hlength, hexit, hrecompiled⟩
  · rw [hrun] at hnone
    cases hnone

end CodeCache

end Sm83

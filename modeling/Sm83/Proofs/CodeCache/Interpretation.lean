import Sm83.Proofs.CodeCache.History

/-!
# Compiled code and interpretation

Running compiled code takes the steps that the machine would take by itself, so long as no block
overwrites an opcode of its own before coming to it. Within a block this is `Block.follows`; here it
is carried over to the routines a cache returns and from there to runs, which differ from runs of the
machine only in how often they look at the processor.
-/

namespace Sm83

namespace CodeCache

/-- The routine for a block takes as many steps as the block has instructions. -/
theorem compile_takes_steps {cache : CodeCache} (hreachable : Reachable cache) {start : Word}
    {bytes : List Byte} {block : Block} (hdecode : Block.decode start bytes = .ok block)
    {machine : Machine} (hrunning : machine.exit? = none) (hpc : machine.word .pc = start)
    (hplace : ∀ index < block.instructions.length,
      block.InPlace index (machine.stepN index).memory) :
    ∃ routine, (cache.compile start bytes).result = .ok routine ∧
      routine.execute machine = machine.stepN block.instructions.length ∧
      (∀ log, routine.events machine log = machine.stepNEvents log block.instructions.length) ∧
      ∀ index < block.instructions.length, (machine.stepN index).exit? = none := by
  obtain ⟨-, hstart, hbytes, hencodes⟩ := Block.decode_eq_ok_iff.mp hdecode
  rw [← hstart, ← hbytes] at hencodes
  rw [← hstart] at hpc
  have hfollows : block.Follows machine block.instructions.length :=
    Block.follows hencodes hpc (Nat.le_refl _) hplace
  refine ⟨block.compile, ?_, ?_, ?_, ?_⟩
  · rw [compile_of_decode hreachable.accepted hdecode]
    rfl
  · rw [← hfollows.execute, Block.take_compile]
  · intro log
    rw [← hfollows.events, Block.take_compile]
  · exact Block.goesOn hencodes hpc hrunning (Nat.le_refl _) hplace

/-- The first block of the code that patches itself still has its opcodes when their turn comes, but
not the operand it overwrites. -/
theorem decode_patchCode :
    ∃ block ∈ (Block.decode 0x0100 (Machine.patchCode.take 15)).toOption,
      block.instructions.length = 7 ∧
        (∀ index < 7, block.InPlace index (Machine.patching.stepN index).memory) ∧
        Machine.patching.memory.holds 0x0100 block.bytes = true ∧
        (Machine.patching.stepN 2).memory.holds 0x0100 block.bytes = false ∧
        Machine.patching.stepNEvents #[] 7 = #[.undefinedOpcode 0xD3 0x0109] := by
  decide +kernel

theorem compile_takes_steps_patching :
    Reachable patchCache ∧
      ∃ routine,
        (patchCache.compile 0x0100 (Machine.patchCode.take 15)).result = .ok routine ∧
          routine.execute Machine.patching = Machine.patching.stepN 7 ∧
          routine.events Machine.patching #[] = #[.undefinedOpcode 0xD3 0x0109] ∧
          Machine.patching.memory.holds 0x0100 (Machine.patchCode.take 15) = true ∧
          (Machine.patching.stepN 2).memory.holds 0x0100 (Machine.patchCode.take 15) = false ∧
          ∀ index < 7, (Machine.patching.stepN index).exit? = none := by
  obtain ⟨block, hblock, hlength, hplace, hholds, hpatched, hevents⟩ := decode_patchCode
  have hdecode : Block.decode 0x0100 (Machine.patchCode.take 15) = .ok block := by
    cases hresult : Block.decode 0x0100 (Machine.patchCode.take 15) with
    | error error =>
      rw [hresult] at hblock
      cases hblock
    | ok found =>
      rw [hresult] at hblock
      exact congrArg Except.ok (Option.some.inj hblock)
  rw [(Block.decode_eq_ok_iff.mp hdecode).2.2.1] at hholds hpatched
  rw [← hlength] at hplace
  have hreachable := filledByRuns_patchCache.reachable
  have hrunning : Machine.patching.exit? = none := rfl
  obtain ⟨routine, hcompile, hexecute, hlog, hgoes⟩ :=
    compile_takes_steps hreachable hdecode hrunning rfl hplace
  rw [hlength] at hexecute hgoes
  refine ⟨hreachable, routine, hcompile, hexecute, ?_, hholds, hpatched, hgoes⟩
  rw [hlog, hlength]
  exact hevents

/-! ### Runs -/

open Stage

/-- Every block that a run beginning at this stage enters keeps its opcodes until they are due. The
block at the program counter is in the cache once it has been looked up. -/
def Stage.KeepsOpcodes (deadline : Option Nat) (first : Stage) : Prop :=
  ∀ before compiled, Visits deadline first before → before.exit? deadline = none →
    (before.cache.lookup before.machine).cache.get? (before.machine.word .pc) = some compiled →
    compiled.block.KeepsOpcodes before.machine

section Runs

variable {deadline : Option Nat} {first before after last : Stage}

/-- Nothing is asked of a run that is at its end. -/
theorem Stage.KeepsOpcodes.of_exit? {exit : Exit} (hexit : first.exit? deadline = some exit) :
    first.KeepsOpcodes deadline := by
  intro before compiled hvisits hgoes
  rw [hvisits.eq_of_exit? hexit, hexit] at hgoes
  cases hgoes

theorem Stage.KeepsOpcodes.of_enters (henters : Enters deadline first after)
    (hfirst : ∀ compiled,
      (first.cache.lookup first.machine).cache.get? (first.machine.word .pc) = some compiled →
        compiled.block.KeepsOpcodes first.machine)
    (hafter : after.KeepsOpcodes deadline) : first.KeepsOpcodes deadline := by
  intro before compiled hvisits hgoes hget
  rcases hvisits.cases_head with heq | ⟨next, hnext, hrest⟩
  · rw [← heq] at hget ⊢
    exact hfirst compiled hget
  · rw [hnext.unique henters] at hrest
    exact hafter before compiled hrest hgoes hget

/-- A run with a deadline enters no other blocks than one without. -/
theorem Stage.KeepsOpcodes.of_none (hkeeps : first.KeepsOpcodes none) :
    first.KeepsOpcodes deadline := by
  intro before compiled hvisits hgoes
  refine hkeeps before compiled ?_ (exit?_none_of_exit? hgoes)
  exact Relation.ReflTransGen.mono
    (fun _ _ henters => ⟨exit?_none_of_exit? henters.goesOn, henters.lookup⟩) _ _ hvisits

theorem Stage.KeepsOpcodes.of_visits (hkeeps : first.KeepsOpcodes deadline)
    (hvisits : Visits deadline first last) : last.KeepsOpcodes deadline := by
  intro before compiled hbefore
  exact hkeeps before compiled (hvisits.trans hbefore)

/-- Whether a run ends after no more than `fuel` blocks, all of which keep their opcodes. -/
def Stage.keepsOpcodesWithin (deadline : Option Nat) (fuel : Nat) (stage : Stage) : Bool :=
  match stage.exit? deadline, fuel with
  | some _, _ => true
  | none, 0 => false
  | none, fuel + 1 =>
    match stage.cache.lookup stage.machine with
    | ⟨.error _, _⟩ => false
    | ⟨.ok routine, cache⟩ =>
      (cache.get? (stage.machine.word .pc)).all
          (fun compiled => decide (compiled.block.KeepsOpcodes stage.machine)) &&
        keepsOpcodesWithin deadline fuel ⟨cache, routine.execute stage.machine⟩

/-- For a run that ends, keeping the opcodes can be checked by running it. -/
theorem Stage.keepsOpcodes_of_within {fuel : Nat}
    (hcheck : first.keepsOpcodesWithin deadline fuel = true) : first.KeepsOpcodes deadline := by
  induction fuel generalizing first with
  | zero =>
    cases hexit : first.exit? deadline with
    | some exit => exact .of_exit? hexit
    | none =>
      simp only [keepsOpcodesWithin, hexit] at hcheck
      cases hcheck
  | succ fuel ih =>
    cases hexit : first.exit? deadline with
    | some exit => exact .of_exit? hexit
    | none =>
      obtain ⟨next, henters⟩ := exists_enters hexit
      obtain ⟨routine, hlookup, hnext⟩ := henters.lookup
      simp only [keepsOpcodesWithin, hexit, hlookup, Bool.and_eq_true] at hcheck
      obtain ⟨hblock, hrest⟩ := hcheck
      rw [← hnext] at hrest
      refine .of_enters henters ?_ (ih hrest)
      intro compiled hget
      rw [hlookup] at hget
      rw [hget] at hblock
      exact of_decide_eq_true hblock

/-- A block that keeps its opcodes takes one or more steps, all of which a run takes. -/
theorem exists_steps_of_enters (hall : before.cache.All Compiled.Accepted)
    (hkeeps : before.KeepsOpcodes deadline) (henters : Enters deadline before after) :
    ∃ count, 0 < count ∧ after.machine = before.machine.stepN count ∧
      before.machine.GoesOn count := by
  obtain ⟨compiled, hlookup, hget, ⟨hdecode, hroutine⟩, hafter, -⟩ :=
    henters.exists_compiled hall Compiled.ofDiscovery_accepted
  obtain ⟨hbytes, hstart, -, hencodes⟩ := Block.decode_eq_ok_iff.mp hdecode
  have hopcodes : compiled.block.KeepsOpcodes before.machine := by
    refine hkeeps before compiled .refl henters.goesOn ?_
    rw [hlookup]
    exact hget
  rw [← hstart] at hencodes
  have hplace : ∀ index < compiled.block.instructions.length,
      compiled.block.InPlace index (before.machine.stepN index).memory :=
    fun index hindex => hopcodes.inPlace hencodes hstart.symm hindex
  have hfollows := Block.follows hencodes hstart.symm (Nat.le_refl _) hplace
  have hrunning : before.machine.exit? = none := (exit?_eq_none_iff.mp henters.goesOn).1
  refine ⟨compiled.block.instructions.length, ?_, ?_, ?_⟩
  · exact List.length_pos_iff.mpr (hencodes.ne_nil hbytes)
  · rw [hafter, hroutine, ← hfollows.execute, Block.take_compile]
  · exact Block.goesOn hencodes hstart.symm hrunning (Nat.le_refl _) hplace

theorem exists_steps_of_visits (hall : first.cache.All Compiled.Accepted)
    (hkeeps : first.KeepsOpcodes deadline) (hvisits : Visits deadline first last) :
    ∃ count, last.machine = first.machine.stepN count ∧ first.machine.GoesOn count := by
  induction hvisits with
  | refl => exact ⟨0, by rw [Machine.stepN], .zero first.machine⟩
  | @tail before after hbefore henters ih =>
    obtain ⟨count, hmachine, hgoes⟩ := ih
    obtain ⟨more, -, hafter, hmore⟩ := exists_steps_of_enters
      (hall.visits Compiled.ofDiscovery_accepted hbefore) (hkeeps.of_visits hbefore) henters
    rw [hmachine] at hafter hmore
    refine ⟨count + more, ?_, hgoes.add hmore⟩
    rw [hafter, Machine.stepN_add]

/-- The end of a run of the machine is a stage, since no block goes past it. -/
theorem exists_visits_of_goesOn (hall : first.cache.All Compiled.Accepted)
    (hkeeps : first.KeepsOpcodes none) {count : Nat} (hgoes : first.machine.GoesOn count)
    {exit : Exit} (hexit : (first.machine.stepN count).exit? = some exit) :
    ∃ last, Visits none first last ∧ last.machine = first.machine.stepN count := by
  induction count using Nat.strongRecOn generalizing first with
  | ind count ih =>
    by_cases hzero : count = 0
    · rw [hzero]
      exact ⟨first, .refl, by rw [Machine.stepN]⟩
    · have hrunning : first.exit? none = none := by
        rw [exit?_none]
        exact hgoes 0 (by omega)
      obtain ⟨next, henters⟩ := exists_enters hrunning
      obtain ⟨taken, hpos, hnext, htaken⟩ := exists_steps_of_enters hall hkeeps henters
      -- The block cannot run past the end, so fewer steps remain after it.
      have hle : taken ≤ count := htaken.le_of_exit? hexit
      obtain ⟨remaining, hremaining⟩ := Nat.exists_eq_add_of_le hle
      rw [hremaining, Machine.stepN_add, ← hnext] at hexit
      rw [hremaining] at hgoes
      have hdrop := hgoes.drop
      rw [← hnext] at hdrop
      have hsingle : Visits none first next := .single henters
      obtain ⟨last, hvisits, hlast⟩ := ih remaining (by omega)
        (hall.visits Compiled.ofDiscovery_accepted hsingle) (hkeeps.of_visits hsingle) hdrop hexit
      refine ⟨last, hsingle.trans hvisits, ?_⟩
      rw [hlast, hnext, hremaining, Machine.stepN_add]

end Runs

/-- Runs of compiled code pass only through states that a run of the machine passes through, and one
without a budget ends if and only if the machine's own does, for the same reason and in the same
state, whatever the cache holds. The stages of both kinds of runs are those of `runTo`
(`runWithin_eq_runTo`, `runFor_eq_runTo`). -/
theorem run_takes_steps {cache : CodeCache} (hreachable : Reachable cache) (machine : Machine) :
    (∀ deadline, Stage.KeepsOpcodes deadline ⟨cache, machine⟩ →
        ∀ stage, Visits deadline ⟨cache, machine⟩ stage →
          ∃ count, stage.machine = machine.stepN count ∧ machine.GoesOn count) ∧
      (Stage.KeepsOpcodes none ⟨cache, machine⟩ →
        ∀ exit final,
          (∃ fuel kept, cache.runWithin fuel machine = some ⟨.ok exit, final, kept⟩) ↔
            ∃ fuel, machine.runWithin fuel = some ⟨exit, final⟩) ∧
      ∀ budget ended, Stage.KeepsOpcodes (some (machine.deadline budget)) ⟨cache, machine⟩ →
        cache.runFor budget machine = some ended →
          ∃ count, ended.machine = machine.stepN count ∧ machine.GoesOn count ∧
            ended.result = .ok ended.machine.reason ∧
            (ended.machine.reason = .outOfCycles →
              machine.deadline budget ≤ ended.machine.clock) := by
  have hall := hreachable.accepted
  refine ⟨?_, ?_, ?_⟩
  · intro deadline hkeeps stage hvisits
    exact exists_steps_of_visits hall hkeeps hvisits
  · intro hkeeps exit final
    constructor
    · intro hrun
      obtain ⟨fuel, kept, hrun⟩ := hrun
      rw [runWithin_eq_runTo] at hrun
      obtain ⟨last, reason, hvisits, hexit, hended⟩ := exists_runTo_eq_some_iff.mp ⟨fuel, hrun⟩
      obtain ⟨count, hmachine, hgoes⟩ := exists_steps_of_visits hall hkeeps hvisits
      cases hended
      rw [exit?_none, hmachine] at hexit
      exact Machine.exists_runWithin_eq_some_iff.mpr ⟨count, hgoes, hexit, hmachine⟩
    · intro hrun
      obtain ⟨count, hgoes, hexit, hfinal⟩ := Machine.exists_runWithin_eq_some_iff.mp hrun
      obtain ⟨last, hvisits, hlast⟩ := exists_visits_of_goesOn hall hkeeps hgoes hexit
      have hend : last.exit? none = some exit := by
        rw [exit?_none, hlast]
        exact hexit
      obtain ⟨fuel, hto⟩ := exists_runTo_eq_some_iff.mpr ⟨last, exit, hvisits, hend, rfl⟩
      have hsame : last.machine = final := hlast.trans hfinal.symm
      rw [hsame] at hto
      exact ⟨fuel, last.cache, hto⟩
  · intro budget ended hkeeps hrun
    rw [runFor_eq_runTo] at hrun
    obtain ⟨last, exit, hvisits, hexit, hended⟩ := exists_runTo_eq_some_iff.mp ⟨budget, hrun⟩
    obtain ⟨count, hmachine, hgoes⟩ := exists_steps_of_visits hall hkeeps hvisits
    subst hended
    exact ⟨count, hmachine, hgoes, result_of_runTo hrun, (isOver_of_exit?_some hexit).1.le_clock⟩

/-- The code overwrites opcodes only of a block that is not being executed. -/
theorem keepsOpcodes_patching : Stage.KeepsOpcodes none ⟨patchCache, Machine.patching⟩ := by
  have hcheck :
      Stage.keepsOpcodesWithin none 2 ⟨patchCache, Machine.patching⟩ = true := by
    decide +kernel
  exact Stage.keepsOpcodes_of_within hcheck

theorem run_takes_steps_patching :
    Reachable patchCache ∧ Stage.KeepsOpcodes none ⟨patchCache, Machine.patching⟩ ∧
      (∃ stale ∈ patchCache.get? 0x010F, stale.block.bytes = [0x00, 0x76]) ∧
      (∃ fuel kept, patchCache.runWithin fuel Machine.patching =
        some ⟨.ok .halted, Machine.patching.stepN 9, kept⟩) ∧
      (Machine.patching.stepN 9).byte .h = 0x67 ∧
      ∃ ended count, patchCache.runFor 5 Machine.patching = some ended ∧
        ended.result = .ok .outOfCycles ∧ ended.machine.clock = 18 ∧
        ended.machine = Machine.patching.stepN count ∧ Machine.patching.GoesOn count := by
  have hreachable := filledByRuns_patchCache.reachable
  obtain ⟨-, hstale, ⟨ended, hfor, hreason, hclock⟩, -⟩ := runs_patchCache
  obtain ⟨hgoes, hexit, -, hpatched, -⟩ := Machine.stepN_patching
  obtain ⟨-, hruns, hbudget⟩ := run_takes_steps hreachable Machine.patching
  refine ⟨hreachable, keepsOpcodes_patching, hstale, ?_, hpatched, ?_⟩
  · exact (hruns keepsOpcodes_patching .halted (Machine.patching.stepN 9)).mpr
      (Machine.exists_runWithin_eq_some_iff.mpr ⟨9, hgoes, hexit, rfl⟩)
  · obtain ⟨count, hmachine, hsteps, hresult, -⟩ :=
      hbudget 5 ended keepsOpcodes_patching.of_none hfor
    rw [hreason] at hresult
    exact ⟨ended, count, hfor, hresult, hclock, hmachine, hsteps⟩

end CodeCache

end Sm83

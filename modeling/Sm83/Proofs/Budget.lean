import Mathlib.Algebra.Group.Nat.Defs
import Mathlib.Order.Bounds.Defs
import Sm83.Proofs.Run

/-!
# Runs with a budget

A run with a budget ends in the first state that is over: stopped, halted, or past the deadline
(`Machine.exists_runUntil_eq`). A step takes between one and six cycles, so this state is reached
within the budget counted in steps, and at most five cycles late. Ending earlier and going on
afterwards leads to the same state, since what is over for a later deadline is over for an earlier
one. So a run can be cut into slices in any way.
-/

namespace Sm83

namespace Machine

/-- A run to the deadline goes no further. -/
def IsOver (deadline : Nat) (machine : Machine) : Prop :=
  machine.cpu.stopped = true ∨ machine.cpu.halted = true ∨ deadline ≤ machine.clock

instance (deadline : Nat) (machine : Machine) : Decidable (machine.IsOver deadline) :=
  inferInstanceAs (Decidable (_ ∨ _ ∨ _))

/-- Why a run that is over has ended. -/
def reason (machine : Machine) : Exit :=
  if machine.cpu.stopped then .stopped else if machine.cpu.halted then .halted else .outOfCycles

section Over

variable {machine : Machine} {deadline : Nat} {exit : Exit}

theorem reason_of_exit? (hexit : machine.exit? = some exit) : machine.reason = exit := by
  rw [exit?] at hexit
  rw [reason]
  split at hexit
  · next hstopped =>
    rw [if_pos hstopped]
    exact Option.some.inj hexit
  · next hstopped =>
    rw [if_neg hstopped]
    split at hexit
    · next hhalted =>
      rw [if_pos hhalted]
      exact Option.some.inj hexit
    · cases hexit

theorem exit?_eq_none_iff :
    machine.exit? = none ↔ ¬ machine.cpu.stopped = true ∧ ¬ machine.cpu.halted = true := by
  rw [exit?]
  split
  · next hstopped => simp [hstopped]
  · next hstopped =>
    split
    · next hhalted => simp [hhalted]
    · next hhalted => simp [hstopped, hhalted]

theorem reason_eq_outOfCycles_iff : machine.reason = .outOfCycles ↔ machine.exit? = none := by
  rw [exit?_eq_none_iff, reason]
  split
  · next hstopped => simp [hstopped]
  · next hstopped =>
    split
    · next hhalted => simp [hhalted]
    · next hhalted => simp [hstopped, hhalted]

theorem exit?_of_reason_ne (hreason : machine.reason ≠ .outOfCycles) :
    machine.exit? = some machine.reason := by
  cases hexit : machine.exit? with
  | none => exact absurd (reason_eq_outOfCycles_iff.mpr hexit) hreason
  | some exit => rw [reason_of_exit? hexit]

theorem isOver_of_exit? (hexit : machine.exit? = some exit) : machine.IsOver deadline := by
  rw [exit?] at hexit
  split at hexit
  · next hstopped => exact .inl hstopped
  · split at hexit
    · next hhalted => exact .inr (.inl hhalted)
    · cases hexit

theorem not_isOver_iff :
    ¬ machine.IsOver deadline ↔ machine.exit? = none ∧ machine.clock < deadline := by
  rw [IsOver, not_or, not_or, exit?_eq_none_iff, Nat.not_le, and_assoc]

/-- What is over for a deadline is over for every earlier one. -/
theorem IsOver.of_le {earlier : Nat} (hover : machine.IsOver deadline) (hle : earlier ≤ deadline) :
    machine.IsOver earlier := by
  rcases hover with hstopped | hhalted | hclock
  · exact .inl hstopped
  · exact .inr (.inl hhalted)
  · exact .inr (.inr (Nat.le_trans hle hclock))

/-- A run that has run out of cycles has come to its deadline. -/
theorem IsOver.le_clock (hover : machine.IsOver deadline)
    (hreason : machine.reason = .outOfCycles) : deadline ≤ machine.clock := by
  obtain ⟨hstopped, hhalted⟩ := exit?_eq_none_iff.mp (reason_eq_outOfCycles_iff.mp hreason)
  exact (hover.resolve_left hstopped).resolve_left hhalted

theorem runUntil_of_isOver (hover : machine.IsOver deadline) :
    machine.runUntil deadline = ⟨machine.reason, machine⟩ := by
  rw [runUntil]
  split
  · next hexit => rw [reason_of_exit? hexit]
  · next hexit =>
    have hreason := reason_eq_outOfCycles_iff.mpr hexit
    rw [if_pos (hover.le_clock hreason), hreason]

theorem runUntil_of_not_isOver (hgoes : ¬ machine.IsOver deadline) :
    machine.runUntil deadline = machine.step.runUntil deadline := by
  obtain ⟨hexit, hclock⟩ := not_isOver_iff.mp hgoes
  rw [runUntil, hexit]
  exact if_neg (Nat.not_le.mpr hclock)

end Over

/-! ### The state in which a run ends -/

/-- Induction along a run to a deadline. -/
theorem induction_runUntil (deadline : Nat) {property : Machine → Prop}
    (hover : ∀ machine, machine.IsOver deadline → property machine)
    (hstep : ∀ machine, ¬ machine.IsOver deadline → property machine.step → property machine)
    (machine : Machine) : property machine := by
  induction hremaining : deadline - machine.clock using Nat.strongRecOn generalizing machine with
  | ind remaining ih =>
    by_cases hends : machine.IsOver deadline
    · exact hover machine hends
    · have hclock := (not_isOver_iff.mp hends).2
      have hprogress := machine.clock_lt_clock_step
      exact hstep machine hends (ih (deadline - machine.step.clock) (by omega) machine.step rfl)

/-- A run ends in the first state that is over. -/
theorem exists_runUntil_eq (deadline : Nat) (machine : Machine) :
    ∃ count, IsLeast {count | (machine.stepN count).IsOver deadline} count ∧
      machine.runUntil deadline = ⟨(machine.stepN count).reason, machine.stepN count⟩ ∧
      count ≤ deadline - machine.clock ∧
      (machine.stepN count).clock ≤ max machine.clock (deadline + 5) := by
  induction machine using induction_runUntil deadline with
  | hover machine hover =>
    refine ⟨0, ⟨hover, fun _ _ => Nat.zero_le _⟩, runUntil_of_isOver hover, Nat.zero_le _, ?_⟩
    exact Nat.le_max_left _ _
  | hstep machine hgoes ih =>
    obtain ⟨count, ⟨hover, hleast⟩, hrun, hcount, hclock⟩ := ih
    have hbefore := (not_isOver_iff.mp hgoes).2
    have hprogress := machine.clock_lt_clock_step
    have hstep := machine.clock_step_le
    refine ⟨count + 1, ⟨hover, ?_⟩, ?_, by omega, ?_⟩
    · intro index hindex
      cases index with
      | zero => exact absurd hindex hgoes
      | succ index => exact Nat.succ_le_succ (hleast hindex)
    · rw [runUntil_of_not_isOver hgoes, hrun, stepN]
    · rw [stepN]
      omega

theorem clock_le_clock_runUntil (deadline : Nat) (machine : Machine) :
    machine.clock ≤ (machine.runUntil deadline).machine.clock := by
  induction machine using induction_runUntil deadline with
  | hover machine hover =>
    apply Nat.le_of_eq
    rw [runUntil_of_isOver hover]
  | hstep machine hgoes ih =>
    rw [runUntil_of_not_isOver hgoes]
    exact Nat.le_trans (Nat.le_of_lt machine.clock_lt_clock_step) ih

/-! ### Slices -/

/-- A run may be interrupted at any earlier deadline. -/
theorem runUntil_runUntil {earlier deadline : Nat} (hle : earlier ≤ deadline) (machine : Machine) :
    (machine.runUntil earlier).machine.runUntil deadline = machine.runUntil deadline := by
  induction machine using induction_runUntil earlier with
  | hover machine hover => rw [runUntil_of_isOver hover]
  | hstep machine hgoes ih =>
    have hgoes' : ¬ machine.IsOver deadline := fun hover => hgoes (hover.of_le hle)
    rw [runUntil_of_not_isOver hgoes, ih, runUntil_of_not_isOver hgoes']

theorem deadline_eq {machine : Machine} {budget : Nat} (hclock : machine.clock + budget < 2 ^ 64) :
    machine.deadline budget = machine.clock + budget :=
  Nat.min_eq_left (by omega)

theorem runFor_runFor {machine : Machine} {budget first : Nat}
    (hclock : machine.clock + budget < 2 ^ 64) (hfirst : first ≤ budget) :
    (machine.runFor first).machine.runFor
        (budget - ((machine.runFor first).machine.clock - machine.clock)) =
      machine.runFor budget := by
  have hdeadline := deadline_eq hclock
  have hslice : machine.deadline first ≤ machine.deadline budget := by
    rw [hdeadline, deadline_eq (by omega)]
    omega
  have hresume := runUntil_runUntil hslice machine
  have hprogress := clock_le_clock_runUntil (machine.deadline first) machine
  simp only [runFor]
  rw [← hresume]
  generalize (machine.runUntil (machine.deadline first)).machine = slice at hprogress ⊢
  by_cases hspent : machine.clock + budget ≤ slice.clock
  · -- The first slice has spent the whole budget, so neither run takes a step.
    have hover : slice.IsOver (machine.deadline budget) := by
      rw [hdeadline]
      exact .inr (.inr hspent)
    have hover' : slice.IsOver (slice.deadline (budget - (slice.clock - machine.clock))) := by
      refine .inr (.inr ?_)
      have hzero : budget - (slice.clock - machine.clock) = 0 := by omega
      rw [hzero]
      exact Nat.min_le_left _ _
    rw [runUntil_of_isOver hover, runUntil_of_isOver hover']
  · have hsame : slice.clock + (budget - (slice.clock - machine.clock)) = machine.clock + budget := by
      omega
    rw [hdeadline, deadline_eq (by omega), hsame]

/-- The machine after `count` runs, each with the next of the budgets. -/
def afterSlices (machine : Machine) (budgets : Nat → Nat) : Nat → Machine
  | 0 => machine
  | count + 1 => ((machine.afterSlices budgets count).runFor (budgets count)).machine

/-- The numbered one of the runs. -/
def slice (machine : Machine) (budgets : Nat → Nat) (index : Nat) : Ended :=
  (machine.afterSlices budgets index).runFor (budgets index)

/-- The steps of a run with a budget are steps that a run without one takes as well. -/
theorem exists_runUntil_goesOn (deadline : Nat) (machine : Machine) :
    ∃ count, machine.GoesOn count ∧
      machine.runUntil deadline = ⟨(machine.stepN count).reason, machine.stepN count⟩ := by
  obtain ⟨count, ⟨-, hleast⟩, hrun, -, -⟩ := exists_runUntil_eq deadline machine
  refine ⟨count, ?_, hrun⟩
  intro index hindex
  have hgoes : ¬ (machine.stepN index).IsOver deadline := fun hover =>
    absurd (hleast hover) (Nat.not_le.mpr hindex)
  exact (not_isOver_iff.mp hgoes).1

theorem exists_afterSlices_eq (machine : Machine) (budgets : Nat → Nat) (index : Nat) :
    ∃ count, machine.GoesOn count ∧ machine.afterSlices budgets index = machine.stepN count := by
  induction index with
  | zero => exact ⟨0, .zero machine, rfl⟩
  | succ index ih =>
    obtain ⟨count, hgoes, hafter⟩ := ih
    obtain ⟨more, hmore, hrun⟩ := exists_runUntil_goesOn
      ((machine.stepN count).deadline (budgets index)) (machine.stepN count)
    refine ⟨count + more, hgoes.add hmore, ?_⟩
    rw [afterSlices, hafter, runFor, hrun, stepN_add]

theorem clock_afterSlices_le (machine : Machine) (budgets : Nat → Nat) {first last : Nat}
    (hle : first ≤ last) :
    (machine.afterSlices budgets first).clock ≤ (machine.afterSlices budgets last).clock := by
  induction hle with
  | refl => exact Nat.le_refl _
  | step _ ih => exact Nat.le_trans ih (clock_le_clock_runUntil _ _)

/-- A slice that does not run out of cycles has come to the end of the run without a budget. -/
theorem exists_runWithin_of_slice {machine : Machine} {budgets : Nat → Nat} {index : Nat}
    (hexit : (machine.slice budgets index).exit ≠ .outOfCycles) :
    ∃ fuel, machine.runWithin fuel = some (machine.slice budgets index) := by
  obtain ⟨count, hgoes, hafter⟩ := machine.exists_afterSlices_eq budgets index
  obtain ⟨more, hmore, hrun⟩ := exists_runUntil_goesOn
    ((machine.stepN count).deadline (budgets index)) (machine.stepN count)
  rw [slice, hafter, runFor, hrun] at hexit ⊢
  refine exists_runWithin_eq_some_iff.mpr ⟨count + more, hgoes.add hmore, ?_, ?_⟩
  · rw [stepN_add]
    exact exit?_of_reason_ne hexit
  · rw [stepN_add]

section Ending

variable {machine : Machine} {ended : Ended} {fuel : Nat} (hrun : machine.runWithin fuel = some ended)
  {budgets : Nat → Nat} {index : Nat}

include hrun

theorem slice_eq_of_exit_ne (hexit : (machine.slice budgets index).exit ≠ .outOfCycles) :
    machine.slice budgets index = ended := by
  obtain ⟨fuel', hslice⟩ := exists_runWithin_of_slice hexit
  exact runWithin_unique hslice hrun

/-- Between two slices the run without a budget has not ended, or it is at its end. -/
theorem clock_afterSlices_lt (hgoing : (machine.afterSlices budgets index).exit? = none) :
    (machine.afterSlices budgets index).clock < ended.machine.clock := by
  obtain ⟨final, -, hexit, hfinal⟩ := exists_runWithin_eq_some_iff.mp ⟨fuel, hrun⟩
  obtain ⟨count, hgoes, hafter⟩ := machine.exists_afterSlices_eq budgets index
  rw [hafter] at hgoing ⊢
  have hcount : count < final := by
    rcases Nat.lt_or_eq_of_le (hgoes.le_of_exit? hexit) with hlt | heq
    · exact hlt
    · rw [heq, hexit] at hgoing
      cases hgoing
  rw [hfinal]
  exact clock_stepN_lt_clock_stepN hcount machine

theorem slice_eq_of_le (hclock : ended.machine.clock ≤ (machine.afterSlices budgets index).clock) :
    machine.slice budgets index = ended := by
  apply slice_eq_of_exit_ne hrun
  cases hexit : (machine.afterSlices budgets index).exit? with
  | none =>
    have hlt := clock_afterSlices_lt hrun hexit
    omega
  | some exit =>
    intro hout
    rw [slice, runFor, runUntil_of_isOver (isOver_of_exit? hexit)] at hout
    rw [reason_eq_outOfCycles_iff.mp hout] at hexit
    cases hexit

/-- A slice that may take time ends the run or takes some. -/
theorem slice_eq_or_clock_lt (hclock : ended.machine.clock < 2 ^ 64) (hbudget : 0 < budgets index) :
    machine.slice budgets index = ended ∨
      (machine.afterSlices budgets index).clock <
        (machine.afterSlices budgets (index + 1)).clock := by
  by_cases hexit : (machine.slice budgets index).exit = .outOfCycles
  · by_cases hend : ended.machine.clock ≤ (machine.afterSlices budgets index).clock
    · exact .inl (slice_eq_of_le hrun hend)
    · right
      rw [slice] at hexit
      rw [afterSlices]
      generalize machine.afterSlices budgets index = before at hexit hend ⊢
      obtain ⟨count, ⟨hover, -⟩, hslice, -, -⟩ :=
        exists_runUntil_eq (before.deadline (budgets index)) before
      rw [runFor, hslice] at hexit ⊢
      have hlate := hover.le_clock hexit
      rw [deadline] at hlate
      simp only
      omega
  · exact .inl (slice_eq_of_exit_ne hrun hexit)

theorem exists_slice_eq (hclock : ended.machine.clock < 2 ^ 64)
    (hbudgets : ∀ start, ∃ index ≥ start, 0 < budgets index) :
    ∃ index, machine.slice budgets index = ended := by
  have hprogress (bound : Nat) : (∃ index, machine.slice budgets index = ended) ∨
      ∃ index, bound ≤ (machine.afterSlices budgets index).clock := by
    induction bound with
    | zero => exact .inr ⟨0, Nat.zero_le _⟩
    | succ bound ih =>
      rcases ih with hended | ⟨start, hstart⟩
      · exact .inl hended
      · obtain ⟨index, hindex, hbudget⟩ := hbudgets start
        have hlater := machine.clock_afterSlices_le budgets hindex
        rcases slice_eq_or_clock_lt hrun hclock hbudget with hended | hlt
        · exact .inl ⟨index, hended⟩
        · exact .inr ⟨index + 1, by omega⟩
  rcases hprogress ended.machine.clock with hended | ⟨index, hindex⟩
  · exact hended
  · exact ⟨index, slice_eq_of_le hrun hindex⟩

end Ending

/-- A run with a budget takes the fewest steps after which it is over, and slices of a run end as the
whole run does. -/
theorem runFor_takes_least_steps (machine : Machine) :
    (∀ budget, machine.clock + budget + 5 < 2 ^ 64 →
        (∃ count ≤ budget,
          IsLeast {count | (machine.stepN count).IsOver (machine.clock + budget)} count ∧
            machine.runFor budget = ⟨(machine.stepN count).reason, machine.stepN count⟩ ∧
            (machine.stepN count).clock ≤ machine.clock + budget + 5) ∧
          ∀ first ≤ budget,
            (machine.runFor first).machine.runFor
                (budget - ((machine.runFor first).machine.clock - machine.clock)) =
              machine.runFor budget) ∧
      ∀ fuel ended, machine.runWithin fuel = some ended → ∀ budgets,
        (∀ index, (machine.slice budgets index).exit ≠ .outOfCycles →
            machine.slice budgets index = ended) ∧
          (ended.machine.clock < 2 ^ 64 → (∀ start, ∃ index ≥ start, 0 < budgets index) →
            ∃ index, machine.slice budgets index = ended) := by
  refine ⟨?_, ?_⟩
  · intro budget hbudget
    have hclock : machine.clock + budget < 2 ^ 64 := by omega
    refine ⟨?_, fun first hfirst => runFor_runFor hclock hfirst⟩
    obtain ⟨count, hleast, hrun, hcount, hlate⟩ :=
      exists_runUntil_eq (machine.clock + budget) machine
    refine ⟨count, by omega, hleast, ?_, by omega⟩
    rw [runFor, deadline_eq hclock, hrun]
  · intro fuel ended hrun budgets
    exact ⟨fun index hexit => slice_eq_of_exit_ne hrun hexit,
      fun hclock hbudgets => exists_slice_eq hrun hclock hbudgets⟩

/-- Code that overwrites an operand of its own and the instruction it jumps to.

    0100  LD A,76
    0102  LD (0106),A
    0105  LD A,00      reads 76
    0107  SWAP A
    0109  D3           means nothing
    010A  LD (010F),A
    010D  JR 010F
    010F  NOP          is LD H,A by then
    0110  HALT -/
def patchCode : List Byte :=
  [0x3E, 0x76, 0xEA, 0x06, 0x01, 0x3E, 0x00, 0xCB, 0x37, 0xD3, 0xEA, 0x0F, 0x01, 0x18, 0x00,
    0x00, 0x76]

/-- A machine that has booted and is about to execute that code. -/
def patching : Machine :=
  { Machine.initial (.afterBoot .gb) with memory := Memory.zero.writeAll 0x0100 patchCode }

theorem stepN_patching :
    (∀ index < 9, (patching.stepN index).exit? = none) ∧
      (patching.stepN 9).exit? = some .halted ∧ (patching.stepN 9).clock = 20 ∧
      (patching.stepN 9).byte .h = 0x67 ∧
      (∀ index < 2, ¬ (patching.stepN index).IsOver 3) ∧ (patching.stepN 2).IsOver 3 ∧
      (patching.stepN 2).reason = .outOfCycles ∧ (patching.stepN 2).clock = 6 := by
  decide +kernel

theorem runFor_takes_least_steps_patching :
    patching.runFor 3 = ⟨.outOfCycles, patching.stepN 2⟩ ∧ (patching.stepN 2).clock = 6 ∧
      (patching.runFor 1).machine.runFor
          (3 - ((patching.runFor 1).machine.clock - patching.clock)) =
        ⟨.outOfCycles, patching.stepN 2⟩ ∧
      ∃ fuel index, patching.runWithin fuel = some ⟨.halted, patching.stepN 9⟩ ∧
        patching.slice (fun _ => 3) index = ⟨.halted, patching.stepN 9⟩ := by
  obtain ⟨hgoes, hexit, hclock, -, hbefore, hover, hreason, hlate⟩ := stepN_patching
  obtain ⟨hbudget, hslices⟩ := runFor_takes_least_steps patching
  obtain ⟨⟨count, -, ⟨hleast, hfirst⟩, hthree, -⟩, hresume⟩ := hbudget 3 (by decide)
  have hcount : count = 2 :=
    Nat.le_antisymm (hfirst hover) (Nat.not_lt.mp fun hlt => hbefore count hlt hleast)
  rw [hcount, hreason] at hthree
  obtain ⟨fuel, hrun⟩ : ∃ fuel, patching.runWithin fuel = some ⟨.halted, patching.stepN 9⟩ :=
    exists_runWithin_eq_some_iff.mpr ⟨9, hgoes, hexit, rfl⟩
  have hends : (patching.stepN 9).clock < 2 ^ 64 := by
    rw [hclock]
    decide
  obtain ⟨index, hindex⟩ := (hslices fuel _ hrun fun _ => 3).2 hends fun start =>
    ⟨start, Nat.le_refl start, by decide⟩
  refine ⟨hthree, hlate, ?_, fuel, index, hrun, hindex⟩
  rw [hresume 1 (by decide), hthree]

end Machine

end Sm83

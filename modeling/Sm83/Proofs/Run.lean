import Sm83.Proofs.Step

/-!
# Runs as numbers of steps

A run without a budget is determined by the first of the states reached by steps in which the
processor is stopped or halted. `Machine.GoesOn` says that a run has not come to its end before it has
taken a number of steps; such statements about consecutive parts of a run compose.
-/

namespace Sm83

namespace Machine

theorem stepN_add (machine : Machine) (first second : Nat) :
    machine.stepN (first + second) = (machine.stepN first).stepN second := by
  induction first generalizing machine with
  | zero => rw [Nat.zero_add, stepN]
  | succ first ih => rw [Nat.succ_add, stepN, stepN, ih]

theorem stepN_succ (machine : Machine) (count : Nat) :
    machine.stepN (count + 1) = (machine.stepN count).step := by
  rw [stepN_add, stepN, stepN]

/-- A run of the machine takes at least `count` steps. -/
def GoesOn (machine : Machine) (count : Nat) : Prop :=
  ∀ index < count, (machine.stepN index).exit? = none

namespace GoesOn

variable {machine : Machine} {first second count : Nat}

theorem zero (machine : Machine) : machine.GoesOn 0 := by
  intro index hindex
  omega

theorem add (hfirst : machine.GoesOn first) (hsecond : (machine.stepN first).GoesOn second) :
    machine.GoesOn (first + second) := by
  intro index hindex
  by_cases hbefore : index < first
  · exact hfirst index hbefore
  · have hexit := hsecond (index - first) (by omega)
    rw [← stepN_add, Nat.add_sub_cancel' (Nat.not_lt.mp hbefore)] at hexit
    exact hexit

theorem drop (hgoes : machine.GoesOn (first + second)) :
    (machine.stepN first).GoesOn second := by
  intro index hindex
  rw [← stepN_add]
  exact hgoes (first + index) (by omega)

theorem le_of_exit? {exit : Exit} (hgoes : machine.GoesOn count)
    (hexit : (machine.stepN first).exit? = some exit) : count ≤ first := by
  refine Nat.not_lt.mp fun hlt => ?_
  have hnone := hgoes first hlt
  rw [hexit] at hnone
  cases hnone

end GoesOn

theorem runWithin_of_exit? {machine : Machine} {exit : Exit} (hexit : machine.exit? = some exit)
    (fuel : Nat) : machine.runWithin fuel = some ⟨exit, machine⟩ := by
  cases fuel with
  | zero => simp only [runWithin, hexit]
  | succ fuel => simp only [runWithin, hexit]

/-- A run that is allowed enough steps ends in the first state that has a reason to. -/
theorem exists_runWithin_eq_some_iff {machine : Machine} {ended : Ended} :
    (∃ fuel, machine.runWithin fuel = some ended) ↔
      ∃ count, machine.GoesOn count ∧ (machine.stepN count).exit? = some ended.exit ∧
        ended.machine = machine.stepN count := by
  constructor
  · intro hrun
    obtain ⟨fuel, hrun⟩ := hrun
    induction fuel generalizing machine with
    | zero =>
      cases hexit : machine.exit? with
      | none => simp only [runWithin, hexit, reduceCtorEq] at hrun
      | some exit =>
        rw [runWithin_of_exit? hexit] at hrun
        cases hrun
        exact ⟨0, .zero machine, hexit, rfl⟩
    | succ fuel ih =>
      cases hexit : machine.exit? with
      | none =>
        simp only [runWithin, hexit] at hrun
        obtain ⟨count, hgoes, hlast, hended⟩ := ih hrun
        have hfirst : machine.GoesOn 1 := by
          intro index hindex
          have hzero : index = 0 := by omega
          rw [hzero]
          exact hexit
        refine ⟨1 + count, hfirst.add hgoes, ?_, ?_⟩
        · rw [stepN_add]
          exact hlast
        · rw [stepN_add]
          exact hended
      | some exit =>
        rw [runWithin_of_exit? hexit] at hrun
        cases hrun
        exact ⟨0, .zero machine, hexit, rfl⟩
  · intro hends
    obtain ⟨count, hgoes, hexit, hended⟩ := hends
    refine ⟨count, ?_⟩
    induction count generalizing machine with
    | zero =>
      rw [stepN] at hexit hended
      rw [runWithin_of_exit? hexit, ← hended]
    | succ count ih =>
      have hrunning : machine.exit? = none := hgoes 0 (by omega)
      simp only [runWithin, hrunning]
      apply ih
      · intro index hindex
        have hnext := hgoes (index + 1) (by omega)
        rw [stepN] at hnext
        exact hnext
      · rw [stepN] at hexit
        exact hexit
      · rw [stepN] at hended
        exact hended

/-- How long a run may take does not matter to one that ends. -/
theorem runWithin_unique {machine : Machine} {ended other : Ended} {fuel more : Nat}
    (hended : machine.runWithin fuel = some ended) (hother : machine.runWithin more = some other) :
    ended = other := by
  obtain ⟨first, hgoes, hexit, hmachine⟩ := exists_runWithin_eq_some_iff.mp ⟨fuel, hended⟩
  obtain ⟨second, hgoes', hexit', hmachine'⟩ := exists_runWithin_eq_some_iff.mp ⟨more, hother⟩
  have hcount : first = second :=
    Nat.le_antisymm (hgoes.le_of_exit? hexit') (hgoes'.le_of_exit? hexit)
  obtain ⟨exit, final⟩ := ended
  obtain ⟨exit', final'⟩ := other
  cases hmachine
  cases hmachine'
  rw [hcount, hexit'] at hexit
  cases hexit
  rw [hcount]

theorem clock_stepN_lt_clock_stepN {first second : Nat} (hlt : first < second)
    (machine : Machine) : (machine.stepN first).clock < (machine.stepN second).clock := by
  induction hlt with
  | refl =>
    rw [stepN_succ]
    exact clock_lt_clock_step _
  | step _ ih =>
    rw [stepN_succ]
    exact Nat.lt_trans ih (clock_lt_clock_step _)

end Machine

end Sm83

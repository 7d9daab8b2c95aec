import Mathlib.Logic.Function.Iterate
import TeachingCpu.Machine

/-!
Executing instructions one after the other, whatever each of them gives. The breakpoint takes no
part in this: it is neither looked at nor changed.
-/

namespace TeachingCpu

theorem Processor.outcome_step_ne_breakPoint (p : Processor) : p.step.1 ≠ .breakPoint := by
  unfold step
  split
  · exact Outcome.noConfusion
  · next i q fetched => cases i <;> exact Outcome.noConfusion

namespace Machine

variable (m : Machine)

theorem outcome_stepOver_ne_breakPoint : m.stepOver.1 ≠ .breakPoint :=
  m.processor.outcome_step_ne_breakPoint

def executed (n : Nat) : Machine := (fun m => m.stepOver.2)^[n] m

@[simp] theorem executed_zero : m.executed 0 = m := rfl

theorem executed_succ (n : Nat) : m.executed (n + 1) = (m.executed n).stepOver.2 :=
  Function.iterate_succ_apply' _ n m

theorem executed_stepOver (n : Nat) : m.stepOver.2.executed n = m.executed (n + 1) :=
  (Function.iterate_succ_apply _ n m).symm

theorem executed_add (n k : Nat) : m.executed (n + k) = (m.executed n).executed k := by
  rw [Nat.add_comm]
  exact Function.iterate_add_apply _ k n m

theorem stepOver_setBreakpoint (a : Option Address) :
    (m.setBreakpoint a).stepOver = (m.stepOver.1, m.stepOver.2.setBreakpoint a) := rfl

theorem executed_setBreakpoint (a : Option Address) (n : Nat) :
    (m.setBreakpoint a).executed n = (m.executed n).setBreakpoint a := by
  induction n with
  | zero => rfl
  | succ n ih => rw [executed_succ, executed_succ, ih, stepOver_setBreakpoint]

theorem breakpoint_executed (n : Nat) : (m.executed n).breakpoint = m.breakpoint := by
  induction n with
  | zero => rfl
  | succ n ih =>
    rw [executed_succ, ← ih]
    rfl

/-- The next `n` instructions are ordinary ones. -/
def Continues (n : Nat) : Prop := ∀ i < n, (m.executed i).stepOver.1.continues = true

variable {m}

theorem Continues.add {n k : Nat} (h : m.Continues n) (h' : (m.executed n).Continues k) :
    m.Continues (n + k) := by
  intro i below
  by_cases early : i < n
  · exact h i early
  · obtain ⟨d, rfl⟩ := Nat.exists_eq_add_of_le (Nat.le_of_not_lt early)
    rw [executed_add]
    exact h' d (by omega)

theorem Continues.drop {n k : Nat} (h : m.Continues (n + k)) : (m.executed n).Continues k := by
  intro i below
  rw [← executed_add]
  exact h (n + i) (by omega)

theorem continues_setBreakpoint {a : Option Address} {n : Nat} :
    (m.setBreakpoint a).Continues n ↔ m.Continues n := by
  simp only [Continues, executed_setBreakpoint, stepOver_setBreakpoint]

end Machine

end TeachingCpu
